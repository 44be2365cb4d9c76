import Mathlib.Data.Nat.Find
import Menagerie.Graph.Sample
import Menagerie.Proofs.Acceptance
import Menagerie.Proofs.Reports
import Menagerie.Proofs.Texts

/-! # The first fault of a layout

A layout meets the declarations one after another, and for each one it encodes the record, checks that
it fits and enters its name. Said without the walk:

* `Graph.fault?` -- what keeps a declaration from being encoded, read off the graph alone;
* `Draft`, `Graph.drafts` -- the declarations in the order in which they are laid out, each with its name,
  its fault and its size; **a draft tells how the encoding turns out** (`Draft.Describes`);
* `Draft.Faulty`, `Draft.cause` -- which positions are faulty, and what is reported there;
* `Layout.foldl_stops` -- a pass stops at the first fault that comes after what was placed before it;
* `Layout.first_fault_reported` -- **a layout fails exactly if some position is faulty, and with the cause
  at the least one**.
-/

namespace Menagerie

/-! ## 1. Declarations -/

/-- What keeps an animal from being encoded: its gene, its name and its sound are checked in this
order. -/
def Animal.fault? (a : Animal) : Option CompileError :=
  (Record.wide? .animal a.name "gene" a.gene).or
    ((Record.wide? .animal a.name "name" a.name).or (Record.wide? .animal a.name "sound" a.sound))

/-- What keeps an instance from being encoded: its species, then its name. -/
def Instance.fault? (g : Graph) (i : Instance) : Option CompileError :=
  match g.animal? i.species with
  | none => some (.unresolved (.species i.name) (.outOfRange .animal i.species.index))
  | some _ => Record.wide? .inst i.name "name" i.name

/-- What keeps a world from being encoded: its name, then the first entry of its list that is out of
range. -/
def World.fault? (g : Graph) (w : World) : Option CompileError :=
  (Record.wide? .world w.name "name" w.name).or
    ((w.contains.find? fun r => (g.inst? r).isNone).map fun r =>
      .unresolved (.listing w.name) (.outOfRange .inst r.index))

/-- What keeps the declaration of a kind at a position from being encoded. -/
def Graph.fault? (g : Graph) (k : RecordKind) (n : Nat) : Option CompileError :=
  match k with
  | .animal => g.animals[n]?.bind Animal.fault?
  | .inst => g.instances[n]?.bind (·.fault? g)
  | .world => g.worlds[n]?.bind (·.fault? g)

/-- Room is no matter of encoding. -/
theorem Graph.fault?_ne_overflow {g : Graph} {k : RecordKind} {n required limit : Nat} :
    g.fault? k n ≠ some (.overflow required limit) := by
  have hwide : ∀ kind name field s, Record.wide? kind name field s ≠ some (.overflow required limit) := by
    intro kind name field s h
    obtain ⟨ch, -, he⟩ := Option.map_eq_some_iff.mp h
    cases he
  intro h
  cases k with
  | animal =>
    obtain ⟨a, -, h⟩ := Option.bind_eq_some_iff.mp h
    simp only [Animal.fault?, Option.or_eq_some_iff, hwide, and_false, or_false] at h
  | inst =>
    obtain ⟨i, -, h⟩ := Option.bind_eq_some_iff.mp h
    unfold Instance.fault? at h
    split at h
    · cases h
    · exact hwide _ _ _ _ h
  | world =>
    obtain ⟨w, -, h⟩ := Option.bind_eq_some_iff.mp h
    rcases Option.or_eq_some_iff.mp h with h | ⟨-, h⟩
    · exact hwide _ _ _ _ h
    · obtain ⟨r, -, he⟩ := Option.map_eq_some_iff.mp h
      cases he

namespace Record

variable {g : Graph} {d : Directory} {e : CompileError}

/-- A text field and what follows it fails by the text, or by what follows. -/
theorem textField_bind_eq_error_iff {α : Type} {kind : RecordKind} {name field s : String}
    {f : Bytes → Except CompileError α} :
    (textField kind name field s >>= f) = .error e ↔ wide? kind name field s = some e ∨
      wide? kind name field s = none ∧ f (Bytes.codes s) = .error e := by
  have hok : ∀ b, textField kind name field s = .ok b ↔
      wide? kind name field s = none ∧ b = Bytes.codes s := by
    intro b
    rw [textField_eq_ok_iff, wide?, Option.map_eq_none_iff, Bytes.firstWide?_eq_none_iff]
  rw [bind_eq_error_iff, textField_eq_error_iff]
  simp only [hok]
  constructor
  · intro h
    rcases h with h | ⟨b, ⟨hw, hb⟩, hf⟩
    · exact .inl h
    · exact .inr ⟨hw, hb ▸ hf⟩
  · intro h
    rcases h with h | ⟨hw, hf⟩
    · exact .inl h
    · exact .inr ⟨_, ⟨hw, rfl⟩, hf⟩

theorem ofAnimal_eq_error_iff {a : Animal} : ofAnimal a = .error e ↔ a.fault? = some e := by
  have hdone : ∀ r : Record, ¬ (pure r : Except CompileError Record) = .error e := fun r h => by
    cases h
  simp only [ofAnimal, textField_bind_eq_error_iff, hdone, Animal.fault?, Option.or_eq_some_iff,
    and_false, or_false]

theorem ofInst_eq_error_iff (hd : d.keys = g.names .animal) {i : Instance} :
    ofInst g d i = .error e ↔ i.fault? g = some e := by
  unfold ofInst Instance.fault?
  cases ha : g.animal? i.species with
  | none =>
    have hspecies : speciesOffset g d i =
        .error (.unresolved (.species i.name) (.outOfRange .animal i.species.index)) := by
      rw [speciesOffset, ha]
    rw [hspecies, Option.some.injEq]
    exact ⟨Except.error.inj, congrArg Except.error⟩
  | some a =>
    have hmem : a.name ∈ d.keys := by
      rw [hd]
      exact List.mem_map.mpr ⟨a, Array.mem_toList_iff.mpr (Array.mem_of_getElem? ha), rfl⟩
    obtain ⟨o, ho⟩ := Directory.exists_get? hmem
    rw [speciesOffset_eq_ok_iff.mpr ⟨a, ha, ho⟩]
    show (textField .inst i.name "name" i.name >>= _) = _ ↔ _
    rw [textField_bind_eq_error_iff]
    constructor
    · intro h
      rcases h with h | ⟨-, h⟩
      · exact h
      · cases h
    · exact .inl

theorem memberOffset_eq_error_iff (hd : d.keys = g.names .inst) {world : String} {r : Ref .inst} :
    memberOffset g d world r = .error e ↔
      g.inst? r = none ∧ e = .unresolved (.listing world) (.outOfRange .inst r.index) := by
  cases hr : g.inst? r with
  | none =>
    rw [memberOffset, hr]
    exact ⟨fun h => ⟨rfl, (Except.error.inj h).symm⟩, fun h => congrArg Except.error h.2.symm⟩
  | some i =>
    obtain ⟨o, ho⟩ := memberOffset_succeeds hd ⟨i, hr⟩ world
    rw [ho]
    constructor
    · intro h
      cases h
    · intro h
      cases h.1

theorem ofWorld_eq_error_iff (hd : d.keys = g.names .inst) {w : World} :
    ofWorld g d w = .error e ↔ w.fault? g = some e := by
  have hmembers : w.contains.mapM (memberOffset g d w.name) = .error e ↔
      (w.contains.find? fun r => (g.inst? r).isNone).map
        (fun r => .unresolved (.listing w.name) (.outOfRange .inst r.index)) = some e := by
    simp only [mapM_eq_error_iff, memberOffset_eq_error_iff hd, Option.map_eq_some_iff,
      List.find?_eq_some_iff_append, Option.isNone_iff_eq_none]
    constructor
    · intro ⟨ys, r, zs, os, hsplit, hos, hr, he⟩
      refine ⟨r, ⟨hr, ys, zs, hsplit, fun m hm => ?_⟩, he.symm⟩
      obtain ⟨o, -, ho⟩ := forall₂_of_mem_left hos hm
      obtain ⟨i, hi, -⟩ := memberOffset_eq_ok_iff.mp ho
      simp [hi]
    · intro ⟨r, ⟨hr, ys, zs, hsplit, hys⟩, he⟩
      obtain ⟨os, hos⟩ := exists_forall₂ fun m hm => memberOffset_succeeds hd
        (Option.isSome_iff_exists.mp (by simpa using hys m hm)) w.name
      exact ⟨ys, r, zs, os, hsplit, hos, hr, he.symm⟩
  rw [ofWorld, textField_bind_eq_error_iff, World.fault?, Option.or_eq_some_iff, ← hmembers,
    bind_eq_error_iff]
  have hdone : ∀ os : List Offset, ¬ (pure (ofFields .world [Bytes.codes w.name,
      os.foldl (fun b o => b.pushWord o.word) #[]]) : Except CompileError Record) = .error e :=
    fun os h => by cases h
  simp only [hdone, and_false, exists_false, or_false]

end Record

/-! ## 2. Drafts -/

/-- **A declaration as a layout meets it**: its kind and name, what keeps it from being encoded, and the
bytes that its record takes. -/
structure Draft where
  kind : RecordKind
  name : String
  fault? : Option CompileError
  size : Nat
deriving DecidableEq, Repr, Inhabited

/-- The draft of an animal. -/
def Animal.draft (a : Animal) : Draft := ⟨.animal, a.name, a.fault?, a.footprint⟩

/-- The draft of an instance. -/
def Instance.draft (g : Graph) (i : Instance) : Draft := ⟨.inst, i.name, i.fault? g, i.footprint⟩

/-- The draft of a world. -/
def World.draft (g : Graph) (w : World) : Draft := ⟨.world, w.name, w.fault? g, w.footprint⟩

/-- The drafts of all declarations, in the order in which their records are laid out. -/
def Graph.drafts (g : Graph) : List Draft :=
  g.animals.toList.map Animal.draft ++ g.instances.toList.map (·.draft g) ++
    g.worlds.toList.map (·.draft g)

namespace Draft

/-- The bytes that the records of drafts take together. -/
def room (ds : List Draft) : Nat := (ds.map (·.size)).sum

theorem room_append (ds es : List Draft) : room (ds ++ es) = room ds + room es := by
  rw [room, List.map_append, List.sum_append]
  rfl

theorem room_concat (ds : List Draft) (d : Draft) : room (ds ++ [d]) = room ds + d.size := by
  rw [room_append]
  rfl

/-- A draft repeats a name that came before among the drafts of its kind. -/
def Repeats (earlier : List Draft) (d : Draft) : Prop :=
  ∃ d' ∈ earlier, d'.kind = d.kind ∧ d'.name = d.name

instance (earlier : List Draft) (d : Draft) : Decidable (d.Repeats earlier) :=
  List.decidableBEx (fun d' : Draft => d'.kind = d.kind ∧ d'.name = d.name) earlier

/-- **A faulty position**: the record there cannot be encoded, or the records up to it do not fit, or its
name came before among those of its kind. -/
def Faulty (limit : Nat) (ds : List Draft) (n : Nat) : Prop :=
  ∃ d, ds[n]? = some d ∧ (d.fault? ≠ none ∨ limit < room (ds.take (n + 1)) ∨ d.Repeats (ds.take n))

/-- What is reported of a draft when the records up to it require so many bytes: that it cannot be
encoded, else that they do not fit, else that the name came before. -/
def cause (limit required : Nat) (d : Draft) : CompileError :=
  d.fault?.getD (if limit < required then .overflow required limit else .duplicateName d.kind d.name)

/-- What a layout stops with at a draft, if it stops there, after the drafts before it. -/
def error? (limit : Nat) (earlier : List Draft) (d : Draft) : Option CompileError :=
  if d.fault?.isSome ∨ limit < room (earlier ++ [d]) ∨ d.Repeats earlier then
    some (d.cause limit (room (earlier ++ [d])))
  else none

theorem error?_of_fault {limit : Nat} {earlier : List Draft} {d : Draft} {e : CompileError}
    (h : d.fault? = some e) : d.error? limit earlier = some e := by
  rw [error?, if_pos (.inl (by rw [h]; rfl)), cause, h, Option.getD_some]

theorem error?_of_encodable {limit : Nat} {earlier : List Draft} {d : Draft} (h : d.fault? = none) :
    d.error? limit earlier =
      if limit < room (earlier ++ [d]) then some (.overflow (room (earlier ++ [d])) limit)
      else if d.Repeats earlier then some (.duplicateName d.kind d.name) else none := by
  rw [error?, cause, h, Option.getD_none]
  by_cases hl : limit < room (earlier ++ [d])
  · simp [hl]
  · simp [hl]

/-- **A draft that passes under one limit can only be too large under another.** -/
theorem error?_of_passed {limit : Nat} {earlier : List Draft} {d : Draft}
    (h : d.error? limit earlier = none) (limit' : Nat) : d.error? limit' earlier =
      if limit' < room (earlier ++ [d]) then some (.overflow (room (earlier ++ [d])) limit') else none := by
  cases hfault : d.fault? with
  | some e =>
    rw [error?_of_fault hfault] at h
    cases h
  | none =>
    have hnew : ¬ d.Repeats earlier := by
      intro hrepeats
      rw [error?_of_encodable hfault, if_pos hrepeats] at h
      split at h <;> cases h
    rw [error?_of_encodable hfault, if_neg hnew]

/-- **A layout that gets to a position stops there exactly if it is faulty**, and with its cause. -/
theorem error?_eq_some_iff {limit n : Nat} {ds : List Draft} {d : Draft} {e : CompileError}
    (hd : ds[n]? = some d) : d.error? limit (ds.take n) = some e ↔
      Faulty limit ds n ∧ e = d.cause limit (room (ds.take (n + 1))) := by
  have htake : ds.take (n + 1) = ds.take n ++ [d] := by
    rw [List.take_add_one, hd, Option.toList_some]
  rw [error?, Option.ite_none_right_eq_some, Option.some.injEq, Option.isSome_iff_ne_none, ← htake,
    eq_comm (a := e)]
  refine and_congr_left fun _ => ⟨fun h => ⟨d, hd, h⟩, fun h => ?_⟩
  obtain ⟨d', hd', h⟩ := h
  rw [hd] at hd'
  cases hd'
  exact h

theorem error?_eq_none_iff {limit n : Nat} {ds : List Draft} {d : Draft} (hd : ds[n]? = some d) :
    d.error? limit (ds.take n) = none ↔ ¬ Faulty limit ds n := by
  rw [Option.eq_none_iff_forall_ne_some]
  constructor
  · intro h hfaulty
    exact h _ ((error?_eq_some_iff hd).mpr ⟨hfaulty, rfl⟩)
  · intro h e he
    exact h ((error?_eq_some_iff hd).mp he).1

/-- **A draft tells how an encoding turns out**: whether it fails and with what, and how long the record
is otherwise. -/
structure Describes (d : Draft) (outcome : Except CompileError Record) : Prop where
  error : ∀ e, outcome = .error e ↔ d.fault? = some e
  size : ∀ r, outcome = .ok r → r.bytes.size = d.size
  small : ∀ r, outcome = .ok r → r.bytes.size < 2 ^ 32

theorem Describes.len_eq {d : Draft} {outcome : Except CompileError Record} (h : d.Describes outcome)
    {r : Record} (hr : outcome = .ok r) : r.len.toNat = d.size := by
  rw [Record.toNat_len (h.small r hr), h.size r hr]

end Draft

namespace Graph

variable {g : Graph}

/-- The drafts take the bytes that the records take. -/
theorem room_drafts (g : Graph) : Draft.room g.drafts = g.footprint := by
  rw [drafts, Draft.room_append, Draft.room_append, Draft.room, Draft.room, Draft.room, List.map_map,
    List.map_map, List.map_map]
  rfl

/-- The drafts up to one of them take no more than all. -/
theorem room_le_footprint {ys zs : List Draft} {d : Draft} (h : g.drafts = ys ++ d :: zs) :
    Draft.room (ys ++ [d]) ≤ g.footprint := by
  have hroom : g.footprint = Draft.room (ys ++ [d]) + Draft.room zs := by
    rw [← g.room_drafts, h, List.append_cons, Draft.room_append]
  exact hroom ▸ Nat.le_add_right _ _

/-- The drafts of a kind have the names of the kind. -/
theorem names_drafts (g : Graph) (k : RecordKind) :
    (g.drafts.filter (·.kind = k)).map (·.name) = g.names k := by
  cases k <;> simp [drafts, Animal.draft, Instance.draft, World.draft, names, List.filter_map,
    Function.comp_def]

/-- The fault of a draft is that of its declaration. -/
theorem exists_fault? {d : Draft} (hd : d ∈ g.drafts) {e : CompileError} (he : d.fault? = some e) :
    ∃ k n, g.fault? k n = some e := by
  simp only [drafts, List.mem_append, List.mem_map] at hd
  rcases hd with (⟨a, ha, rfl⟩ | ⟨i, hi, rfl⟩) | ⟨w, hw, rfl⟩
  · obtain ⟨n, hn⟩ := Array.mem_iff_getElem?.mp (Array.mem_toList_iff.mp ha)
    exact ⟨.animal, n, by rw [fault?, hn]; exact he⟩
  · obtain ⟨n, hn⟩ := Array.mem_iff_getElem?.mp (Array.mem_toList_iff.mp hi)
    exact ⟨.inst, n, by rw [fault?, hn]; exact he⟩
  · obtain ⟨n, hn⟩ := Array.mem_iff_getElem?.mp (Array.mem_toList_iff.mp hw)
    exact ⟨.world, n, by rw [fault?, hn]; exact he⟩

end Graph

namespace Graph.Sized

variable {g : Graph} (hs : g.Sized)

include hs

theorem describes_animal {a : Animal} (ha : a ∈ g.animals) : a.draft.Describes (Record.ofAnimal a) :=
  ⟨fun _ => Record.ofAnimal_eq_error_iff, fun _ => Record.size_of_ofAnimal, hs.animals a ha⟩

theorem describes_inst {i : Instance} (hi : i ∈ g.instances) {d : Directory}
    (hd : d.keys = g.names .animal) : (i.draft g).Describes (Record.ofInst g d i) :=
  ⟨fun _ => Record.ofInst_eq_error_iff hd, fun _ => Record.size_of_ofInst, hs.instances i hi d⟩

theorem describes_world {w : World} (hw : w ∈ g.worlds) {d : Directory}
    (hd : d.keys = g.names .inst) : (w.draft g).Describes (Record.ofWorld g d w) :=
  ⟨fun _ => Record.ofWorld_eq_error_iff hd, fun _ => Record.size_of_ofWorld, hs.worlds w hw d⟩

end Graph.Sized

/-! ## 3. Passes -/

namespace Layout

/-- Why a pass stops at a declaration of a name, given what it is encoded to. -/
inductive Stops (limit : Nat) (kind : RecordKind) (p : Progress) (name : String) :
    Except CompileError Record → CompileError → Prop where
  | encoding {e : CompileError} : Stops limit kind p name (.error e) e
  | size {r : Record} (h : limit < p.next + r.len.toNat) :
      Stops limit kind p name (.ok r) (.overflow (p.next + r.len.toNat) limit)
  | taken {r : Record} (h : p.next + r.len.toNat ≤ limit) (hn : name ∈ p.names.keys) :
      Stops limit kind p name (.ok r) (.duplicateName kind name)

theorem place_eq_error_iff {limit index : Nat} {p : Progress} {name : String} {r : Record}
    {e : CompileError} : (place limit p name index r).result = .error e ↔
      Stops limit p.names.kind p name (.ok r) e := by
  by_cases hl : limit < p.next + r.len.toNat
  · have hplace : (place limit p name index r).result =
        .error (.overflow (p.next + r.len.toNat) limit) := by
      unfold place
      simp only
      rw [if_pos hl, Traced.result_fail]
    rw [hplace]
    constructor
    · intro h
      cases h
      exact .size hl
    · intro h
      cases h with
      | size => rfl
      | taken hle => omega
  · by_cases hn : name ∈ p.names.keys
    · have hplace : (place limit p name index r).result = .error (.duplicateName p.names.kind name) := by
        obtain ⟨o, ho⟩ := Directory.exists_get? hn
        unfold place
        simp only
        rw [if_neg hl, Directory.insert_of_taken ho]
        rfl
      rw [hplace]
      constructor
      · intro h
        cases h
        exact .taken (Nat.le_of_not_lt hl) hn
      · intro h
        cases h with
        | size hlt => exact absurd hlt hl
        | taken => rfl
    · obtain ⟨p', hp'⟩ := place_succeeds index (Nat.le_of_not_lt hl) hn
      rw [hp']
      constructor
      · intro h
        cases h
      · intro h
        cases h with
        | size hlt => exact absurd hlt hl
        | taken _ hn' => exact absurd hn' hn

section Pass

variable {α : Type} {limit : Nat} {kind : RecordKind} {name : α → String}
  {encode : α → Except CompileError Record} {e : CompileError}

/-- **A pass stops at a declaration** that cannot be encoded or placed. -/
theorem passStep_eq_error_iff {p : Progress} {x : α} {index : Nat} :
    (passStep limit name encode p (x, index)).result = .error e ↔
      Stops limit p.names.kind p (name x) (encode x) e := by
  rw [passStep, Traced.result_bind_eq_error_iff]
  show encode x = .error e ∨ (∃ r, encode x = .ok r ∧ _) ↔ _
  cases hx : encode x with
  | error e' =>
    constructor
    · intro h
      rcases h with h | ⟨r, hr, -⟩
      · cases h
        exact .encoding
      · cases hr
    · intro h
      cases h
      exact .inl rfl
  | ok r =>
    constructor
    · intro h
      rcases h with h | ⟨r', hr, h⟩
      · cases h
      · cases hr
        exact place_eq_error_iff.mp h
    · intro h
      exact .inr ⟨r, rfl, place_eq_error_iff.mpr h⟩

/-- A pass over the declarations of a kind, when the drafts `earlier` have been placed. -/
structure Progress.After (p : Progress) (kind : RecordKind) (earlier : List Draft) : Prop where
  kind_eq : p.names.kind = kind
  keys : ∀ name, name ∈ p.names.keys ↔ ∃ d ∈ earlier, d.kind = kind ∧ d.name = name
  next : p.next = Draft.room earlier

/-- **What stops a pass at a declaration is what its draft tells.** -/
theorem stops_iff {p : Progress} {earlier : List Draft} {d : Draft}
    {outcome : Except CompileError Record} (hp : p.After d.kind earlier) (hd : d.Describes outcome) :
    Stops limit d.kind p d.name outcome e ↔ d.error? limit earlier = some e := by
  cases outcome with
  | error e' =>
    have hfault : d.fault? = some e' := (hd.error e').mp rfl
    rw [Draft.error?_of_fault hfault]
    constructor
    · intro h
      cases h
      rfl
    · intro h
      cases h
      exact .encoding
  | ok r =>
    have hfault : d.fault? = none := Option.eq_none_iff_forall_ne_some.mpr fun e' he' => by
      cases (hd.error e').mpr he'
    have hroom : p.next + r.len.toNat = Draft.room (earlier ++ [d]) := by
      rw [hd.len_eq rfl, hp.next, Draft.room_concat]
    rw [Draft.error?_of_encodable hfault]
    by_cases hl : limit < Draft.room (earlier ++ [d])
    · rw [if_pos hl]
      constructor
      · intro h
        cases h with
        | size => rw [hroom]
        | taken hle => omega
      · intro h
        cases h
        rw [← hroom] at hl ⊢
        exact .size hl
    · rw [if_neg hl]
      by_cases hn : d.Repeats earlier
      · rw [if_pos hn]
        constructor
        · intro h
          cases h with
          | size hlt => omega
          | taken => rfl
        · intro h
          cases h
          exact .taken (by omega) ((hp.keys d.name).mpr hn)
      · rw [if_neg hn]
        constructor
        · intro h
          cases h with
          | size hlt => omega
          | taken _ hkey => exact absurd ((hp.keys d.name).mp hkey) hn
        · intro h
          cases h

/-- A record that is placed stands after its draft. -/
theorem Progress.After.place {p p' : Progress} {earlier : List Draft} {d : Draft} {r : Record} {index : Nat}
    (hp : p.After d.kind earlier) (hd : d.Describes (.ok r))
    (h : (place limit p d.name index r).result = .ok p') : p'.After d.kind (earlier ++ [d]) := by
  obtain ⟨hadd, -⟩ := place_adds h
  refine ⟨hadd.kind.trans hp.kind_eq, fun name => ?_, ?_⟩
  · rw [hadd.keys rfl, List.mem_append, hp.keys, List.mem_singleton]
    constructor
    · intro hname
      rcases hname with ⟨d', hd', hsame⟩ | rfl
      · exact ⟨d', List.mem_append_left _ hd', hsame⟩
      · exact ⟨d, List.mem_append_right _ List.mem_cons_self, rfl, rfl⟩
    · intro hname
      obtain ⟨d', hd', hsame⟩ := hname
      rcases List.mem_append.mp hd' with hd' | hd'
      · exact .inl ⟨d', hd', hsame⟩
      · rw [List.mem_singleton.mp hd'] at hsame
        exact .inr hsame.2.symm
  · rw [hadd.next, hp.next, Draft.room_concat, Placed.total_cons, Placed.total_nil, hd.len_eq rfl]
    rfl

/-- **One step of a pass**: it stops at a declaration with what its draft tells, and otherwise stands
after that draft too. -/
theorem passStep_stops {p : Progress} {earlier : List Draft} {d : Draft} {x : α} {index : Nat}
    (hp : p.After kind earlier) (hkind : d.kind = kind) (hname : d.name = name x)
    (hd : d.Describes (encode x)) :
    (passStep limit name encode p (x, index)).StopsAt (d.error? limit earlier).toList
      fun p' => p'.After kind (earlier ++ [d]) := by
  subst hkind
  refine ⟨fun e => ?_, fun p' h => ?_⟩
  · rw [passStep_eq_error_iff, hp.kind_eq, ← hname, stops_iff hp hd]
    cases d.error? limit earlier <;> rfl
  · obtain ⟨r, hr, hplace⟩ := passStep_eq_ok_iff.mp h
    rw [← hname] at hplace
    exact hp.place (hr ▸ hd) hplace

/-- **A pass stops at the first fault** that the drafts of its declarations show after the earlier ones,
and otherwise stands after all of them. -/
theorem foldl_stops (draft : α → Draft) (hkind : ∀ x, (draft x).kind = kind)
    (hname : ∀ x, (draft x).name = name x) {items : List α}
    (hd : ∀ x ∈ items, (draft x).Describes (encode x)) {p : Progress} {earlier : List Draft}
    (hp : p.After kind earlier) (index : Nat) :
    (Traced.foldl (passStep limit name encode) p (items.zipIdx index)).StopsAt
      (judged (Draft.error? limit) earlier (items.map draft))
      fun p' => p'.After kind (earlier ++ items.map draft) := by
  induction items generalizing p earlier index with
  | nil =>
    refine .pure ?_
    rwa [List.map_nil, List.append_nil]
  | cons x items ih =>
    obtain ⟨hx, hitems⟩ := List.forall_mem_cons.mp hd
    rw [List.zipIdx_cons, Traced.foldl_cons, List.map_cons, judged]
    refine (passStep_stops hp (hkind x) (hname x) hx).bind fun q _ hq => ?_
    have hrest := ih hitems hq (index + 1)
    rwa [List.append_assoc] at hrest

/-- A pass begins with no names, after the drafts of other kinds. -/
theorem pass_stops (draft : α → Draft) (hkind : ∀ x, (draft x).kind = kind)
    (hname : ∀ x, (draft x).name = name x) {items : List α}
    (hd : ∀ x ∈ items, (draft x).Describes (encode x)) {earlier : List Draft}
    (hnew : ∀ d ∈ earlier, d.kind ≠ kind) (records : Array Placed) {next : Nat}
    (hnext : next = Draft.room earlier) :
    (pass limit kind name encode items records next).StopsAt
      (judged (Draft.error? limit) earlier (items.map draft))
      fun p => p.next = Draft.room (earlier ++ items.map draft) := by
  have hstart : Progress.After ⟨Directory.empty kind, records, next⟩ kind earlier := by
    refine ⟨rfl, fun name => iff_of_false List.not_mem_nil fun hmem => ?_, hnext⟩
    obtain ⟨d, hmem, hk, -⟩ := hmem
    exact hnew d hmem hk
  rw [pass_eq]
  exact (foldl_stops draft hkind hname hd hstart 0).imp fun p hp => hp.next

end Pass

/-! ## 4. Layouts -/

variable {c : ImageConfig} {g : Graph} {e : CompileError}

/-- **A layout stops at the first fault of its drafts**, and otherwise takes the room of all of them. -/
theorem ofGraph_stops (c : ImageConfig) (hs : g.Sized) :
    (ofGraph c g).StopsAt (judged (Draft.error? c.limit) [] g.drafts)
      fun l => l.total = Draft.room g.drafts := by
  have hanimals : ∀ d ∈ g.animals.toList.map Animal.draft, d.kind = .animal :=
    List.forall_mem_map.mpr fun _ _ => rfl
  have hinsts : ∀ d ∈ g.instances.toList.map (Instance.draft g), d.kind = .inst :=
    List.forall_mem_map.mpr fun _ _ => rfl
  rw [Graph.drafts, judged_append, judged_append, List.nil_append, List.append_assoc, ofGraph]
  refine (pass_stops Animal.draft (fun _ => rfl) (fun _ => rfl)
    (fun a ha => hs.describes_animal (Array.mem_toList_iff.mp ha)) (List.forall_mem_nil _) #[]
    rfl).bind fun a ha hanext => ?_
  obtain ⟨as, -, hal, -, -, hac⟩ := pass_row (Nat.zero_le _) ha
  refine (pass_stops (Instance.draft g) (fun _ => rfl) (fun _ => rfl)
    (fun i hi => hs.describes_inst (Array.mem_toList_iff.mp hi) hal.keys)
    (fun d hd => ?_) a.records hanext).bind fun i hi hinext => ?_
  · rw [hanimals d hd]
    decide
  obtain ⟨is, -, hil, -⟩ := pass_row hac hi
  rw [← List.append_nil (judged _ _ (g.worlds.toList.map _))]
  refine (pass_stops (World.draft g) (fun _ => rfl) (fun _ => rfl)
    (fun w hw => hs.describes_world (Array.mem_toList_iff.mp hw) hil.keys)
    (fun d hd => ?_) i.records hinext).bind fun w _ hwnext => .pure hwnext
  rcases List.mem_append.mp hd with hd | hd
  · rw [hanimals d hd]
    decide
  · rw [hinsts d hd]
    decide

/-- A layout that fails stops at a draft. -/
theorem exists_draft_of_error (hs : g.Sized) (h : (ofGraph c g).result = .error e) :
    ∃ ys d zs, g.drafts = ys ++ d :: zs ∧ d.error? c.limit ys = some e :=
  mem_judged.mp (List.mem_of_mem_head? (((ofGraph_stops c hs).error e).mp h))

/-- A layout that succeeds passes every draft. -/
theorem error?_of_ok (hs : g.Sized) {l : Layout} (h : (ofGraph c g).result = .ok l) {ys zs : List Draft}
    {d : Draft} (hsplit : g.drafts = ys ++ d :: zs) : d.error? c.limit ys = none := by
  refine Option.eq_none_iff_forall_ne_some.mpr fun e he => ?_
  have hmem : e ∈ judged (Draft.error? c.limit) [] g.drafts := mem_judged.mpr ⟨ys, d, zs, hsplit, he⟩
  rw [(ofGraph_stops c hs).nil_of_ok h] at hmem
  exact List.not_mem_nil hmem

/-- **A layout reports the first fault.** The positions are those of the records: animals, then instances,
then worlds, each kind in the order of declaration. A layout fails exactly if some position is faulty, and
what it fails with is the cause at the least one. The drafts tell how the encodings turn out, against any
directory of the names referred to. -/
theorem first_fault_reported (hs : g.Sized) :
    ((∃ e, (ofGraph c g).result = .error e) ↔ ∃ n, Draft.Faulty c.limit g.drafts n) ∧
    (∀ e, (ofGraph c g).result = .error e ↔ ∃ n d, g.drafts[n]? = some d ∧
      Draft.Faulty c.limit g.drafts n ∧ (∀ m < n, ¬ Draft.Faulty c.limit g.drafts m) ∧
      e = d.cause c.limit (Draft.room (g.drafts.take (n + 1)))) ∧
    (∀ a ∈ g.animals, a.draft.Describes (Record.ofAnimal a)) ∧
    (∀ i ∈ g.instances, ∀ d : Directory, d.keys = g.names .animal →
      (i.draft g).Describes (Record.ofInst g d i)) ∧
    (∀ w ∈ g.worlds, ∀ d : Directory, d.keys = g.names .inst →
      (w.draft g).Describes (Record.ofWorld g d w)) := by
  have hfirst : ∀ e, (ofGraph c g).result = .error e ↔ ∃ n d, g.drafts[n]? = some d ∧
      Draft.Faulty c.limit g.drafts n ∧ (∀ m < n, ¬ Draft.Faulty c.limit g.drafts m) ∧
      e = d.cause c.limit (Draft.room (g.drafts.take (n + 1))) := by
    intro e
    rw [(ofGraph_stops c hs).error, head?_judged]
    refine exists_congr fun n => exists_congr fun d => and_congr_right fun hd => ?_
    have hbefore : (∀ m d', m < n → g.drafts[m]? = some d' →
        d'.error? c.limit (g.drafts.take m) = none) ↔ ∀ m < n, ¬ Draft.Faulty c.limit g.drafts m := by
      constructor
      · intro h m hm hfaulty
        obtain ⟨d', hd', hcause⟩ := hfaulty
        exact (Draft.error?_eq_none_iff hd').mp (h m d' hm hd') ⟨d', hd', hcause⟩
      · intro h m d' hm hd'
        exact (Draft.error?_eq_none_iff hd').mpr (h m hm)
    rw [List.nil_append, Draft.error?_eq_some_iff hd, and_assoc, and_comm (a := e = _)]
    simp only [List.nil_append, hbefore]
  refine ⟨⟨fun h => ?_, fun h => ?_⟩, hfirst, fun a => hs.describes_animal,
    fun i hi d => hs.describes_inst hi, fun w hw d => hs.describes_world hw⟩
  · obtain ⟨e, he⟩ := h
    obtain ⟨n, d, -, hfaulty, -⟩ := (hfirst e).mp he
    exact ⟨n, hfaulty⟩
  · classical
    obtain ⟨d, hd, hcause⟩ := Nat.find_spec h
    exact ⟨_, (hfirst _).mpr ⟨Nat.find h, d, hd, ⟨d, hd, hcause⟩, fun m => Nat.find_min h, rfl⟩⟩

/-- The second of two cats has a sound without bytes, there is no room for it, and its name is taken:
what is reported is the sound. -/
theorem second_cat_has_wide_sound : Sample.twinCats.Sized ∧
    (ofGraph { maxBytes := 30 } Sample.twinCats).result =
      .error (.unencodable .animal "cat" "sound" '☃') := by
  have hsized : Sample.twinCats.Sized := Graph.sized_of_footprints (by decide) (by decide) (by decide)
  refine ⟨hsized, ((first_fault_reported hsized).2.1 _).mpr ⟨1, _, rfl, ?_, ?_, ?_⟩⟩
  · exact ⟨_, rfl, by decide⟩
  · intro m hm hfaulty
    obtain rfl : m = 0 := by omega
    obtain ⟨d, hd, hcause⟩ := hfaulty
    cases hd
    revert hcause
    decide
  · decide

end Layout

end Menagerie
