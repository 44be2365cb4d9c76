import Mathlib.Data.List.Nodup
import Menagerie.Graph.Violation

/-! # What a graph without faults is

* `Fresh` -- keys that come once each, and have not come before. Walks over the worlds' lists keep a
  map of what came before; **one step of such a walk is `fresh_cons`**;
* `Graph.WellFormed` -- names that differ, references in range and, if asked for, no instance listed
  twice;
* `Graph.wellFormed_iff` -- **a graph is well formed exactly when it has no fault but instances listed
  again, and none at all if these are refused**.
-/

namespace Menagerie

/-! ## 1. Names -/

/-- The names declared for a kind, in order. -/
def Graph.names (g : Graph) : RecordKind → List String
  | .animal => g.animals.toList.map (·.name)
  | .inst => g.instances.toList.map (·.name)
  | .world => g.worlds.toList.map (·.name)

theorem Graph.getElem?_names (g : Graph) (k : RecordKind) (n : Nat) :
    (g.names k)[n]? = g.name? k n := by
  cases k <;> simp [names, name?]

section Names

variable {g : Graph} {n : Nat}

theorem Graph.name?_animal {a : Animal} (h : g.animals[n]? = some a) :
    g.name? .animal n = some a.name :=
  congrArg (Option.map Animal.name) h

theorem Graph.name?_inst {i : Instance} (h : g.instances[n]? = some i) :
    g.name? .inst n = some i.name :=
  congrArg (Option.map Instance.name) h

theorem Graph.name?_world {w : World} (h : g.worlds[n]? = some w) : g.name? .world n = some w.name :=
  congrArg (Option.map World.name) h

end Names

theorem Ref.index_injective {k : RecordKind} : Function.Injective (Ref.index : Ref k → Nat) :=
  fun _ _ => index_inj.mp

/-! ## 2. Keys that come once -/

/-- No key of the list comes twice, and none is in the map. -/
def Fresh (seen : Std.TreeMap Nat String) (keys : List Nat) : Prop :=
  keys.Nodup ∧ ∀ k ∈ keys, seen[k]? = none

theorem fresh_nil (seen : Std.TreeMap Nat String) : Fresh seen [] :=
  ⟨List.nodup_nil, fun _ hk => absurd hk List.not_mem_nil⟩

theorem fresh_empty {keys : List Nat} : Fresh ∅ keys ↔ keys.Nodup :=
  ⟨fun h => h.1, fun h => ⟨h, fun _ _ => Std.TreeMap.getElem?_emptyc⟩⟩

theorem getElem?_insert_key (seen : Std.TreeMap Nat String) (k k' : Nat) (name : String) :
    (seen.insert k name)[k']? = if k = k' then some name else seen[k']? := by
  rw [Std.TreeMap.getElem?_insert]
  by_cases hk : k = k'
  · rw [hk, if_pos rfl, if_pos Std.ReflCmp.compare_self]
  · rw [if_neg hk, if_neg fun hc => hk (Std.LawfulEqCmp.eq_of_compare hc)]

/-- **One step of a walk**: the first key is new, and the others are with it in the map. -/
theorem fresh_cons {seen : Std.TreeMap Nat String} {k : Nat} {keys : List Nat} (name : String) :
    Fresh seen (k :: keys) ↔ seen[k]? = none ∧ Fresh (seen.insert k name) keys := by
  have hstep : ∀ k', (seen.insert k name)[k']? = none ↔ k' ≠ k ∧ seen[k']? = none := by
    intro k'
    rw [getElem?_insert_key]
    by_cases hk : k = k'
    · simp [hk]
    · simp [hk, Ne.symm hk]
  unfold Fresh
  rw [List.nodup_cons, List.forall_mem_cons]
  constructor
  · intro ⟨⟨hnew, hkeys⟩, hk, hseen⟩
    refine ⟨hk, hkeys, fun k' hk' => (hstep k').mpr ⟨?_, hseen k' hk'⟩⟩
    intro he
    exact hnew (he ▸ hk')
  · intro ⟨hk, hkeys, hseen⟩
    refine ⟨⟨fun hmem => ?_, hkeys⟩, hk, fun k' hk' => ((hstep k').mp (hseen k' hk')).2⟩
    exact ((hstep k).mp (hseen k hmem)).1 rfl

/-! ## 3. The faults of each kind -/

/-- An instance that is listed again. -/
def Violation.Placement (v : Violation) : Prop :=
  ∃ inst first second, v = .duplicatePlacement inst first second

/-- A fault that does not stop a build: an instance listed again, if the configuration is not
strict. -/
def Violation.Tolerated (strict : Bool) (v : Violation) : Prop :=
  strict = false ∧ v.Placement

namespace Graph

variable {g : Graph} {strict : Bool}

theorem repeatedNames_tolerated {kind : RecordKind} {seen : Std.TreeSet String} {ns : List String} :
    (∀ v ∈ repeatedNames kind seen ns, v.Tolerated strict) ↔
      ns.Nodup ∧ ∀ n ∈ ns, n ∉ seen := by
  induction ns generalizing seen with
  | nil => simp [repeatedNames]
  | cons n ns ih =>
    rw [repeatedNames, List.nodup_cons, List.forall_mem_cons]
    split
    · rename_i hn
      constructor
      · intro h
        obtain ⟨-, _, _, _, hv⟩ := h _ List.mem_cons_self
        cases hv
      · intro ⟨_, hnew, _⟩
        exact absurd (Std.TreeSet.mem_iff_contains.mpr hn) hnew
    · rename_i hn
      rw [ih]
      constructor
      · intro ⟨hns, hseen⟩
        refine ⟨⟨fun hmem => ?_, hns⟩, fun hmem => hn (Std.TreeSet.mem_iff_contains.mp hmem),
          fun m hm hmem => ?_⟩
        · exact hseen n hmem (Std.TreeSet.mem_insert_self)
        · exact hseen m hm (Std.TreeSet.mem_insert.mpr (.inr hmem))
      · intro ⟨⟨hnot, hns⟩, _, hseen⟩
        refine ⟨hns, fun m hm hmem => ?_⟩
        rcases Std.TreeSet.mem_insert.mp hmem with he | hmem
        · rw [← Std.LawfulEqCmp.eq_of_compare he] at hm
          exact hnot hm
        · exact hseen m hm hmem

theorem speciesFaults_tolerated :
    (∀ v ∈ g.speciesFaults, v.Tolerated strict) ↔
      ∀ i ∈ g.instances, ∃ a, g.animal? i.species = some a := by
  unfold speciesFaults
  constructor
  · intro h i hi
    cases ha : g.animal? i.species with
    | some a => exact ⟨a, rfl⟩
    | none =>
      obtain ⟨-, _, _, _, hv⟩ := h (.unknownSpecies i.name)
        (List.mem_filterMap.mpr ⟨i, Array.mem_toList_iff.mpr hi, by rw [ha]⟩)
      cases hv
  · intro h v hv
    obtain ⟨i, hi, hv⟩ := List.mem_filterMap.mp hv
    obtain ⟨a, ha⟩ := h i (Array.mem_toList_iff.mp hi)
    rw [ha] at hv
    cases hv

/-- **The faults of the lists**: all entries are in range and, under a strict configuration, no
instance is listed twice. -/
theorem listingFaults_tolerated {first : Std.TreeMap Nat String} {ls : List Listing} :
    (∀ v ∈ g.listingFaults first ls, v.Tolerated strict) ↔
      (∀ l ∈ ls, ∃ i, g.inst? l.member = some i) ∧
        (strict = true → Fresh first (ls.map (·.member.index))) := by
  induction ls generalizing first with
  | nil => simp [listingFaults, fresh_nil]
  | cons l ls ih =>
    rw [listingFaults, List.forall_mem_cons, List.map_cons]
    cases hi : g.inst? l.member with
    | none =>
      constructor
      · intro h
        obtain ⟨-, _, _, _, hv⟩ := h _ List.mem_cons_self
        cases hv
      · intro ⟨⟨⟨i, hi'⟩, _⟩, _⟩
        cases hi'
    | some i =>
      cases hw : first[l.member.index]? with
      | some w =>
        simp only [List.forall_mem_cons, ih]
        constructor
        · intro ⟨hv, hls, _⟩
          refine ⟨⟨⟨i, rfl⟩, hls⟩, fun hs => ?_⟩
          rw [hv.1] at hs
          cases hs
        · intro ⟨⟨_, hls⟩, hfresh⟩
          -- listed before, so the configuration cannot be strict
          have hs : strict = false := by
            cases strict with
            | false => rfl
            | true =>
              rw [((fresh_cons l.world).mp (hfresh rfl)).1] at hw
              cases hw
          subst hs
          exact ⟨⟨rfl, _, _, _, rfl⟩, hls, fun hs => absurd hs Bool.false_ne_true⟩
      | none =>
        simp only [ih, fresh_cons l.world, hw, true_and]
        constructor
        · intro ⟨hls, hfresh⟩
          exact ⟨⟨⟨i, rfl⟩, hls⟩, hfresh⟩
        · intro ⟨⟨_, hls⟩, hfresh⟩
          exact ⟨hls, hfresh⟩

theorem transferFaults_tolerated {t : Transfer} {position : Nat} :
    (∀ v ∈ g.transferFaults t position, v.Tolerated strict) ↔
      (∃ i, g.inst? t.subject = some i) ∧ ∃ w, g.world? t.destination = some w := by
  have hside : ∀ side, ¬ (Violation.unknownTransferTarget position side).Tolerated strict := by
    intro side ⟨_, _, _, _, hv⟩
    cases hv
  unfold transferFaults
  cases hi : g.inst? t.subject <;> cases hw : g.world? t.destination <;> simp [hside]

/-! ## 4. Well-formed graphs -/

/-- All instances listed, worlds in order and entries in order. -/
def members (g : Graph) : List (Ref .inst) := g.worlds.toList.flatMap (·.contains)

theorem map_member_listings (g : Graph) : g.listings.map (·.member) = g.members := by
  rw [listings, members, List.map_flatMap]
  refine congrArg (g.worlds.toList.flatMap ·) (funext fun w => ?_)
  rw [List.map_map]
  exact List.zipIdx_map_fst 0 w.contains

theorem nodup_index_listings (g : Graph) :
    (g.listings.map (·.member.index)).Nodup ↔ g.members.Nodup := by
  rw [← List.nodup_map_iff Ref.index_injective, ← map_member_listings, List.map_map]
  rfl

/-- Names differ within each kind, references are in range and, if `strict`, no instance is listed
twice. -/
structure WellFormed (strict : Bool) (g : Graph) : Prop where
  names : ∀ k, (g.names k).Nodup
  species : ∀ i ∈ g.instances, ∃ a, g.animal? i.species = some a
  members : ∀ r ∈ g.members, ∃ i, g.inst? r = some i
  subjects : ∀ t ∈ g.transfers, ∃ i, g.inst? t.subject = some i
  destinations : ∀ t ∈ g.transfers, ∃ w, g.world? t.destination = some w
  listedOnce : strict = true → g.members.Nodup

theorem violations_tolerated :
    (∀ v ∈ g.violations, v.Tolerated strict) ↔ g.WellFormed strict := by
  have hnames : ∀ (kind : RecordKind) (ns : List String),
      (∀ v ∈ repeatedNames kind ∅ ns, v.Tolerated strict) ↔ ns.Nodup := by
    intro kind ns
    rw [repeatedNames_tolerated]
    simp
  have hlistings : (∀ v ∈ g.listingFaults ∅ g.listings, v.Tolerated strict) ↔
      (∀ r ∈ g.members, ∃ i, g.inst? r = some i) ∧ (strict = true → g.members.Nodup) := by
    rw [listingFaults_tolerated, fresh_empty, nodup_index_listings, ← map_member_listings]
    simp only [List.forall_mem_map]
  have htransfers : (∀ v ∈ g.transfers.toList.zipIdx.flatMap (fun x => g.transferFaults x.1 x.2),
      v.Tolerated strict) ↔
      ∀ t ∈ g.transfers, (∃ i, g.inst? t.subject = some i) ∧
        ∃ w, g.world? t.destination = some w := by
    constructor
    · intro h t ht
      obtain ⟨n, hn⟩ := List.mem_iff_getElem?.mp (Array.mem_toList_iff.mpr ht)
      have hz : (t, n) ∈ g.transfers.toList.zipIdx := List.mem_zipIdx_iff_getElem?.mpr hn
      exact transferFaults_tolerated.mp fun v hv => h v (List.mem_flatMap.mpr ⟨_, hz, hv⟩)
    · intro h v hv
      obtain ⟨⟨t, n⟩, hz, hv⟩ := List.mem_flatMap.mp hv
      have ht : t ∈ g.transfers := Array.mem_toList_iff.mp (List.mem_of_getElem?
        (List.mem_zipIdx_iff_getElem?.mp hz))
      exact transferFaults_tolerated.mpr (h t ht) v hv
  simp only [violations, List.forall_mem_append, hnames, hlistings, htransfers,
    speciesFaults_tolerated]
  constructor
  · intro h
    obtain ⟨⟨⟨⟨⟨ha, hi⟩, hw⟩, hs⟩, ⟨hm, ho⟩⟩, ht⟩ := h
    refine ⟨fun k => ?_, hs, hm, fun t h => (ht t h).1, fun t h => (ht t h).2, ho⟩
    cases k with
    | animal => exact ha
    | inst => exact hi
    | world => exact hw
  · intro h
    exact ⟨⟨⟨⟨⟨h.names .animal, h.names .inst⟩, h.names .world⟩, h.species⟩, h.members, h.listedOnce⟩,
      fun t ht => ⟨h.subjects t ht, h.destinations t ht⟩⟩

/-- **A graph is well formed exactly when its only faults are instances listed again**, and it has no
fault at all if these are refused. -/
theorem wellFormed_iff :
    g.WellFormed strict ↔ (∀ v ∈ g.violations, v.Placement) ∧ (strict = true → g.violations = []) := by
  rw [← violations_tolerated]
  constructor
  · intro h
    refine ⟨fun v hv => (h v hv).2, fun hs => List.eq_nil_iff_forall_not_mem.mpr fun v hv => ?_⟩
    rw [(h v hv).1] at hs
    cases hs
  · intro ⟨hplace, hnone⟩ v hv
    refine ⟨?_, hplace v hv⟩
    cases strict with
    | false => rfl
    | true =>
      rw [hnone rfl] at hv
      exact absurd hv List.not_mem_nil

end Graph

end Menagerie
