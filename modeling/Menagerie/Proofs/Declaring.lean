import Mathlib.Algebra.Ring.Nat
import Mathlib.Data.Sigma.Basic
import Menagerie.Graph.Declaration
import Menagerie.Proofs.Reports

/-! # References outlive later declarations

A reference is the position of a declaration among those of its kind, taken before the declaration is
appended, as a word holds it. Declarations of all kinds come in any order, and each appends to one list
only:

* `Graph.declared` -- what a graph declares of a kind; `Graph.record?` looks a reference up in it;
* `Graph.declare_fst`, `Graph.declared_declare` -- **one declaration**: the reference returned is the
  number of declarations of its kind so far, and what was declared stays where it is;
* `Graph.getElem?_returned`, `Graph.declared_ofDeclarations` -- **a whole list of declarations**: what each
  returns depends on those before it, and what is declared of a kind are the declarations of that kind;
* `Graph.Grounded` -- every reference was returned before it is used; **nothing dangles then**;
* `Graph.references_stay_valid` -- all of this for the graph of any list of declarations, with a reference
  that leads back as long as a word can count what came before it.
-/

namespace Menagerie

/-! ## 1. Declarations and their references -/

namespace Declaration

/-- The kind of record that is declared; a transfer is not a record. -/
def kind? : Declaration → Option RecordKind
  | animal _ => some .animal
  | inst _ => some .inst
  | world _ => some .world
  | transfer _ => none

/-- The transfer that is declared. -/
def transfer? : Declaration → Option Transfer
  | transfer t => some t
  | _ => none

theorem eq_of_transfer? {d : Declaration} {t : Transfer} (h : d.transfer? = some t) :
    d = transfer t := by
  cases d with
  | transfer _ => exact congrArg transfer (Option.some.inj h)
  | _ => cases h

/-- Whether a record of a kind is declared. -/
def adds (k : RecordKind) (d : Declaration) : Bool := d.kind? == some k

/-- The references that a declaration makes. -/
def references : Declaration → List ((k : RecordKind) × Ref k)
  | animal _ => []
  | inst i => [⟨.animal, i.species⟩]
  | world w => w.contains.map (Sigma.mk .inst)
  | transfer t => [⟨.inst, t.subject⟩, ⟨.world, t.destination⟩]

end Declaration

namespace Graph

/-- What the graph declares of a kind, in order. -/
def declared (g : Graph) : RecordKind → List Declaration
  | .animal => g.animals.toList.map .animal
  | .inst => g.instances.toList.map .inst
  | .world => g.worlds.toList.map .world

/-- The declaration that a reference names. -/
def record? (g : Graph) : (k : RecordKind) × Ref k → Option Declaration
  | ⟨.animal, r⟩ => (g.animal? r).map .animal
  | ⟨.inst, r⟩ => (g.inst? r).map .inst
  | ⟨.world, r⟩ => (g.world? r).map .world

/-- A reference is a position among what is declared of its kind. -/
theorem record?_eq_getElem? (g : Graph) {k : RecordKind} (r : Ref k) :
    g.record? ⟨k, r⟩ = (g.declared k)[r.index]? := by
  cases k <;> simp [record?, declared, animal?, inst?, world?]

/-! ## 2. One declaration -/

/-- **The reference returned counts the declarations of its kind so far.** -/
theorem declare_fst (g : Graph) (d : Declaration) :
    (g.declare d).1 = d.kind?.map fun k => ⟨k, .ofNat (g.declared k).length⟩ := by
  cases d <;> simp [declare, addAnimal, addInst, addWorld, Declaration.kind?, declared]

/-- **A declaration is appended to those of its kind**, and the other kinds stay as they are. -/
theorem declared_declare (g : Graph) (d : Declaration) (k : RecordKind) :
    (g.declare d).2.declared k = g.declared k ++ [d].filter (Declaration.adds k) := by
  cases d <;> cases k <;>
    simp [declare, addAnimal, addInst, addWorld, addTransfer, declared, Declaration.adds,
      Declaration.kind?]

theorem transfers_declare (g : Graph) (d : Declaration) :
    (g.declare d).2.transfers.toList = g.transfers.toList ++ [d].filterMap Declaration.transfer? := by
  cases d <;> simp [declare, addAnimal, addInst, addWorld, addTransfer, Declaration.transfer?]

/-! ## 3. Many declarations -/

theorem declareAll_cons (g : Graph) (d : Declaration) (ds : List Declaration) :
    g.declareAll (d :: ds) =
      ((g.declare d).1 :: ((g.declare d).2.declareAll ds).1, ((g.declare d).2.declareAll ds).2) := rfl

theorem declared_declareAll (g : Graph) (ds : List Declaration) (k : RecordKind) :
    (g.declareAll ds).2.declared k = g.declared k ++ ds.filter (Declaration.adds k) := by
  induction ds generalizing g with
  | nil => rw [declareAll, List.filter_nil, List.append_nil]
  | cons d ds ih =>
    rw [declareAll_cons, ih, declared_declare, List.append_assoc, ← List.filter_append,
      List.singleton_append]

theorem transfers_declareAll (g : Graph) (ds : List Declaration) :
    (g.declareAll ds).2.transfers.toList =
      g.transfers.toList ++ ds.filterMap Declaration.transfer? := by
  induction ds generalizing g with
  | nil => rw [declareAll, List.filterMap_nil, List.append_nil]
  | cons d ds ih =>
    rw [declareAll_cons, ih, transfers_declare, List.append_assoc, ← List.filterMap_append,
      List.singleton_append]

/-- What a declaration returns depends on the declarations before it alone. -/
theorem getElem?_declareAll (g : Graph) (before : List Declaration) (d : Declaration)
    (after : List Declaration) :
    (g.declareAll (before ++ d :: after)).1[before.length]? = some (d.kind?.map fun k =>
      ⟨k, .ofNat ((g.declared k).length + before.countP (Declaration.adds k))⟩) := by
  induction before generalizing g with
  | nil => rw [List.nil_append, declareAll_cons, declare_fst]; rfl
  | cons b before ih =>
    rw [List.cons_append, declareAll_cons, List.length_cons, List.getElem?_cons_succ, ih]
    simp only [declared_declare, List.length_append, ← List.countP_eq_length_filter, Nat.add_assoc,
      ← List.countP_append, List.singleton_append]

theorem length_declareAll (g : Graph) (ds : List Declaration) :
    (g.declareAll ds).1.length = ds.length := by
  induction ds generalizing g with
  | nil => rfl
  | cons d ds ih => rw [declareAll_cons, List.length_cons, ih, List.length_cons]

/-! ## 4. Graphs of declarations -/

/-- The references returned for a list of declarations, one place for each of them. -/
def returned (ds : List Declaration) : List (Option ((k : RecordKind) × Ref k)) :=
  (({} : Graph).declareAll ds).1

theorem declared_ofDeclarations (ds : List Declaration) (k : RecordKind) :
    (ofDeclarations ds).declared k = ds.filter (Declaration.adds k) := by
  rw [ofDeclarations, declared_declareAll]
  cases k <;> rfl

theorem transfers_ofDeclarations (ds : List Declaration) :
    (ofDeclarations ds).transfers.toList = ds.filterMap Declaration.transfer? :=
  transfers_declareAll {} ds

theorem getElem?_returned (before : List Declaration) (d : Declaration) (after : List Declaration) :
    (returned (before ++ d :: after))[before.length]? =
      some (d.kind?.map fun k => ⟨k, .ofNat (before.countP (Declaration.adds k))⟩) := by
  have hnone : ∀ k, (({} : Graph).declared k).length = 0 := by
    intro k
    cases k <;> rfl
  rw [returned, getElem?_declareAll]
  simp only [hnone, Nat.zero_add]

/-- **The position of a declaration keeps naming it**, whatever is declared after it. -/
theorem getElem?_declared (before : List Declaration) {d : Declaration} {k : RecordKind}
    (hk : d.kind? = some k) (after : List Declaration) :
    ((ofDeclarations (before ++ d :: after)).declared k)[before.countP (Declaration.adds k)]? =
      some d := by
  have hadds : Declaration.adds k d = true := by rw [Declaration.adds, hk, beq_self_eq_true]
  rw [declared_ofDeclarations, List.filter_append, List.filter_cons_of_pos hadds,
    List.countP_eq_length_filter, List.getElem?_append_right (Nat.le_refl _), Nat.sub_self,
    List.getElem?_cons_zero]

/-- **Every reference returned names a declaration**, even where a word cannot count the declarations: the
position is then reduced, and does not get beyond them. -/
theorem exists_record?_of_returned {ds : List Declaration} {r : (k : RecordKind) × Ref k}
    (h : some r ∈ returned ds) : ∃ d, (ofDeclarations ds).record? r = some d := by
  obtain ⟨n, hn, hr⟩ := List.mem_iff_getElem.mp h
  have hlt : n < ds.length := by
    rw [← length_declareAll {} ds]
    exact hn
  have hsplit : ds.take n ++ ds[n] :: ds.drop (n + 1) = ds := by simp
  have hplace := getElem?_returned (ds.take n) ds[n] (ds.drop (n + 1))
  rw [hsplit, List.length_take_of_le (Nat.le_of_lt hlt), List.getElem?_eq_getElem hn, hr] at hplace
  obtain ⟨k, hk, rfl⟩ := Option.map_eq_some_iff.mp (Option.some.inj hplace).symm
  have hfound := getElem?_declared (ds.take n) hk (ds.drop (n + 1))
  rw [hsplit] at hfound
  rw [record?_eq_getElem?]
  exact ⟨_, List.getElem?_eq_getElem (Ref.index_ofNat_lt (List.getElem?_eq_some_iff.mp hfound).1)⟩

/-! ## 5. References that were returned before -/

/-- **Every reference of a declaration was returned by an earlier one.** -/
def Grounded (ds : List Declaration) : Prop :=
  ∀ n (hn : n < ds.length), ∀ r ∈ ds[n].references, some r ∈ (returned ds).take n

instance (ds : List Declaration) : Decidable (Grounded ds) :=
  inferInstanceAs (Decidable (∀ n (hn : n < ds.length), ∀ r ∈ ds[n].references,
    some r ∈ (returned ds).take n))

section Grounded

variable {ds : List Declaration} (h : Grounded ds)

include h

theorem Grounded.exists_record? {d : Declaration} (hd : d ∈ ds) {r : (k : RecordKind) × Ref k}
    (hr : r ∈ d.references) : ∃ d', (ofDeclarations ds).record? r = some d' := by
  obtain ⟨n, hn, rfl⟩ := List.mem_iff_getElem.mp hd
  exact exists_record?_of_returned (List.mem_of_mem_take (h n hn r hr))

theorem Grounded.species {i : Instance} (hi : i ∈ (ofDeclarations ds).instances) :
    ∃ a, (ofDeclarations ds).animal? i.species = some a := by
  have hd : .inst i ∈ (ofDeclarations ds).declared .inst :=
    List.mem_map.mpr ⟨i, Array.mem_toList_iff.mpr hi, rfl⟩
  rw [declared_ofDeclarations] at hd
  obtain ⟨d, hd⟩ := h.exists_record? (List.mem_of_mem_filter hd) (r := ⟨.animal, i.species⟩)
    List.mem_cons_self
  obtain ⟨a, ha, -⟩ := Option.map_eq_some_iff.mp hd
  exact ⟨a, ha⟩

theorem Grounded.member {w : World} (hw : w ∈ (ofDeclarations ds).worlds) {r : Ref .inst}
    (hr : r ∈ w.contains) : ∃ i, (ofDeclarations ds).inst? r = some i := by
  have hd : .world w ∈ (ofDeclarations ds).declared .world :=
    List.mem_map.mpr ⟨w, Array.mem_toList_iff.mpr hw, rfl⟩
  rw [declared_ofDeclarations] at hd
  obtain ⟨d, hd⟩ := h.exists_record? (List.mem_of_mem_filter hd) (r := ⟨.inst, r⟩)
    (List.mem_map.mpr ⟨r, hr, rfl⟩)
  obtain ⟨i, hi, -⟩ := Option.map_eq_some_iff.mp hd
  exact ⟨i, hi⟩

theorem Grounded.not_dangling {t : Transfer} (ht : t ∈ (ofDeclarations ds).transfers)
    (side : TransferEnd) : ¬ (ofDeclarations ds).Dangling t side := by
  rw [← Array.mem_toList_iff, transfers_ofDeclarations] at ht
  obtain ⟨d, hd, ht⟩ := List.mem_filterMap.mp ht
  obtain rfl := Declaration.eq_of_transfer? ht
  intro hnone
  cases side with
  | subject =>
    obtain ⟨d', hd'⟩ := h.exists_record? hd (r := ⟨.inst, t.subject⟩) List.mem_cons_self
    rw [record?, show (ofDeclarations ds).inst? t.subject = none from hnone] at hd'
    cases hd'
  | destination =>
    obtain ⟨d', hd'⟩ := h.exists_record? hd (r := ⟨.world, t.destination⟩)
      (List.mem_cons_of_mem _ List.mem_cons_self)
    rw [record?, show (ofDeclarations ds).world? t.destination = none from hnone] at hd'
    cases hd'

/-- **Nothing dangles**: only names and instances listed again can be reported. -/
theorem Grounded.violation_cases {v : Violation} (hv : v ∈ (ofDeclarations ds).violations) :
    (∃ k name, v = .duplicateName k name) ∨ v.Placement := by
  rcases Graph.violation_cases hv with hname | ⟨i, hi, hnone, -⟩ | ⟨ys, l, zs, hsplit, hl⟩ |
    ⟨t, n, side, ht, hside, -⟩
  · exact .inl hname
  · obtain ⟨a, ha⟩ := h.species hi
    rw [ha] at hnone
    cases hnone
  · have hmem : l.member ∈ (ofDeclarations ds).members := by
      rw [← map_member_listings, hsplit]
      exact List.mem_map.mpr ⟨l, List.mem_append_right ys List.mem_cons_self, rfl⟩
    obtain ⟨w, hw, hr⟩ := List.mem_flatMap.mp hmem
    obtain ⟨i, hi⟩ := h.member (Array.mem_toList_iff.mp hw) hr
    rw [listingFault?, hi] at hl
    obtain ⟨first, -, rfl⟩ := Option.map_eq_some_iff.mp hl
    exact .inr ⟨_, _, _, rfl⟩
  · exact absurd hside (h.not_dangling (Array.mem_of_getElem? ht) side)

end Grounded

/-- **References stay valid.** A declaration that fewer than `2 ^ 32` declarations of its kind come before
returns a reference to their number, and the graph has the declaration there, whatever is declared
afterwards; a transfer returns nothing, and the graph has the transfers in the order of declaration. If
every reference was returned before it is used, then no species, no entry of a world's list and no end of a
transfer is reported to be unknown, however many declarations there are. -/
theorem references_stay_valid (ds : List Declaration) :
    (returned ds).length = ds.length ∧
    (∀ before d after, ds = before ++ d :: after →
      (d.kind? = none → (returned ds)[before.length]? = some none) ∧
      ∀ k, d.kind? = some k → before.countP (Declaration.adds k) < 2 ^ 32 →
        ∃ r : Ref k, (returned ds)[before.length]? = some (some ⟨k, r⟩) ∧
          r.index = before.countP (Declaration.adds k) ∧
          (ofDeclarations ds).record? ⟨k, r⟩ = some d) ∧
    (ofDeclarations ds).transfers.toList = ds.filterMap Declaration.transfer? ∧
    (Grounded ds → ∀ v ∈ (ofDeclarations ds).violations,
      (∀ inst, v ≠ .unknownSpecies inst) ∧ (∀ world position, v ≠ .unknownInstance world position) ∧
      ∀ position side, v ≠ .unknownTransferTarget position side) := by
  refine ⟨length_declareAll _ _, fun before d after hds => ?_, transfers_ofDeclarations ds,
    fun h v hv => ?_⟩
  · have hreturned := getElem?_returned before d after
    rw [← hds] at hreturned
    refine ⟨fun hk => by rw [hreturned, hk, Option.map_none], fun k hk hlt => ?_⟩
    rw [hk, Option.map_some] at hreturned
    have hindex := Ref.index_ofNat (k := k) hlt
    refine ⟨_, hreturned, hindex, ?_⟩
    rw [record?_eq_getElem?, hindex, hds]
    exact getElem?_declared before hk after
  · rcases h.violation_cases hv with ⟨k, name, rfl⟩ | ⟨inst, first, second, rfl⟩
    · refine ⟨fun _ he => ?_, fun _ _ he => ?_, fun _ _ he => ?_⟩ <;> cases he
    · refine ⟨fun _ he => ?_, fun _ _ he => ?_, fun _ _ he => ?_⟩ <;> cases he

/-- Two animals and two instances, each used after it was declared, with a world in between. -/
theorem rex_stays_a_dog : ∃ ds : List Declaration,
    ds = [.animal ⟨"cat", "G1", "meow"⟩, .inst ⟨"tom", ⟨0⟩⟩, .world ⟨"house", [⟨0⟩]⟩,
      .animal ⟨"dog", "G2", "woof"⟩, .inst ⟨"rex", ⟨1⟩⟩, .transfer ⟨⟨1⟩, ⟨0⟩⟩] ∧
    (ds.take 4).countP (Declaration.adds .inst) < 2 ^ 32 ∧
    (returned ds)[4]? = some (some ⟨.inst, ⟨1⟩⟩) ∧
    (ofDeclarations ds).record? ⟨.inst, ⟨1⟩⟩ = some (.inst ⟨"rex", ⟨1⟩⟩) ∧
    Grounded ds ∧ ∀ v ∈ (ofDeclarations ds).violations, ∀ inst, v ≠ .unknownSpecies inst := by
  obtain ⟨ds, hds⟩ : ∃ ds : List Declaration, ds = [.animal ⟨"cat", "G1", "meow"⟩,
    .inst ⟨"tom", ⟨0⟩⟩, .world ⟨"house", [⟨0⟩]⟩, .animal ⟨"dog", "G2", "woof"⟩,
    .inst ⟨"rex", ⟨1⟩⟩, .transfer ⟨⟨1⟩, ⟨0⟩⟩] := ⟨_, rfl⟩
  have hgrounded : Grounded ds := by
    rw [hds]
    decide +kernel
  have hcount : (ds.take 4).countP (Declaration.adds .inst) = 1 := by
    rw [hds]
    decide +kernel
  have hfew : (ds.take 4).countP (Declaration.adds .inst) < 2 ^ 32 := by
    rw [hcount]
    decide
  obtain ⟨-, hkept, -, hfaults⟩ := references_stay_valid ds
  have hrex := (hkept (ds.take 4) (.inst ⟨"rex", ⟨1⟩⟩) (ds.drop 5) (by rw [hds]; rfl)).2 .inst rfl hfew
  have hfour : (ds.take 4).length = 4 := by
    rw [hds]
    rfl
  obtain ⟨r, hplace, hindex, hfound⟩ := hrex
  obtain rfl : r = ⟨1⟩ := Ref.index_inj.mp (hindex.trans hcount)
  rw [hfour] at hplace
  exact ⟨ds, hds, hfew, hplace, hfound, hgrounded, fun v hv => (hfaults hgrounded v hv).1⟩

end Graph

end Menagerie
