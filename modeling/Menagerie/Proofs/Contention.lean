import Menagerie.Graph.Sample
import Menagerie.Proofs.Refusals

/-! # Instances that are listed again

Two walks look for instances that are listed again. The one behind `Graph.violations` knows instances
by their numbers and remembers the world that listed them first; settling knows them by their offsets
and remembers the world that listed them last.

* `Graph.again?` -- an entry whose instance an earlier entry lists, said without either memory;
* `Graph.again_of_violations` -- **the faults are the entries listed again**, in order;
* `Image.again_of_settling` -- **the warnings of a settling are the same entries**, in the same order;
* `Image.placement_reports_agree` -- a strict build fails with the first of the faults, and any other
  build succeeds and warns once for each of them.
-/

namespace Menagerie

/-! ## 1. Faults and warnings about listings -/

/-- The instance, the first world and the later world of a fault about an instance listed again. -/
def Violation.placement? : Violation → Option (String × String × String)
  | .duplicatePlacement inst first second => some (inst, first, second)
  | _ => none

/-- The instance and the later world of a warning about an instance listed again. -/
def Event.placedAgain? : Event → Option (String × String)
  | .placedAgain inst _ second => some (inst, second)
  | _ => none

namespace Graph

variable {g : Graph}

/-- An entry of a world's list whose instance an earlier entry lists: the name of the instance, and the
world. -/
def again? (g : Graph) (earlier : List (String × Ref .inst)) (entry : String × Ref .inst) :
    Option (String × String) :=
  if earlier.any (·.2 == entry.2) then (g.inst? entry.2).map fun i => (i.name, entry.1) else none

/-- Among all faults, those about instances listed again come from the worlds' lists. -/
theorem placements_eq (g : Graph) : g.violations.filterMap Violation.placement? =
    judged (fun earlier l => (g.listingFault? earlier l).bind Violation.placement?) [] g.listings := by
  have hnames : ∀ k, (judged (nameFault? k) [] (g.names k)).filterMap Violation.placement? = [] := by
    intro k
    refine List.filterMap_eq_nil_iff.mpr fun v hv => ?_
    obtain ⟨ys, name, zs, -, hfault⟩ := mem_judged.mp hv
    unfold nameFault? at hfault
    split at hfault
    · cases hfault
      rfl
    · cases hfault
  have hspecies : g.speciesFaults.filterMap Violation.placement? = [] := by
    refine List.filterMap_eq_nil_iff.mpr fun v hv => ?_
    obtain ⟨i, -, hfault⟩ := List.mem_filterMap.mp hv
    split at hfault
    · cases hfault
    · cases hfault
      rfl
  have htransfers : ∀ faults : Transfer × Nat → List Violation,
      (∀ x, faults x = g.transferFaults x.1 x.2) →
      (g.transfers.toList.zipIdx.flatMap faults).filterMap Violation.placement? = [] := by
    intro faults hfaults
    refine List.filterMap_eq_nil_iff.mpr fun v hv => ?_
    obtain ⟨x, -, hfault⟩ := List.mem_flatMap.mp hv
    rw [hfaults] at hfault
    rcases List.mem_append.mp hfault with hfault | hfault
    · split at hfault
      · rw [List.mem_singleton.mp hfault]
        rfl
      · exact absurd hfault List.not_mem_nil
    · split at hfault
      · rw [List.mem_singleton.mp hfault]
        rfl
      · exact absurd hfault List.not_mem_nil
  rw [violations_eq]
  simp only [List.filterMap_append, hnames, hspecies, filterMap_judged, List.nil_append]
  rw [htransfers _ fun _ => rfl, List.append_nil]

/-- **The faults are the entries listed again**, as far as instance and later world go. -/
theorem again_of_violations (g : Graph) :
    (g.violations.filterMap Violation.placement?).map (fun f => (f.1, f.2.2)) =
      judged g.again? [] (g.listings.map fun l => (l.world, l.member)) := by
  have hentry : ∀ (earlier : List Listing) (l : Listing),
      ((g.listingFault? earlier l).bind Violation.placement?).bind (fun f => some (f.1, f.2.2)) =
        g.again? (earlier.map fun l => (l.world, l.member)) (l.world, l.member) := by
    intro earlier l
    have hany : (earlier.map fun l => (l.world, l.member)).any (·.2 == l.member) =
        (earlier.find? (·.member == l.member)).isSome := by
      rw [List.any_map, List.isSome_find?]
      rfl
    rw [listingFault?, again?, hany]
    cases g.inst? l.member <;> cases earlier.find? (·.member == l.member) <;> rfl
  rw [placements_eq, ← List.filterMap_eq_map, filterMap_judged]
  have hmap := judged_map g.again? (fun l : Listing => (l.world, l.member)) [] g.listings
  rw [List.map_nil] at hmap
  rw [hmap]
  exact congrArg (judged · [] g.listings) (funext fun earlier => funext fun l => hentry earlier l)

/-- Where no instance comes twice there is no such fault. -/
theorem placements_of_nodup {ys : List Listing} (h : (ys.map (·.member)).Nodup) :
    judged (fun earlier l => (g.listingFault? earlier l).bind Violation.placement?) [] ys = [] := by
  refine List.eq_nil_iff_forall_not_mem.mpr fun f hf => ?_
  obtain ⟨before, l, after, rfl, hfault⟩ := mem_judged.mp hf
  rw [List.nil_append] at hfault
  have hnone : before.find? (·.member == l.member) = none := by
    refine List.find?_eq_none.mpr fun l' hl' he => ?_
    rw [List.map_append, List.map_cons, List.nodup_append] at h
    exact h.2.2 _ (List.mem_map.mpr ⟨l', hl', rfl⟩) _ List.mem_cons_self (beq_iff_eq.mp he)
  unfold listingFault? at hfault
  rw [hnone] at hfault
  cases hi : g.inst? l.member with
  | none =>
    rw [hi] at hfault
    cases hfault
  | some i =>
    rw [hi] at hfault
    cases hfault

end Graph

/-! ## 2. The report of a settling -/

namespace Image

variable {g : Graph} {d : Directory} {l : Layout}

/-- **What settling one claim reports and leaves** where it is not refused: a warning if the instance has
a holder, then the write. -/
theorem settle_of_free {strict : Bool} {b : Bytes} {holder : Std.TreeMap Nat String} {c : Claim}
    {i : Instance} {o : Offset} (hi : g.inst? c.member = some i)
    (ho : Record.memberOffset g d c.world c.member = .ok o)
    (hfree : strict = true → holder[o.toNat]? = none) (hb : o.toNat + worldRefAt + 4 ≤ b.size) :
    settle strict g d ⟨b, holder⟩ c =
      ⟨holder[o.toNat]?.toList.map (fun w => .placedAgain i.name w c.world) ++ [.patched c.world o],
        .ok ⟨b.setWord (o.toNat + worldRefAt) c.offset.word, holder.insert o.toNat c.world⟩⟩ := by
  have hcontest : contest strict g c holder[o.toNat]? =
      ⟨holder[o.toNat]?.toList.map fun w => .placedAgain i.name w c.world, .ok ()⟩ := by
    cases hh : holder[o.toNat]? with
    | none => rfl
    | some w =>
      cases strict with
      | true =>
        rw [hfree rfl] at hh
        cases hh
      | false =>
        rw [contest, hi]
        rfl
  have hpatch : patch c o b =
      ⟨[.patched c.world o], .ok (b.setWord (o.toNat + worldRefAt) c.offset.word)⟩ := by
    rw [patch, Bytes.writeWord_of_room hb]
  rw [settle, ho]
  show (pure o >>= _ : Traced Settling) = _
  rw [pure_bind, hcontest, hpatch]
  rfl

/-- The map of a settling knows the instances of the entries so far: each with the world of the last
entry that lists it. -/
def Knows (l : Layout) (holder : Std.TreeMap Nat String) (earlier : List (String × Ref .inst)) : Prop :=
  ∀ p ∈ l.records, p.record.kind = .inst →
    holder[p.offset.toNat]? = (earlier.reverse.find? (·.2.index == p.index)).map (·.1)

theorem knows_empty (l : Layout) : Knows l ∅ [] := by
  intro p _ _
  rw [Std.TreeMap.getElem?_emptyc]
  rfl

/-- **One more claim is known.** -/
theorem Knows.step (hl : l.Sound g) {holder : Std.TreeMap Nat String}
    {earlier : List (String × Ref .inst)} (h : Knows l holder earlier) {world : String} {r : Ref .inst}
    {o : Offset} (ho : Record.memberOffset g l.instances world r = .ok o) :
    Knows l (holder.insert o.toNat world) (earlier ++ [(world, r)]) := by
  intro p hp hk
  have hkey := hl.memberOffset_toNat_eq_iff ho hp hk
  rw [getElem?_insert_key, h p hp hk, List.reverse_append, List.reverse_singleton, List.singleton_append,
    List.find?_cons]
  by_cases hr : r.index = p.index
  · rw [if_pos (hkey.mpr hr), beq_iff_eq.mpr hr]
    rfl
  · rw [if_neg (mt hkey.mp hr), beq_eq_false_iff_ne.mpr hr]

/-- **The warnings of a settling are the claims to instances claimed before**, in order. What carries
the walk is that the map knows the entries so far. -/
theorem again_of_settling (hl : l.Sound g) {cs : List Claim} {b : Bytes}
    {holder : Std.TreeMap Nat String} {earlier : List (String × Ref .inst)}
    (hmembers : ∀ c ∈ cs, ∃ i, g.inst? c.member = some i) (hsize : b.size = l.bytes.size)
    (hknows : Knows l holder earlier) :
    (Traced.foldl (settle false g l.instances) ⟨b, holder⟩ cs).events.filterMap Event.placedAgain? =
      judged g.again? earlier (cs.map fun c => (c.world, c.member)) := by
  induction cs generalizing b holder earlier with
  | nil => rfl
  | cons c cs ih =>
    have hnames : l.instances.keys = g.names .inst := hl.names .inst
    obtain ⟨⟨i, hi⟩, hrest⟩ := List.forall_mem_cons.mp hmembers
    obtain ⟨o, ho⟩ := Record.memberOffset_succeeds hnames ⟨i, hi⟩ c.world
    have hb : o.toNat + worldRefAt + 4 ≤ b.size :=
      hsize ▸ (Claim.Patches.into hl ⟨o, ho, rfl⟩).1.le_size hl
    -- the instance has a holder exactly if an earlier claim is to it
    have hwarn : (holder[o.toNat]?.toList.map fun w => Event.placedAgain i.name w c.world).filterMap
        Event.placedAgain? = (g.again? earlier (c.world, c.member)).toList := by
      obtain ⟨p, hp, hk, hindex, rfl⟩ := hl.memberOffset_eq_ok_iff.mp ho
      have hheld : earlier.any (·.2 == c.member) = holder[p.offset.toNat]?.isSome := by
        rw [hknows p hp hk, hindex, Option.isSome_map, List.isSome_find?, List.any_reverse]
        simp only [Ref.index_beq]
      rw [Graph.again?, hheld, hi]
      cases holder[p.offset.toNat]? <;> rfl
    have hstep := ih hrest ((b.size_setWord (o.toNat + worldRefAt) c.offset.word).trans hsize)
      (hknows.step hl ho)
    have hfree : false = true → holder[o.toNat]? = none := fun h => absurd h Bool.false_ne_true
    rw [Traced.foldl_cons, settle_of_free hi ho hfree hb, Traced.bind_ok, List.filterMap_append,
      List.filterMap_append, hstep, hwarn, List.map_cons, judged, List.append_assoc]
    rfl

end Image

/-! ## 3. The report of a layout -/

namespace Traced

variable {α β : Type} {P : Event → Prop}

/-- What a sequence reports is reported by its parts. -/
theorem forall_events_bind {x : Traced α} {f : α → Traced β} (hx : ∀ e ∈ x.events, P e)
    (hf : ∀ a, ∀ e ∈ (f a).events, P e) : ∀ e ∈ (x >>= f).events, P e := by
  rcases x with ⟨es, r⟩
  cases r with
  | error err => exact hx
  | ok a =>
    rw [bind_ok]
    exact List.forall_mem_append.mpr ⟨hx, hf a⟩

/-- What a walk over a list reports is reported by its steps. -/
theorem forall_events_foldl {f : β → α → Traced β} (hf : ∀ b x, ∀ e ∈ (f b x).events, P e) (b : β)
    (xs : List α) : ∀ e ∈ (foldl f b xs).events, P e := by
  induction xs generalizing b with
  | nil => exact fun _ he => absurd he List.not_mem_nil
  | cons x xs ih =>
    rw [foldl_cons]
    exact forall_events_bind (hf b x) ih

end Traced

namespace Layout

/-- A pass reports the records it places, and nothing else. -/
theorem allocates_pass {α : Type} {limit : Nat} {kind : RecordKind} {name : α → String}
    {encode : α → Except CompileError Record} {items : List α} {records : Array Placed} {next : Nat} :
    ∀ e ∈ (pass limit kind name encode items records next).events,
      ∃ kind name offset len, e = .allocated kind name offset len := by
  have hnone : ∀ e ∈ ([] : List Event), ∃ kind name offset len, e = .allocated kind name offset len :=
    fun _ he => absurd he List.not_mem_nil
  refine Traced.forall_events_foldl (fun p x => Traced.forall_events_bind hnone fun r => ?_) _ _
  unfold place
  simp only
  split
  · exact hnone
  · refine Traced.forall_events_bind (fun e he => ?_) fun _ => Traced.forall_events_bind hnone fun _ => hnone
    exact ⟨_, _, _, _, List.mem_singleton.mp he⟩

theorem allocates_ofGraph (c : ImageConfig) (g : Graph) :
    ∀ e ∈ (ofGraph c g).events, ∃ kind name offset len, e = .allocated kind name offset len :=
  Traced.forall_events_bind allocates_pass fun _ => Traced.forall_events_bind allocates_pass fun _ =>
    Traced.forall_events_bind allocates_pass fun _ _ he => absurd he List.not_mem_nil

/-- A layout warns of nothing. -/
theorem quiet_ofGraph (c : ImageConfig) (g : Graph) :
    (ofGraph c g).events.filterMap Event.placedAgain? = [] := by
  refine List.filterMap_eq_nil_iff.mpr fun e he => ?_
  obtain ⟨kind, name, offset, len, rfl⟩ := allocates_ofGraph c g e he
  rfl

end Layout

/-! ## 4. Builds -/

namespace Image

variable {c : ImageConfig} {g : Graph} {l : Layout}

/-- **The first fault about an instance listed again is the one a strict settling fails with.** -/
theorem Contested.findSome? {e : CompileError} (h : Contested g e) :
    ∃ inst first second, g.violations.findSome? Violation.placement? = some (inst, first, second) ∧
      e = .duplicatePlacement inst first second := by
  obtain ⟨ys, l, zs, i, first, hsplit, hnodup, hi, hfirst, he⟩ := h
  have hfault : (g.listingFault? ys l).bind Violation.placement? =
      some (i.name, first.world, l.world) := by
    rw [Graph.listingFault?, hi, hfirst]
    rfl
  refine ⟨i.name, first.world, l.world, ?_, he⟩
  rw [← List.head?_filterMap, Graph.placements_eq, hsplit, judged_append,
    Graph.placements_of_nodup hnodup, List.nil_append, List.nil_append, judged, hfault]
  rfl

/-- **Builds and faults agree about instances listed again.** Once a graph has a layout, a strict build
fails with the first fault of this kind, and succeeds if there is none. A build that is not strict
succeeds; it warns once for each of these faults, in their order, of the same instance and the same
later world. -/
theorem placement_reports_agree (hs : g.Sized) (hl : (Layout.ofGraph c g).result = .ok l) :
    (c.strict = true →
      (∀ inst first second, g.violations.findSome? Violation.placement? = some (inst, first, second) →
        (ofGraph c g).result = .error (.duplicatePlacement inst first second)) ∧
      (g.violations.findSome? Violation.placement? = none → ∃ img, (ofGraph c g).result = .ok img)) ∧
    (c.strict = false →
      (∃ img, (ofGraph c g).result = .ok img) ∧
      (ofGraph c g).events.filterMap Event.placedAgain? =
        (g.violations.filterMap Violation.placement?).map fun f => (f.1, f.2.2)) := by
  obtain ⟨hsound, -, -⟩ := Layout.sound_of_ofGraph hs hl
  obtain ⟨-, -, -, hmembers, -⟩ := (Layout.ofGraph_succeeds_iff hs).mp ⟨l, hl⟩
  have hworlds : l.worlds.keys = g.names .world := hsound.names .world
  have hsucceeds := @ofLayout_succeeds_iff g l c.strict hsound hmembers
  rw [ofGraph, Traced.bind_of_result hl]
  refine ⟨fun hstrict => ?_, fun hlenient => ?_⟩
  · cases hr : (ofLayout c.strict g l).result with
    | error e =>
      obtain ⟨inst, first, second, hfirst, rfl⟩ := (contested_of_ofLayout hsound hmembers hr).2.findSome?
      rw [hfirst]
      refine ⟨fun inst' first' second' h => ?_, fun h => ?_⟩
      · cases h
        rfl
      · cases h
    | ok img =>
      have hnodup := hsucceeds.mp ⟨img, hr⟩ hstrict
      rw [← Graph.map_member_listings] at hnodup
      have hnone : g.violations.findSome? Violation.placement? = none := by
        rw [← List.head?_filterMap, Graph.placements_eq, Graph.placements_of_nodup hnodup]
        rfl
      rw [hnone]
      refine ⟨fun inst first second h => ?_, fun _ => ⟨img, rfl⟩⟩
      cases h
  · have hok := hsucceeds.mpr fun hstrict => absurd hstrict (by simp [hlenient])
    refine ⟨hok, ?_⟩
    obtain ⟨img, himg⟩ := hok
    obtain ⟨s, hsettle, -⟩ := ofLayout_eq_ok_iff.mp himg
    have hevents : (ofLayout c.strict g l).events =
        (Traced.foldl (settle c.strict g l.instances) ⟨l.bytes, ∅⟩ (claims g l.worldOffsets)).events ++
          [Event.built l.animals.size l.instances.size l.worlds.size l.total] := by
      rw [ofLayout, Traced.bind_of_result hsettle]
      rfl
    have hclaims : ∀ cl ∈ claims g l.worldOffsets, ∃ i, g.inst? cl.member = some i := by
      intro cl hcl
      exact hmembers _ (map_member_claims hsound ▸ List.mem_map.mpr ⟨cl, hcl, rfl⟩)
    rw [hevents, hlenient, List.filterMap_append, Layout.quiet_ofGraph, List.filterMap_append,
      again_of_settling hsound hclaims rfl (knows_empty l), map_claims hsound, Graph.again_of_violations,
      List.nil_append]
    exact List.append_nil _

/-- The shared cat is listed by the first world and then twice by the second. A strict build names both
worlds, and any other build warns twice. -/
theorem shared_cat_is_contested : Sample.sharedCat.Sized ∧
    (∃ l, (Layout.ofGraph { strict := true } Sample.sharedCat).result = .ok l) ∧
    (ofGraph { strict := true } Sample.sharedCat).result =
      .error (.duplicatePlacement "i1" "w1" "w2") ∧
    (∃ img, (ofGraph {} Sample.sharedCat).result = .ok img) ∧
    (ofGraph {} Sample.sharedCat).events.filterMap Event.placedAgain? = [("i1", "w2"), ("i1", "w2")] := by
  have hsized : Sample.sharedCat.Sized :=
    Graph.sized_of_footprints (by decide) (by decide) (by decide)
  have hfaults : Sample.sharedCat.violations.filterMap Violation.placement? =
      [("i1", "w1", "w2"), ("i1", "w1", "w2")] := by decide +kernel
  have hlayout : ∀ c : ImageConfig, c.limit = ImageConfig.limit {} →
      ∃ l, (Layout.ofGraph c Sample.sharedCat).result = .ok l := by
    intro c hc
    have hsame : Layout.ofGraph c Sample.sharedCat = Layout.ofGraph {} Sample.sharedCat := by
      unfold Layout.ofGraph
      rw [hc]
    rw [hsame]
    exact exists_of_isOk (by decide +kernel)
  obtain ⟨l, hl⟩ := hlayout { strict := true } rfl
  obtain ⟨l', hl'⟩ := hlayout {} rfl
  have hstrict := (placement_reports_agree hsized hl).1 rfl
  have hlenient := (placement_reports_agree hsized hl').2 rfl
  rw [hfaults] at hlenient
  refine ⟨hsized, ⟨l, hl⟩, hstrict.1 "i1" "w1" "w2" ?_, hlenient⟩
  rw [← List.head?_filterMap, hfaults]
  rfl

end Image

end Menagerie
