import Menagerie.Proofs.Contention

/-! # What a compilation reports

The report of a compilation is written by five walks, some of it before the step that can still fail.

* `Layout.events_ofGraph` -- a layout reports its records, in order and with their spans;
* `Image.Settled`, `Image.settling_reports` -- settling reports each entry of a world's list: **a warning
  if an earlier entry lists the instance, and then the write**;
* `Program.events_emit` -- emission reports its stores, its narrations and their numbers;
* `Compiler.report_tells_outcome` -- **the report of a compilation that succeeds is determined by the graph
  and the program**; the report of one that fails does not end with a program, and tells whether there
  was an image.
-/

namespace Menagerie

/-! ## 1. Walks -/

namespace Traced

variable {α β : Type} {P : Event → Prop}

theorem events_map (f : α → β) (x : Traced α) : (f <$> x).events = x.events := by
  rcases x with ⟨es, r⟩
  cases r with
  | error e => rfl
  | ok a => exact List.append_nil es

theorem events_bind_of_error {x : Traced α} {e : CompileError} (h : x.result = .error e)
    (f : α → Traced β) : (x >>= f).events = x.events := by
  rcases x with ⟨es, r⟩
  cases h
  rfl

/-- **A walk that succeeds reports its outcomes**, if each step reports its own. -/
theorem events_mapM {f : α → Traced β} {report : β → Event}
    (hf : ∀ x y, (f x).result = .ok y → (f x).events = [report y]) {xs : List α} {ys : List β}
    (h : (mapM f xs).result = .ok ys) : (mapM f xs).events = ys.map report := by
  rw [result_mapM_eq_ok_iff] at h
  induction h with
  | nil => rfl
  | @cons x y xs ys hx _ ih =>
    rw [mapM_cons, events_bind_of_ok hx, hf x y hx, events_map, ih]
    rfl

theorem forall_events_mapM {f : α → Traced β} (hf : ∀ x, ∀ e ∈ (f x).events, P e) (xs : List α) :
    ∀ e ∈ (mapM f xs).events, P e := by
  induction xs with
  | nil => exact fun _ he => absurd he List.not_mem_nil
  | cons x xs ih =>
    rw [mapM_cons]
    refine forall_events_bind (hf x) fun y => ?_
    rw [events_map]
    exact ih

/-- What a sequence reports that fails is reported before it fails. -/
theorem forall_events_of_error {x : Traced α} {f : α → Traced β} {err : CompileError}
    (h : (x >>= f).result = .error err) (hx : ∀ e ∈ x.events, P e)
    (hf : ∀ a, (f a).result = .error err → ∀ e ∈ (f a).events, P e) : ∀ e ∈ (x >>= f).events, P e := by
  rcases x with ⟨es, r⟩
  cases r with
  | error err' => exact hx
  | ok a =>
    rw [bind_ok] at h ⊢
    exact List.forall_mem_append.mpr ⟨hx, hf a h⟩

end Traced

/-- Whether an event tells that a stage is complete. -/
def Event.closes : Event → Bool
  | .built _ _ _ _ => true
  | .emitted _ _ _ _ => true
  | _ => false

theorem Event.closes_eq_false_iff {e : Event} : e.closes = false ↔
    e.message ≠ "memory image built" ∧ e.message ≠ "program emitted" := by
  cases e <;> simp [closes, message]

/-! ## 2. Layouts -/

/-- The report of a record: its name, and its span. -/
def Event.ofSpan (name : String) (s : Span) : Event := .allocated s.kind name s.offset s.len

namespace Layout

variable {α : Type} {limit : Nat} {name : α → String} {encode : α → Except CompileError Record}

theorem events_place {p p' : Progress} {name : String} {index : Nat} {r : Record}
    (h : (place limit p name index r).result = .ok p') :
    (place limit p name index r).events = [.ofSpan name (Placed.span ⟨index, .ofNat p.next, r⟩)] := by
  unfold place at h ⊢
  simp only at h ⊢
  split at h
  · cases h
  · rename_i hl
    rw [if_neg hl]
    cases (p.names.insert name (Offset.ofNat p.next)).1 <;> rfl

/-- **A walk over declarations reports the records it adds.** -/
theorem events_foldl {p p' : Progress} {items : List α} {index : Nat}
    (h : (Traced.foldl (passStep limit name encode) p (items.zipIdx index)).result = .ok p') :
    ∃ qs, (items.map name).length = (qs.map Placed.span).length ∧
      p'.records.toList = p.records.toList ++ qs ∧
      (Traced.foldl (passStep limit name encode) p (items.zipIdx index)).events =
        List.zipWith Event.ofSpan (items.map name) (qs.map Placed.span) := by
  induction items generalizing p index with
  | nil =>
    cases h
    exact ⟨[], rfl, (List.append_nil _).symm, rfl⟩
  | cons x items ih =>
    rw [List.zipIdx_cons, Traced.foldl_cons] at h ⊢
    obtain ⟨q, hq, h⟩ := Traced.result_bind_eq_ok_iff.mp h
    obtain ⟨r, hr, hplace⟩ := passStep_eq_ok_iff.mp hq
    obtain ⟨qs, hlen, hrecords, hevents⟩ := ih h
    have hstep : (passStep limit name encode p (x, index)).events =
        [.ofSpan (name x) (Placed.span ⟨index, .ofNat p.next, r⟩)] := by
      rw [passStep, Traced.events_bind_of_ok hr, events_place hplace]
      rfl
    refine ⟨⟨index, .ofNat p.next, r⟩ :: qs, ?_, ?_, ?_⟩
    · rw [List.map_cons, List.map_cons, List.length_cons, List.length_cons, hlen]
    · rw [hrecords, (place_adds hplace).1.records, List.append_assoc]
      rfl
    · rw [Traced.events_bind_of_ok hq, hstep, hevents]
      rfl

/-- **A layout reports its records in order**, each with its name and its span. -/
theorem events_ofGraph {c : ImageConfig} {g : Graph} {l : Layout} (h : (ofGraph c g).result = .ok l) :
    (RecordKind.passes.flatMap g.names).length = l.spans.toList.length ∧
    (ofGraph c g).events =
      List.zipWith Event.ofSpan (RecordKind.passes.flatMap g.names) l.spans.toList := by
  unfold ofGraph at h ⊢
  obtain ⟨a, ha, h⟩ := Traced.result_bind_eq_ok_iff.mp h
  obtain ⟨i, hi, h⟩ := Traced.result_bind_eq_ok_iff.mp h
  obtain ⟨w, hw, h⟩ := Traced.result_bind_eq_ok_iff.mp h
  cases h
  rw [Traced.events_bind_of_ok ha, Traced.events_bind_of_ok hi, Traced.events_bind_of_ok hw]
  rw [pass_eq] at ha hi hw
  obtain ⟨as, hal, har, hae⟩ := events_foldl ha
  obtain ⟨is, hil, hir, hie⟩ := events_foldl hi
  obtain ⟨ws, hwl, hwr, hwe⟩ := events_foldl hw
  have hspans : (spans ⟨a.names, i.names, w.names, w.records, w.next⟩).toList =
      as.map Placed.span ++ (is.map Placed.span ++ ws.map Placed.span) := by
    rw [spans, Array.toList_map, hwr, hir, har, List.map_append, List.map_append, List.append_assoc]
    rfl
  have hnames : RecordKind.passes.flatMap g.names =
      g.animals.toList.map Animal.name ++
        (g.instances.toList.map Instance.name ++ g.worlds.toList.map World.name) := by
    rw [RecordKind.passes, List.flatMap_cons, List.flatMap_cons, List.flatMap_cons, List.flatMap_nil,
      List.append_nil]
    rfl
  rw [hspans, hnames, List.zipWith_append hal, List.zipWith_append hil, pass_eq, pass_eq, pass_eq, hae,
    hie, hwe, Traced.pure_def, List.append_nil]
  refine ⟨?_, rfl⟩
  simp only [List.length_append, hal, hil, hwl]

end Layout

/-! ## 3. Images -/

/-- The entries of the worlds' lists, worlds in order and entries in order: the world, and the instance
it lists. -/
def Graph.entries (g : Graph) : List (String × Ref .inst) :=
  g.worlds.toList.flatMap fun w => w.contains.map fun r => (w.name, r)

theorem Graph.map_listings (g : Graph) : g.listings.map (fun l => (l.world, l.member)) = g.entries := by
  rw [listings, List.map_flatMap, entries]
  refine congrArg (List.flatMap · _) (funext fun w => ?_)
  rw [List.map_map]
  conv => rhs; rw [← List.zipIdx_map_fst 0 w.contains, List.map_map]
  rfl

namespace Image

variable {strict : Bool} {g : Graph} {l : Layout}

/-- **What settling reports about an entry** after the entries before it: a warning if one of them lists
the same instance, naming the last of them; and then the write. -/
def Settled (g : Graph) (d : Directory) (earlier : List (String × Ref .inst))
    (entry : String × Ref .inst) (events : List Event) : Prop :=
  ∃ i o, g.inst? entry.2 = some i ∧ d.get? i.name = some o ∧
    events = ((earlier.reverse.find? (·.2 == entry.2)).toList.map fun last =>
      .placedAgain i.name last.1 entry.1) ++ [.patched entry.1 o]

/-- One claim: what is reported, and what is known then. -/
theorem settle_reports (hl : l.Sound g) {c : Claim} {s s' : Settling}
    {earlier : List (String × Ref .inst)} (hknows : Knows l s.holder earlier)
    (h : (settle strict g l.instances s c).result = .ok s') :
    Settled g l.instances earlier (c.world, c.member) (settle strict g l.instances s c).events ∧
      Knows l s'.holder (earlier ++ [(c.world, c.member)]) := by
  obtain ⟨o, ho, hfree, hb, rfl⟩ := settle_eq_ok_iff.mp h
  obtain ⟨i, hi, hget⟩ := Record.memberOffset_eq_ok_iff.mp ho
  refine ⟨⟨i, o, hi, hget, ?_⟩, hknows.step hl ho⟩
  -- the holder of the instance is the world of the last entry that lists it
  have hholder : s.holder[o.toNat]? = (earlier.reverse.find? (·.2 == c.member)).map (·.1) := by
    obtain ⟨p, hp, hk, hindex, rfl⟩ := hl.memberOffset_eq_ok_iff.mp ho
    rw [hknows p hp hk, hindex]
    simp only [Ref.index_beq]
  obtain ⟨b, holder⟩ := s
  rw [settle_of_free hi ho hfree hb, hholder, Option.toList_map, List.map_map]
  rfl

/-- **Settling reports entry after entry.** What carries the walk is that the map knows the entries so
far. -/
theorem settling_reports (hl : l.Sound g) {cs : List Claim} {s s' : Settling}
    {earlier : List (String × Ref .inst)} (hknows : Knows l s.holder earlier)
    (h : (Traced.foldl (settle strict g l.instances) s cs).result = .ok s') :
    ∃ reports, (Traced.foldl (settle strict g l.instances) s cs).events = reports.flatten ∧
      List.Forall₂ (fun x events => Settled g l.instances
          ((earlier ++ cs.map fun c => (c.world, c.member)).take x.2) x.1 events)
        ((cs.map fun c => (c.world, c.member)).zipIdx earlier.length) reports := by
  induction cs generalizing s earlier with
  | nil =>
    cases h
    exact ⟨[], rfl, .nil⟩
  | cons c cs ih =>
    rw [Traced.foldl_cons] at h ⊢
    obtain ⟨t, ht, h⟩ := Traced.result_bind_eq_ok_iff.mp h
    obtain ⟨hsettled, hknows'⟩ := settle_reports hl hknows ht
    obtain ⟨reports, hevents, hreports⟩ := ih hknows' h
    rw [List.append_assoc, List.length_append] at hreports
    refine ⟨(settle strict g l.instances s c).events :: reports, ?_, .cons ?_ hreports⟩
    · rw [Traced.events_bind_of_ok ht, hevents, List.flatten_cons]
    · rw [List.take_left]
      exact hsettled

/-- The directory of a kind has an entry for each of its declarations. -/
theorem size_directory (hl : l.Sound g) (k : RecordKind) :
    (l.directory k).size = (g.names k).length := by
  rw [← hl.names k, Directory.keys, List.length_map, Directory.size_eq]

/-- **What the build of an image reports**: its layout, its entries, and what it holds. -/
theorem events_ofGraph {c : ImageConfig} {img : Image} (hs : g.Sized)
    (h : (ofGraph c g).result = .ok img) :
    (RecordKind.passes.flatMap g.names).length = img.spans.size ∧ ∃ reports,
      (ofGraph c g).events =
        List.zipWith Event.ofSpan (RecordKind.passes.flatMap g.names) img.spans.toList ++
        (reports.flatten ++ [.built g.animals.size g.instances.size g.worlds.size img.size]) ∧
      List.Forall₂ (fun x events => Settled g img.instances (g.entries.take x.2) x.1 events)
        g.entries.zipIdx reports := by
  obtain ⟨l, hl, himg⟩ := Traced.result_bind_eq_ok_iff.mp h
  obtain ⟨hsound, htotal, -⟩ := Layout.sound_of_ofGraph hs hl
  obtain ⟨s, hsettle, rfl⟩ := ofLayout_eq_ok_iff.mp himg
  obtain ⟨hlen, hlayout⟩ := Layout.events_ofGraph hl
  obtain ⟨reports, hevents, hreports⟩ := settling_reports hsound (knows_empty l) hsettle
  obtain ⟨ws, -, hbytes, -⟩ := settled_writes hsettle
  rw [List.nil_append, map_claims hsound, Graph.map_listings] at hreports
  have hsizes : l.animals.size = g.animals.size ∧ l.instances.size = g.instances.size ∧
      l.worlds.size = g.worlds.size ∧ l.total = s.bytes.size := by
    refine ⟨(size_directory hsound .animal).trans ?_, (size_directory hsound .inst).trans ?_,
      (size_directory hsound .world).trans ?_, ?_⟩
    · rw [Graph.names, List.length_map, Array.length_toList]
    · rw [Graph.names, List.length_map, Array.length_toList]
    · rw [Graph.names, List.length_map, Array.length_toList]
    · rw [hbytes, Bytes.size_writes, htotal]
  have hlayoutEvents : (ofLayout c.strict g l).events = reports.flatten ++
      [.built g.animals.size g.instances.size g.worlds.size s.bytes.size] := by
    rw [ofLayout, Traced.events_bind_of_ok hsettle, hevents, hsizes.1, hsizes.2.1, hsizes.2.2.1,
      hsizes.2.2.2]
    rfl
  refine ⟨hlen, reports, ?_, hreports⟩
  rw [ofGraph, Traced.events_bind_of_ok hl, hlayout, hlayoutEvents]
  rfl

/-- Settling completes nothing, whether or not it succeeds. -/
theorem settling_closes_nothing (d : Directory) (s : Settling) (cs : List Claim) :
    ∀ e ∈ (Traced.foldl (settle strict g d) s cs).events, e.closes = false := by
  refine Traced.forall_events_foldl (fun s c => ?_) s cs
  obtain ⟨b, holder⟩ := s
  refine Traced.forall_events_bind (List.forall_mem_nil _) fun o =>
    Traced.forall_events_bind ?_ fun _ => Traced.forall_events_bind ?_ fun _ => List.forall_mem_nil _
  · cases holder[o.toNat]? with
    | none => exact List.forall_mem_nil _
    | some w =>
      cases strict with
      | true => exact List.forall_mem_nil _
      | false => exact List.forall_mem_singleton.mpr rfl
  · unfold patch
    split
    · exact List.forall_mem_nil _
    · exact List.forall_mem_singleton.mpr rfl

theorem layout_closes_nothing (c : ImageConfig) (g : Graph) :
    ∀ e ∈ (Layout.ofGraph c g).events, e.closes = false := by
  intro e he
  obtain ⟨kind, name, offset, len, rfl⟩ := Layout.allocates_ofGraph c g e he
  rfl

/-- **A build that fails does not report an image.** -/
theorem failed_build_closes_nothing {c : ImageConfig} {err : CompileError}
    (h : (ofGraph c g).result = .error err) : ∀ e ∈ (ofGraph c g).events, e.closes = false := by
  refine Traced.forall_events_of_error h (layout_closes_nothing c g) fun l hl => ?_
  refine Traced.forall_events_of_error hl (settling_closes_nothing _ _ _) fun s hs => ?_
  cases hs

/-- A build reports no program. -/
theorem build_emits_nothing (c : ImageConfig) (g : Graph) :
    ∀ e ∈ (ofGraph c g).events, e.message ≠ "program emitted" := by
  have hopen : ∀ e : Event, e.closes = false → e.message ≠ "program emitted" :=
    fun e he => (Event.closes_eq_false_iff.mp he).2
  refine Traced.forall_events_bind (fun e he => hopen e (layout_closes_nothing c g e he)) fun l => ?_
  refine Traced.forall_events_bind (fun e he => hopen e (settling_closes_nothing _ _ _ e he)) fun s => ?_
  refine Traced.forall_events_bind (List.forall_mem_singleton.mpr ?_) fun _ => List.forall_mem_nil _
  show "memory image built" ≠ "program emitted"
  decide

end Image

/-! ## 4. Programs -/

/-- The report of a store. -/
def Event.ofStore (s : Store) : Event := .lowered s.inst s.world s.target s.value

/-- The report of a narration. -/
def Event.ofNarrated (n : Narrated) : Event := .resolved n.inst n.args

namespace Program

variable {c : EmitConfig} {g : Graph} {img : Image}

theorem events_lower {t : Transfer} {position : Nat} {s : Store}
    (h : (lower g img t position).result = .ok s) :
    (lower g img t position).events = [.ofStore s] := by
  rw [result_lower] at h
  rw [lower, h]
  rfl

theorem events_narrate {v : View} {i : Instance} {x : Offset × Narrated}
    (h : (narrate img v i).result = .ok x) : (narrate img v i).events = [.ofNarrated x.2] := by
  rw [result_narrate] at h
  rw [narrate, h]
  rfl

/-- **What an emission reports**: its stores, its narrations, and the numbers of what it holds. -/
theorem events_emit {p : Program} (h : (emit c img g).result = .ok p) :
    (emit c img g).events = p.stores.map Event.ofStore ++ (p.narrations.map Event.ofNarrated ++
      [.emitted p.stores.length p.narrations.length p.body.length p.pages.initial]) := by
  unfold emit at h ⊢
  obtain ⟨pages, hpages, h⟩ := Traced.result_bind_eq_ok_iff.mp h
  obtain ⟨stores, hstores, h⟩ := Traced.result_bind_eq_ok_iff.mp h
  obtain ⟨mem, hmem, h⟩ := Traced.result_bind_eq_ok_iff.mp h
  obtain ⟨found, hfound, h⟩ := Traced.result_bind_eq_ok_iff.mp h
  cases h
  rw [Traced.events_bind_of_ok hpages, Traced.events_bind_of_ok hstores, Traced.events_bind_of_ok hmem,
    Traced.events_bind_of_ok hfound, Traced.events_mapM (fun t s => events_lower) hstores,
    Traced.events_mapM (fun i x => events_narrate) hfound]
  rw [List.map_map]
  rfl

/-- **An emission that fails does not report a program.** -/
theorem failed_emission_closes_nothing {err : CompileError} (h : (emit c img g).result = .error err) :
    ∀ e ∈ (emit c img g).events, e.closes = false := by
  have hlower : ∀ t : Transfer × Nat, ∀ e ∈ (lower g img t.1 t.2).events, e.closes = false :=
    fun t => Traced.forall_events_bind (List.forall_mem_nil _) fun s =>
      Traced.forall_events_bind (List.forall_mem_singleton.mpr rfl) fun _ => List.forall_mem_nil _
  have hnarrate : ∀ v i, ∀ e ∈ (narrate img v i).events, e.closes = false :=
    fun v i => Traced.forall_events_bind (List.forall_mem_nil _) fun x =>
      Traced.forall_events_bind (List.forall_mem_singleton.mpr rfl) fun _ => List.forall_mem_nil _
  refine Traced.forall_events_of_error h (List.forall_mem_nil _) fun pages h => ?_
  refine Traced.forall_events_of_error h (Traced.forall_events_mapM hlower _) fun stores h => ?_
  refine Traced.forall_events_of_error h (List.forall_mem_nil _) fun mem h => ?_
  refine Traced.forall_events_of_error h (Traced.forall_events_mapM (hnarrate _) _) fun found h => ?_
  cases h

end Program

/-! ## 5. Compilations -/

/-- The stores follow the transfers, and the narrations the instances. -/
theorem Program.Emitted.follows {p : Program} {img : Image} {g : Graph} {mem : Bytes}
    {found : List (Offset × Narrated)} (h : p.Emitted img g mem found) :
    List.Forall₂ (fun t s => (g.inst? t.subject).map (·.name) = some s.inst ∧
      (g.world? t.destination).map (·.name) = some s.world) g.transfers.toList p.stores ∧
    p.narrations.map (·.inst) = g.instances.toList.map (·.name) := by
  refine ⟨?_, ?_⟩
  · rw [← List.zipIdx_map_fst 0 g.transfers.toList, List.forall₂_map_left_iff]
    refine h.stores.imp fun t s hs => ?_
    obtain ⟨i, w, o, hi, hw, -, -, -, hinst, hworld⟩ := Store.ofTransfer_eq_ok_iff.mp hs
    rw [hi, hw, hinst, hworld]
    exact ⟨rfl, rfl⟩
  · have hnames : List.Forall₂ (· = ·) (found.map (·.2.inst)) (g.instances.toList.map (·.name)) := by
      rw [List.forall₂_map_left_iff, List.forall₂_map_right_iff]
      refine List.Forall₂.flip (h.resolved.imp fun i x hx => ?_)
      exact (Narrated.resolve_eq_ok_iff.mp hx.2).1
    rw [List.forall₂_eq_eq_eq] at hnames
    rw [h.narrations, List.map_map]
    exact hnames

theorem Program.Emitted.lengths {p : Program} {img : Image} {g : Graph} {mem : Bytes}
    {found : List (Offset × Narrated)} (h : p.Emitted img g mem found) :
    p.stores.length = g.transfers.size ∧ p.narrations.length = g.instances.size ∧
      p.body.length = g.transfers.size + g.instances.size + 1 := by
  have hstores : p.stores.length = g.transfers.size := by
    rw [← h.stores.length_eq, List.length_zipIdx, Array.length_toList]
  have hfound : found.length = g.instances.size := h.resolved.length_eq.symm
  refine ⟨hstores, by rw [h.narrations, List.length_map, hfound], ?_⟩
  rw [h.body, assemble, List.length_append, List.length_append, List.length_map, List.length_map,
    List.length_map, hstores, hfound, List.length_singleton]

namespace Compiler

variable {c : Compiler} {g : Graph}

/-- A compilation reports the faults before all else. -/
theorem events_compile (c : Compiler) (g : Graph) : (c.compile g).events = g.violations.map .violated ++
    (Image.ofGraph c.image g >>= fun img => Program.emit c.emit img g).events := by
  have hfaults : (reportFaults g).result = .ok () := rfl
  exact Traced.events_bind_of_ok hfaults _

theorem events_of_image {img : Image} (h : (Image.ofGraph c.image g).result = .ok img) :
    (c.compile g).events = g.violations.map .violated ++
      ((Image.ofGraph c.image g).events ++ (Program.emit c.emit img g).events) := by
  rw [events_compile, Traced.events_bind_of_ok h]

theorem events_of_no_image {err : CompileError} (h : (Image.ofGraph c.image g).result = .error err) :
    (c.compile g).events = g.violations.map .violated ++ (Image.ofGraph c.image g).events := by
  rw [events_compile, Traced.events_bind_of_error h]

theorem faults_close_nothing (g : Graph) :
    ∀ e ∈ g.violations.map Event.violated, e.closes = false := by
  intro e he
  obtain ⟨v, -, rfl⟩ := List.mem_map.mp he
  rfl

/-- **The report of a compilation tells its outcome.** If a program is compiled, the report holds, in this
order, a warning for each fault of the graph; the name and the span of each record; for each entry of
the worlds' lists a warning if an earlier entry lists the instance, and the write; the image with the
numbers of its declarations and its size; the stores, one for each transfer; the narrations, one for
each instance; and the program with the numbers of both and of all instructions. If there is no
program, none is reported; and an image is reported exactly if one was built. -/
theorem report_tells_outcome (hs : g.Sized) :
    (∀ p, (c.compile g).result = .ok p → ∃ settled : List (List Event),
      (c.compile g).events = g.violations.map .violated ++
        List.zipWith Event.ofSpan (RecordKind.passes.flatMap g.names) p.image.spans.toList ++
        settled.flatten ++ [.built g.animals.size g.instances.size g.worlds.size p.image.size] ++
        p.stores.map Event.ofStore ++ p.narrations.map Event.ofNarrated ++
        [.emitted g.transfers.size g.instances.size (g.transfers.size + g.instances.size + 1)
          p.pages.initial] ∧
      (RecordKind.passes.flatMap g.names).length = p.image.spans.size ∧
      List.Forall₂ (fun x events => Image.Settled g p.image.instances (g.entries.take x.2) x.1 events)
        g.entries.zipIdx settled ∧
      List.Forall₂ (fun t s => (g.inst? t.subject).map (·.name) = some s.inst ∧
        (g.world? t.destination).map (·.name) = some s.world) g.transfers.toList p.stores ∧
      p.narrations.map (·.inst) = g.instances.toList.map (·.name)) ∧
    ∀ err, (c.compile g).result = .error err →
      (∀ e ∈ (c.compile g).events, e.message ≠ "program emitted") ∧
      ((∃ e ∈ (c.compile g).events, e.message = "memory image built") ↔
        ∃ img, (Image.ofGraph c.image g).result = .ok img) := by
  refine ⟨fun p hp => ?_, fun err herr => ?_⟩
  · obtain ⟨img, himg, hemit⟩ := compile_eq_ok_iff.mp hp
    obtain ⟨-, -, mem, found, hemitted⟩ := Program.emit_eq_ok_iff.mp hemit
    obtain ⟨hlen, settled, hevents, hsettled⟩ := Image.events_ofGraph hs himg
    obtain ⟨htransfers, hnames⟩ := hemitted.follows
    obtain rfl := hemitted.image
    obtain ⟨hstores, hnarrations, hbody⟩ := hemitted.lengths
    refine ⟨settled, ?_, hlen, hsettled, htransfers, hnames⟩
    rw [events_of_image himg, hevents, Program.events_emit hemit, hstores, hnarrations, hbody]
    simp only [List.append_assoc]
  · cases himg : (Image.ofGraph c.image g).result with
    | error e =>
      have hopen : ∀ e ∈ (c.compile g).events, e.closes = false := by
        rw [events_of_no_image himg]
        exact List.forall_mem_append.mpr ⟨faults_close_nothing g, Image.failed_build_closes_nothing himg⟩
      refine ⟨fun e he => (Event.closes_eq_false_iff.mp (hopen e he)).2, iff_of_false (fun h => ?_) fun h => ?_⟩
      · obtain ⟨e, he, hm⟩ := h
        exact (Event.closes_eq_false_iff.mp (hopen e he)).1 hm
      · obtain ⟨img, h⟩ := h
        cases h
    | ok img =>
      rw [result_of_image himg] at herr
      rw [events_of_image himg]
      refine ⟨List.forall_mem_append.mpr ⟨fun e he => ?_, List.forall_mem_append.mpr
        ⟨Image.build_emits_nothing c.image g, fun e he => ?_⟩⟩, iff_of_true ?_ ⟨img, rfl⟩⟩
      · exact (Event.closes_eq_false_iff.mp (faults_close_nothing g e he)).2
      · exact (Event.closes_eq_false_iff.mp (Program.failed_emission_closes_nothing herr e he)).2
      · obtain ⟨-, settled, hevents, -⟩ := Image.events_ofGraph hs himg
        refine ⟨.built g.animals.size g.instances.size g.worlds.size img.size, ?_, rfl⟩
        rw [hevents]
        simp only [List.mem_append, List.mem_singleton, or_true, true_or]

/-- The report of the moving cat ends with its program, of one store, one narration and the return. That
of the shared cat tells of an image, and of no program: one of its instances is in no world. -/
theorem cats_are_reported : Sample.movingCat.Sized ∧ Sample.sharedCat.Sized ∧
    (∃ pages, (compile {} Sample.movingCat).events.getLast? = some (.emitted 1 1 3 pages)) ∧
    (∃ e ∈ (compile {} Sample.sharedCat).events, e.message = "memory image built") ∧
    ∀ e ∈ (compile {} Sample.sharedCat).events, e.message ≠ "program emitted" := by
  have hmoving : Sample.movingCat.Sized := Graph.sized_of_footprints (by decide) (by decide) (by decide)
  have hshared : Sample.sharedCat.Sized := Graph.sized_of_footprints (by decide) (by decide) (by decide)
  obtain ⟨p, hp⟩ : ∃ p, (compile {} Sample.movingCat).result = .ok p := exists_of_isOk (by decide +kernel)
  obtain ⟨img, himg⟩ : ∃ img, (Image.ofGraph {} Sample.sharedCat).result = .ok img :=
    exists_of_isOk (by decide +kernel)
  have herror : (fun _ => ()) <$> (compile {} Sample.sharedCat).result =
      .error (.dereference "" .world .unset) := by decide +kernel
  rw [map_eq_error_iff] at herror
  obtain ⟨settled, hevents, -⟩ := (report_tells_outcome hmoving).1 p hp
  obtain ⟨hnone, hbuilt⟩ := (report_tells_outcome hshared).2 _ herror
  refine ⟨hmoving, hshared, ⟨p.pages.initial, ?_⟩, hbuilt.mpr ⟨img, himg⟩, hnone⟩
  rw [hevents, List.getLast?_concat]
  rfl

end Compiler

end Menagerie
