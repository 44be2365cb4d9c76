import Menagerie.Graph.Sample
import Menagerie.Proofs.StaleImages

/-! # Limits of bytes and pages

A layout is limited in bytes, a memory in pages. Both limits are reported alike, with what is required
and what is allowed:

* `Layout.ofGraph_of_fits` -- a layout and its report are the same under every limit that the layout fits;
* `Layout.limit_only_gates` -- **under any other limit it overflows, and nothing else happens**;
* `EmitConfig.pagesFor_le_iff` -- the pages suffice exactly if the bytes fit into the maximum **and no
  more pages are asked for at the start**;
* `Image.overflow_of_ofGraph` -- a layout that overflows requires more bytes than its limit;
* `Compiler.overflow_is_real_iff` -- **a reported overflow is real, unless an image that fits is asked to
  start with more pages than the maximum**. The report then gives the size of the image, which is within
  the limit (`Compiler.fitting_cat_overflows`).
-/

namespace Menagerie

/-! ## 1. The limit of a layout -/

namespace Layout

section Pass

variable {α : Type} {limit limit' : Nat} {name : α → String} {encode : α → Except CompileError Record}

/-- A record is placed alike under every limit that it fits. -/
theorem place_of_fits {p p' : Progress} {name : String} {index : Nat} {r : Record}
    (h : (place limit p name index r).result = .ok p') (hfits : p'.next ≤ limit') :
    place limit' p name index r = place limit p name index r := by
  obtain ⟨hadd, hlimit⟩ := place_adds h
  have hnext : p'.next = p.next + r.len.toNat := by
    rw [hadd.next, Placed.total_cons, Placed.total_nil, Nat.add_zero]
  unfold place
  simp only
  rw [if_neg (by omega), if_neg (by omega)]

/-- **A walk over declarations never goes back, and is the same under every limit that its end fits.** -/
theorem foldl_of_fits (limit' : Nat) {p p' : Progress} {items : List α} {index : Nat}
    (h : (Traced.foldl (passStep limit name encode) p (items.zipIdx index)).result = .ok p') :
    p.next ≤ p'.next ∧ (p'.next ≤ limit' →
      Traced.foldl (passStep limit' name encode) p (items.zipIdx index) =
        Traced.foldl (passStep limit name encode) p (items.zipIdx index)) := by
  induction items generalizing p index with
  | nil =>
    cases h
    exact ⟨Nat.le_refl _, fun _ => rfl⟩
  | cons x items ih =>
    rw [List.zipIdx_cons, Traced.foldl_cons] at h ⊢
    obtain ⟨q, hq, h⟩ := Traced.result_bind_eq_ok_iff.mp h
    obtain ⟨r, hr, hplace⟩ := passStep_eq_ok_iff.mp hq
    obtain ⟨hle, hrest⟩ := ih h
    have hpq : p.next ≤ q.next := (place_adds hplace).1.next ▸ Nat.le_add_right _ _
    refine ⟨Nat.le_trans hpq hle, fun hfits => ?_⟩
    have hstep : passStep limit' name encode p (x, index) = passStep limit name encode p (x, index) := by
      rw [passStep, passStep, Traced.bind_of_result hr, Traced.bind_of_result hr,
        place_of_fits hplace (Nat.le_trans hle hfits)]
    rw [Traced.foldl_cons, hstep, Traced.bind_of_result hq, Traced.bind_of_result hq, hrest hfits]

theorem pass_of_fits (limit' : Nat) {kind : RecordKind} {items : List α} {records : Array Placed}
    {next : Nat} {p : Progress} (h : (pass limit kind name encode items records next).result = .ok p) :
    next ≤ p.next ∧ (p.next ≤ limit' →
      pass limit' kind name encode items records next = pass limit kind name encode items records next) :=
  foldl_of_fits limit' h

end Pass

variable {c c' : ImageConfig} {g : Graph} {l : Layout}

/-- **A layout is the same under every limit that it fits**, and so is its report. -/
theorem ofGraph_of_fits (h : (ofGraph c g).result = .ok l) (hfits : l.total ≤ c'.limit) :
    ofGraph c' g = ofGraph c g := by
  unfold ofGraph at h ⊢
  obtain ⟨a, ha, h⟩ := Traced.result_bind_eq_ok_iff.mp h
  obtain ⟨i, hi, h⟩ := Traced.result_bind_eq_ok_iff.mp h
  obtain ⟨w, hw, h⟩ := Traced.result_bind_eq_ok_iff.mp h
  cases h
  obtain ⟨-, hasame⟩ := pass_of_fits c'.limit ha
  obtain ⟨hai, hisame⟩ := pass_of_fits c'.limit hi
  obtain ⟨hiw, hwsame⟩ := pass_of_fits c'.limit hw
  have hw' : w.next ≤ c'.limit := hfits
  rw [hasame (by omega), Traced.bind_of_result ha, Traced.bind_of_result ha, hisame (by omega),
    Traced.bind_of_result hi, Traced.bind_of_result hi, hwsame hw']

/-- **The limit only gates.** A layout under one limit is the layout under every limit that it fits. Under
any other limit there is an overflow, and nothing else: more is required than the limit allows, and not
more than the layout takes. -/
theorem limit_only_gates (hs : g.Sized) (h : (ofGraph c g).result = .ok l) :
    (l.total ≤ c'.limit → (ofGraph c' g).result = .ok l) ∧
    (c'.limit < l.total → ∃ required, (ofGraph c' g).result = .error (.overflow required c'.limit) ∧
      c'.limit < required ∧ required ≤ l.total) := by
  have htotal : l.total = g.footprint := ((ofGraph_stops c hs).ok l h).trans g.room_drafts
  refine ⟨fun hfits => by rw [ofGraph_of_fits h hfits, h], fun hover => ?_⟩
  cases h' : (ofGraph c' g).result with
  | ok l' =>
    have hlimit := (ofGraph_rows h').2
    rw [(ofGraph_stops c' hs).ok l' h', g.room_drafts, ← htotal] at hlimit
    omega
  | error e =>
    -- the draft that stops the layout passes under the other limit
    obtain ⟨ys, d, zs, hsplit, he⟩ := exists_draft_of_error hs h'
    rw [Draft.error?_of_passed (error?_of_ok hs h hsplit), Option.ite_none_right_eq_some] at he
    obtain ⟨hlt, he⟩ := he
    cases he
    exact ⟨_, rfl, hlt, htotal ▸ Graph.room_le_footprint hsplit⟩

/-- The zoo takes 240 bytes: it fills a limit of 240 to the last one, and overflows a limit of 239. -/
theorem zoo_fills_240 : Sample.zoo.Sized ∧ ∃ l, (ofGraph {} Sample.zoo).result = .ok l ∧
    (ofGraph { maxBytes := 240 } Sample.zoo).result = .ok l ∧
    ∃ required, (ofGraph { maxBytes := 239 } Sample.zoo).result = .error (.overflow required 239) ∧
      239 < required ∧ required ≤ 240 := by
  have hsized : Sample.zoo.Sized := Graph.sized_of_footprints (by decide) (by decide) (by decide)
  have hok : (ofGraph {} Sample.zoo).result.isOk = true := by decide +kernel
  obtain ⟨l, h⟩ := exists_of_isOk hok
  have htotal : l.total = 240 :=
    ((ofGraph_stops {} hsized).ok l h).trans (Sample.zoo.room_drafts.trans (by decide))
  refine ⟨hsized, l, h, (limit_only_gates hsized h).1 ?_, ?_⟩
  · rw [htotal]
    decide
  · rw [← htotal]
    refine (limit_only_gates hsized h).2 ?_
    rw [htotal]
    decide

end Layout

/-! ## 2. Overflows -/

/-- Pages suffice for the bytes and for the pages asked for at the start. -/
theorem EmitConfig.pagesFor_le_iff {c : EmitConfig} {len pages : Nat} :
    c.pagesFor len ≤ pages ↔ len ≤ pages * pageSize ∧ c.initialPages ≤ pages := by
  have hceil : (len + (pageSize - 1)) / pageSize ≤ pages ↔ len ≤ pages * pageSize := by
    rw [Nat.div_le_iff_le_mul_add_pred (by decide), Nat.add_le_add_iff_right, Nat.mul_comm]
  rw [pagesFor, Nat.max_le, hceil]

section Overflow

variable {g : Graph} {required limit : Nat}

/-- **An image that overflows requires more bytes than its limit**: those of a first part of the
records. -/
theorem Image.overflow_of_ofGraph {c : ImageConfig} (hs : g.Sized)
    (h : (ofGraph c g).result = .error (.overflow required limit)) :
    limit = c.limit ∧ limit < required ∧ required ≤ g.footprint := by
  rcases Traced.result_bind_eq_error_iff.mp h with h | ⟨l, hl, h⟩
  · cases Layout.refused_of_ofGraph hs h with
    | encoding hfault => exact absurd hfault Graph.fault?_ne_overflow
    | size hlt hle => exact ⟨rfl, hlt, hle⟩
  · obtain ⟨⟨as, is, ws, hrows⟩, -⟩ := Layout.ofGraph_rows hl
    obtain ⟨-, ys, entry, zs, i, first, -, -, -, -, he⟩ :=
      contested_of_ofLayout (Layout.sound_of_ofGraph hs hl).1 hrows.encodable.2.2 h
    cases he

/-- **An emission that overflows wants pages**, for the image or for the start. It reports the size of the
image in either case. -/
theorem Program.emit_overflows_iff {c : EmitConfig} {g₀ : Graph} {l : Layout} {img : Image}
    (hb : img.Built g₀ l) : (emit c img g).result = .error (.overflow required limit) ↔
      required = img.size ∧ limit = c.maxPages * pageSize ∧
        (limit < required ∨ c.maxPages < c.initialPages) := by
  have hpages : c.maxPages < c.pagesFor img.size ↔
      c.maxPages * pageSize < img.size ∨ c.maxPages < c.initialPages := by
    rw [← Nat.not_le, EmitConfig.pagesFor_le_iff, not_and_or, Nat.not_le, Nat.not_le]
  rw [emit_eq_error_iff hb]
  refine ⟨fun h => ?_, fun h => ?_⟩
  · rcases h with ⟨hlt, he⟩ | ⟨-, h⟩
    · cases he
      exact ⟨rfl, rfl, hpages.mp hlt⟩
    -- neither a transfer nor an instance is a matter of room
    rcases h with ⟨ts, t, us, stores, -, -, ht⟩ | ⟨stores, mem, ys, i, zs, -, -, -, -, homit⟩
    · obtain ⟨side, target, -, he⟩ := hb.ofTransfer_eq_error_iff.mp ht
      cases he
    · cases homit
  · obtain ⟨rfl, rfl, h⟩ := h
    exact .inl ⟨hpages.mpr h, rfl⟩

namespace Compiler

variable {c : Compiler}

/-- **Every overflow reported is real** exactly if the start asks for no more pages than the maximum, or
the image does exceed the maximum, or there is no image. Otherwise the one report is the size of an
image that fits. -/
theorem overflow_is_real_iff (hs : g.Sized) :
    (∀ required limit, (c.compile g).result = .error (.overflow required limit) → limit < required) ↔
      c.emit.initialPages ≤ c.emit.maxPages ∨ c.emit.maxPages * pageSize < g.footprint ∨
        ∃ e, (Image.ofGraph c.image g).result = .error e := by
  cases himg : (Image.ofGraph c.image g).result with
  | error e =>
    rw [result_of_no_image himg]
    refine iff_of_true (fun required limit he => ?_) (.inr (.inr ⟨e, rfl⟩))
    cases he
    exact (Image.overflow_of_ofGraph hs himg).2.1
  | ok img =>
    obtain ⟨l, -, hb⟩ := Image.built_of_ofGraph hs himg
    have hsize : img.size = g.footprint := Image.size_of_ofGraph hs himg
    simp only [result_of_image himg, Program.emit_overflows_iff hb, hsize]
    refine ⟨fun h => ?_, fun h required limit hover => ?_⟩
    · by_cases hstart : c.emit.initialPages ≤ c.emit.maxPages
      · exact .inl hstart
      · exact .inr (.inl (h _ _ ⟨rfl, rfl, .inr (Nat.lt_of_not_le hstart)⟩))
    · obtain ⟨rfl, rfl, hlt | hstart⟩ := hover
      · exact hlt
      · rcases h with hle | hlt | ⟨e, he⟩
        · exact absurd hle (Nat.not_le_of_lt hstart)
        · exact hlt
        · cases he

/-- A cat for which there is no page at all: its overflow is real. -/
theorem pageless_cat_overflows : Sample.cat.Sized ∧ ∃ required limit,
    (compile { emit := { initialPages := 0, maxPages := 0 } } Sample.cat).result =
      .error (.overflow required limit) ∧ limit < required := by
  have hsized : Sample.cat.Sized := Graph.sized_of_footprints (by decide) (by decide) (by decide)
  have herror : (fun _ => ()) <$>
      (compile { emit := { initialPages := 0, maxPages := 0 } } Sample.cat).result =
        .error (.overflow 57 0) := by decide +kernel
  rw [map_eq_error_iff] at herror
  exact ⟨hsized, _, _, herror, (overflow_is_real_iff hsized).mpr (.inl (Nat.le_refl 0)) _ _ herror⟩

/-- **A cat that fits is reported to overflow**: its 57 bytes fit into the one page allowed, but two pages
are asked for at the start. -/
theorem fitting_cat_overflows : Sample.cat.Sized ∧
    (compile { emit := { initialPages := 2, maxPages := 1 } } Sample.cat).result =
      .error (.overflow 57 65536) ∧ ¬ 65536 < 57 := by
  have hsized : Sample.cat.Sized := Graph.sized_of_footprints (by decide) (by decide) (by decide)
  have herror : (fun _ => ()) <$>
      (compile { emit := { initialPages := 2, maxPages := 1 } } Sample.cat).result =
        .error (.overflow 57 65536) := by decide +kernel
  exact ⟨hsized, map_eq_error_iff.mp herror, by decide⟩

end Compiler

end Overflow

end Menagerie
