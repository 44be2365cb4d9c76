import Mathlib.Algebra.Ring.Nat
import Mathlib.Data.List.Forall2
import Menagerie.Traced

/-! # Outcomes of longer computations

A computation that works through a list succeeds exactly when each of its steps does:

* `bind_eq_ok_iff` -- one computation after another;
* `mapM_eq_ok_iff` -- **a list of computations succeeds exactly when all of them do**, and the
  outcomes stand in the same order (`List.Forall₂`);
* `Traced.result_bind_eq_ok_iff`, `Traced.result_mapM_eq_ok_iff` -- the same of computations that keep
  a report: the report never decides anything.

It fails with the error of the first step that fails:

* `mapM_eq_error_iff`, `Traced.result_foldl_eq_error_iff` -- **the steps before it succeed**, and those
  after it do not matter;
* `Traced.StopsAt` -- the same of a whole computation, with the errors of all its steps listed:
  **computations in a row stop with the first error of all their lists** (`StopsAt.bind`).
-/

namespace Menagerie

section Plain

variable {ε α β : Type}

theorem bind_eq_ok_iff {x : Except ε α} {f : α → Except ε β} {b : β} :
    (x >>= f) = .ok b ↔ ∃ a, x = .ok a ∧ f a = .ok b := by
  cases x with
  | error e =>
    constructor
    · intro h
      cases h
    · rintro ⟨a, h, -⟩
      cases h
  | ok a =>
    constructor
    · intro h
      exact ⟨a, rfl, h⟩
    · rintro ⟨a', h, hf⟩
      cases h
      exact hf

theorem bind_eq_error_iff {x : Except ε α} {f : α → Except ε β} {e : ε} :
    (x >>= f) = .error e ↔ x = .error e ∨ ∃ a, x = .ok a ∧ f a = .error e := by
  cases x with
  | error e' =>
    constructor
    · intro h
      cases h
      exact .inl rfl
    · intro h
      rcases h with h | ⟨a, ha, -⟩
      · cases h
        rfl
      · cases ha
  | ok a =>
    constructor
    · intro h
      exact .inr ⟨a, rfl, h⟩
    · intro h
      rcases h with h | ⟨b, hb, h⟩
      · cases h
      · cases hb
        exact h

theorem exists_of_isOk {x : Except ε α} (h : x.isOk = true) : ∃ a, x = .ok a := by
  cases x with
  | error e => cases h
  | ok a => exact ⟨a, rfl⟩

theorem map_eq_error_iff {x : Except ε α} {f : α → β} {e : ε} : f <$> x = .error e ↔ x = .error e := by
  cases x <;> simp

theorem mapM_eq_ok_iff {f : α → Except ε β} {xs : List α} {ys : List β} :
    xs.mapM f = .ok ys ↔ List.Forall₂ (fun x y => f x = .ok y) xs ys := by
  induction xs generalizing ys with
  | nil =>
    rw [List.mapM_nil, List.forall₂_nil_left_iff]
    constructor
    · intro h
      cases h
      rfl
    · rintro rfl
      rfl
  | cons x xs ih =>
    rw [List.mapM_cons, bind_eq_ok_iff, List.forall₂_cons_left_iff]
    constructor
    · rintro ⟨y, hy, h⟩
      obtain ⟨zs, hzs, h⟩ := bind_eq_ok_iff.mp h
      cases h
      exact ⟨y, zs, hy, ih.mp hzs, rfl⟩
    · rintro ⟨y, zs, hy, hzs, rfl⟩
      exact ⟨y, hy, bind_eq_ok_iff.mpr ⟨zs, ih.mpr hzs, rfl⟩⟩

/-- **A list of computations fails with the error of the first one that fails.** -/
theorem mapM_eq_error_iff {f : α → Except ε β} {xs : List α} {e : ε} :
    xs.mapM f = .error e ↔ ∃ ys x zs os, xs = ys ++ x :: zs ∧
      List.Forall₂ (fun x o => f x = .ok o) ys os ∧ f x = .error e := by
  induction xs with
  | nil =>
    refine ⟨fun h => (by cases h), fun ⟨ys, x, zs, os, h, _⟩ => ?_⟩
    exact absurd h.symm (List.append_ne_nil_of_right_ne_nil ys (List.cons_ne_nil x zs))
  | cons x xs ih =>
    rw [List.mapM_cons, bind_eq_error_iff]
    constructor
    · intro h
      rcases h with hx | ⟨o, ho, h⟩
      · exact ⟨[], x, xs, [], rfl, .nil, hx⟩
      · rcases bind_eq_error_iff.mp h with h | ⟨os, _, h⟩
        · obtain ⟨ys, y, zs, os, hxs, hos, hy⟩ := ih.mp h
          exact ⟨x :: ys, y, zs, o :: os, by rw [hxs, List.cons_append], .cons ho hos, hy⟩
        · cases h
    · intro ⟨ys, y, zs, os, hxs, hos, hy⟩
      rcases List.cons_eq_append_iff.mp hxs with ⟨hys, hcons⟩ | ⟨ys', hys, hxs'⟩
      · rw [(List.cons.inj hcons).1] at hy
        exact .inl hy
      · rw [hys] at hos
        obtain ⟨o, os', ho, hos', -⟩ := List.forall₂_cons_left_iff.mp hos
        exact .inr ⟨o, ho, bind_eq_error_iff.mpr (.inl (ih.mpr ⟨ys', y, zs, os', hxs', hos', hy⟩))⟩

variable {R : α → β → Prop} {xs : List α} {ys : List β}

/-- Where every element has a partner, the list has a list of partners. -/
theorem exists_forall₂ (h : ∀ x ∈ xs, ∃ y, R x y) : ∃ ys, List.Forall₂ R xs ys := by
  induction xs with
  | nil => exact ⟨[], .nil⟩
  | cons x xs ih =>
    obtain ⟨y, hy⟩ := h x List.mem_cons_self
    obtain ⟨ys, hys⟩ := ih fun z hz => h z (List.mem_cons_of_mem x hz)
    exact ⟨y :: ys, .cons hy hys⟩

theorem forall₂_getElem?_left (h : List.Forall₂ R xs ys) {n : Nat} {x : α} (hx : xs[n]? = some x) :
    ∃ y, ys[n]? = some y ∧ R x y := by
  obtain ⟨hn, rfl⟩ := List.getElem?_eq_some_iff.mp hx
  have hn' : n < ys.length := h.length_eq ▸ hn
  exact ⟨ys[n], List.getElem?_eq_getElem hn', h.get hn hn'⟩

theorem forall₂_getElem?_right (h : List.Forall₂ R xs ys) {n : Nat} {y : β} (hy : ys[n]? = some y) :
    ∃ x, xs[n]? = some x ∧ R x y :=
  forall₂_getElem?_left h.flip hy

theorem forall₂_of_mem_left (h : List.Forall₂ R xs ys) {x : α} (hx : x ∈ xs) : ∃ y ∈ ys, R x y := by
  obtain ⟨n, hn⟩ := List.mem_iff_getElem?.mp hx
  obtain ⟨y, hy, hr⟩ := forall₂_getElem?_left h hn
  exact ⟨y, List.mem_of_getElem? hy, hr⟩

theorem forall₂_of_mem_right (h : List.Forall₂ R xs ys) {y : β} (hy : y ∈ ys) : ∃ x ∈ xs, R x y :=
  forall₂_of_mem_left h.flip hy

/-- Two lists of one length, related place by place. -/
theorem forall₂_zipIdx {S : α × Nat → β → Prop} (hl : xs.length = ys.length)
    (h : ∀ n x y, xs[n]? = some x → ys[n]? = some y → S (x, n) y) : List.Forall₂ S xs.zipIdx ys := by
  refine List.forall₂_of_length_eq_of_get (by rw [List.length_zipIdx, hl]) fun n hn hn' => ?_
  rw [List.get_eq_getElem, List.get_eq_getElem, List.getElem_zipIdx, Nat.zero_add]
  exact h n _ _ (List.getElem?_eq_getElem _) (List.getElem?_eq_getElem hn')

end Plain

/-! ## Computations that keep a report -/

namespace Traced

variable {α β : Type}

@[simp] theorem result_pure (a : α) : (pure a : Traced α).result = .ok a := rfl

@[simp] theorem result_lift (x : Except CompileError α) : (monadLift x : Traced α).result = x := rfl

@[simp] theorem result_log (e : Event) : (log e).result = .ok () := rfl

@[simp] theorem result_fail (e : CompileError) : (fail e : Traced α).result = .error e := rfl

/-- After a success the reports stand one after the other. -/
theorem bind_of_result {x : Traced α} {a : α} (h : x.result = .ok a) (f : α → Traced β) :
    (x >>= f) = ⟨x.events ++ (f a).events, (f a).result⟩ := by
  rcases x with ⟨es, r⟩
  cases h
  rfl

theorem result_bind_of_ok {x : Traced α} {a : α} (h : x.result = .ok a) (f : α → Traced β) :
    (x >>= f).result = (f a).result := by
  rw [bind_of_result h]

theorem events_bind_of_ok {x : Traced α} {a : α} (h : x.result = .ok a) (f : α → Traced β) :
    (x >>= f).events = x.events ++ (f a).events := by
  rw [bind_of_result h]

theorem result_bind_eq_ok_iff {x : Traced α} {f : α → Traced β} {b : β} :
    (x >>= f).result = .ok b ↔ ∃ a, x.result = .ok a ∧ (f a).result = .ok b := by
  rw [result_bind, bind_eq_ok_iff]

theorem result_map (f : α → β) (x : Traced α) : (f <$> x).result = f <$> x.result := by
  rcases x with ⟨es, r⟩
  cases r <;> rfl

theorem result_mapM (f : α → Traced β) (xs : List α) :
    (mapM f xs).result = xs.mapM fun x => (f x).result := by
  induction xs with
  | nil => rfl
  | cons x xs ih =>
    rw [mapM_cons, result_bind, List.mapM_cons]
    refine congrArg _ (funext fun y => ?_)
    rw [result_map, ih, map_eq_pure_bind]

theorem result_mapM_eq_ok_iff {f : α → Traced β} {xs : List α} {ys : List β} :
    (mapM f xs).result = .ok ys ↔ List.Forall₂ (fun x y => (f x).result = .ok y) xs ys := by
  rw [result_mapM, mapM_eq_ok_iff]

theorem result_bind_eq_error_iff {x : Traced α} {f : α → Traced β} {e : CompileError} :
    (x >>= f).result = .error e ↔
      x.result = .error e ∨ ∃ a, x.result = .ok a ∧ (f a).result = .error e := by
  rw [result_bind, bind_eq_error_iff]

/-- **A walk over a list fails at the first step that fails**, from where the steps before it led. -/
theorem result_foldl_eq_error_iff {f : β → α → Traced β} {b : β} {xs : List α} {e : CompileError} :
    (foldl f b xs).result = .error e ↔ ∃ ys x zs b', xs = ys ++ x :: zs ∧
      (foldl f b ys).result = .ok b' ∧ (f b' x).result = .error e := by
  induction xs generalizing b with
  | nil =>
    refine ⟨fun h => (by cases h), fun ⟨ys, x, zs, b', h, _⟩ => ?_⟩
    exact absurd h.symm (List.append_ne_nil_of_right_ne_nil ys (List.cons_ne_nil x zs))
  | cons x xs ih =>
    rw [foldl_cons, result_bind_eq_error_iff]
    constructor
    · intro h
      rcases h with hx | ⟨b₁, hb₁, h⟩
      · exact ⟨[], x, xs, b, rfl, rfl, hx⟩
      · obtain ⟨ys, y, zs, b', hxs, hys, hy⟩ := ih.mp h
        refine ⟨x :: ys, y, zs, b', by rw [hxs, List.cons_append], ?_, hy⟩
        rw [foldl_cons, result_bind_eq_ok_iff]
        exact ⟨b₁, hb₁, hys⟩
    · intro ⟨ys, y, zs, b', hxs, hys, hy⟩
      rcases List.cons_eq_append_iff.mp hxs with ⟨hnil, hcons⟩ | ⟨ys', hcons, hxs'⟩
      · rw [hnil] at hys
        rw [← Except.ok.inj hys, (List.cons.inj hcons).1] at hy
        exact .inl hy
      · rw [hcons, foldl_cons, result_bind_eq_ok_iff] at hys
        obtain ⟨b₁, hb₁, hys⟩ := hys
        exact .inr ⟨b₁, hb₁, ih.mpr ⟨ys', y, zs, b', hxs', hys, hy⟩⟩

/-- A computation stops with the first of some errors, and has an outcome of a kind if there are none. -/
structure StopsAt (x : Traced α) (errors : List CompileError) (P : α → Prop) : Prop where
  error : ∀ e, x.result = .error e ↔ errors.head? = some e
  ok : ∀ a, x.result = .ok a → P a

namespace StopsAt

variable {x : Traced α} {errors : List CompileError} {P : α → Prop}

theorem pure {a : α} (h : P a) : (pure a : Traced α).StopsAt [] P := by
  refine ⟨fun e => iff_of_false (fun he => ?_) fun he => ?_, fun b hb => ?_⟩
  · cases he
  · cases he
  · cases hb
    exact h

theorem imp (h : x.StopsAt errors P) {Q : α → Prop} (hQ : ∀ a, P a → Q a) : x.StopsAt errors Q :=
  ⟨h.error, fun a ha => hQ a (h.ok a ha)⟩

theorem nil_of_ok (h : x.StopsAt errors P) {a : α} (ha : x.result = .ok a) : errors = [] := by
  cases errors with
  | nil => rfl
  | cons e errors =>
    rw [(h.error e).mpr rfl] at ha
    cases ha

/-- **One computation after another stops with what stops the first**, or else the second. -/
theorem bind (h : x.StopsAt errors P) {f : α → Traced β} {errors' : List CompileError} {Q : β → Prop}
    (hf : ∀ a, x.result = .ok a → P a → (f a).StopsAt errors' Q) :
    (x >>= f).StopsAt (errors ++ errors') Q := by
  cases hx : x.result with
  | error e =>
    have hhead : (errors ++ errors').head? = some e := by
      rw [List.head?_append, (h.error e).mp hx, Option.some_or]
    have hstop : (x >>= f).result = .error e := result_bind_eq_error_iff.mpr (.inl hx)
    refine ⟨fun e' => ?_, fun b hb => ?_⟩
    · rw [hstop, hhead, Except.error.injEq, Option.some.injEq]
    · rw [hstop] at hb
      cases hb
  | ok a =>
    have hrest := hf a hx (h.ok a hx)
    rw [h.nil_of_ok hx, List.nil_append]
    refine ⟨fun e => ?_, fun b hb => ?_⟩
    · rw [result_bind_of_ok hx, hrest.error]
    · rw [result_bind_of_ok hx] at hb
      exact hrest.ok b hb

end StopsAt

end Traced

end Menagerie
