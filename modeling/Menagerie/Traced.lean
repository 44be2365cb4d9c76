import Menagerie.Event

/-! # Computations that keep a report

A `Traced α` is a computation that may fail and keeps a list of events on the way: the events up
to the failure are kept too. `Traced` is a monad; running one computation after another appends
their reports, and a failure ends everything after it.

Lists are walked by `Traced.foldl` and `Traced.mapM`. **Both obey the plain recursion equations**
(`foldl_cons`, `mapM_cons`); they are written with the report collected backwards so that a long
list takes linear time.
-/

namespace Menagerie

/-- The report of a computation and its outcome. -/
structure Traced (α : Type) where
  events : List Event
  result : Except CompileError α

namespace Traced

variable {α β γ : Type}

@[ext] theorem ext_parts {x y : Traced α} (he : x.events = y.events) (hr : x.result = y.result) :
    x = y := by
  cases x; cases y; cases he; cases hr; rfl

/-! ## 1. The monad -/

/-- A computation that only has an outcome. -/
def ofExcept (r : Except CompileError α) : Traced α := ⟨[], r⟩

/-- One computation after another. -/
protected def bind (x : Traced α) (f : α → Traced β) : Traced β :=
  match x.result with
  | .ok a =>
    let y := f a
    ⟨x.events ++ y.events, y.result⟩
  | .error e => ⟨x.events, .error e⟩

instance : Monad Traced where
  pure a := ofExcept (.ok a)
  bind := Traced.bind

instance : MonadLift (Except CompileError) Traced := ⟨ofExcept⟩

/-- Adds one event to the report. -/
def log (e : Event) : Traced Unit := ⟨[e], .ok ()⟩

/-- Fails with an error. -/
def fail (e : CompileError) : Traced α := ofExcept (.error e)

theorem pure_def (a : α) : (pure a : Traced α) = ⟨[], .ok a⟩ := rfl

theorem bind_ok (es : List Event) (a : α) (f : α → Traced β) :
    ((⟨es, .ok a⟩ : Traced α) >>= f) = ⟨es ++ (f a).events, (f a).result⟩ := rfl

theorem bind_error (es : List Event) (e : CompileError) (f : α → Traced β) :
    ((⟨es, .error e⟩ : Traced α) >>= f) = ⟨es, .error e⟩ := rfl

/-- **The outcome of a sequence is the sequence of the outcomes.** -/
theorem result_bind (x : Traced α) (f : α → Traced β) :
    (x >>= f).result = x.result >>= fun a => (f a).result := by
  rcases x with ⟨es, r⟩
  cases r <;> rfl

theorem map_id_eq (x : Traced α) : id <$> x = x := by
  rcases x with ⟨es, r⟩
  cases r
  · rfl
  · exact ext_parts (List.append_nil es) rfl

theorem pure_bind_eq (a : α) (f : α → Traced β) : (pure a >>= f) = f a :=
  ext_parts (List.nil_append _) rfl

theorem bind_assoc_eq (x : Traced α) (f : α → Traced β) (g : β → Traced γ) :
    (x >>= f) >>= g = x >>= fun a => f a >>= g := by
  rcases x with ⟨es, r⟩
  cases r with
  | error e => rfl
  | ok a =>
    simp only [bind_ok]
    rcases f a with ⟨es', r'⟩
    cases r' with
    | error e => rfl
    | ok b => exact ext_parts (List.append_assoc _ _ _) rfl

instance : LawfulMonad Traced :=
  LawfulMonad.mk' Traced map_id_eq pure_bind_eq bind_assoc_eq

/-! ## 2. Walking lists -/

/-- The walk behind `foldl`; `log` is the report so far, latest event first. -/
def foldlFrom (f : β → α → Traced β) (log : List Event) (b : β) : List α → Traced β
  | [] => ⟨log.reverse, .ok b⟩
  | x :: xs =>
    match f b x with
    | ⟨es, .ok b'⟩ => foldlFrom f (es.reverseAux log) b' xs
    | ⟨es, .error e⟩ => ⟨(es.reverseAux log).reverse, .error e⟩

/-- Folds a computation over a list from the left. -/
def foldl (f : β → α → Traced β) (b : β) (xs : List α) : Traced β :=
  foldlFrom f [] b xs

theorem foldlFrom_eq (f : β → α → Traced β) (log : List Event) (b : β) (xs : List α) :
    foldlFrom f log b xs = ⟨log.reverse ++ (foldl f b xs).events, (foldl f b xs).result⟩ := by
  induction xs generalizing log b with
  | nil => simp [foldl, foldlFrom]
  | cons x xs ih =>
    simp only [foldl, foldlFrom]
    rcases f b x with ⟨es, r⟩
    cases r with
    | error e => simp [List.reverseAux_eq]
    | ok b' => simp only [ih (es.reverseAux log), ih (es.reverseAux [])]; simp [List.reverseAux_eq]

@[simp] theorem foldl_nil (f : β → α → Traced β) (b : β) : foldl f b [] = pure b := rfl

theorem foldl_cons (f : β → α → Traced β) (b : β) (x : α) (xs : List α) :
    foldl f b (x :: xs) = f b x >>= fun b' => foldl f b' xs := by
  rw [foldl, foldlFrom]
  rcases f b x with ⟨es, r⟩
  cases r with
  | error e => simp [bind_error]
  | ok b' => simp only [bind_ok, foldlFrom_eq]; simp

/-- The walk behind `mapM`; `ys` are the outcomes so far, latest first. -/
def mapMFrom (f : α → Traced β) (ys : List β) (xs : List α) : Traced (List β) :=
  List.reverse <$> foldl (fun acc x => f x >>= fun y => pure (y :: acc)) ys xs

/-- Runs a computation on every element of a list and collects the outcomes. -/
def mapM (f : α → Traced β) (xs : List α) : Traced (List β) :=
  mapMFrom f [] xs

theorem mapMFrom_eq (f : α → Traced β) (ys : List β) (xs : List α) :
    mapMFrom f ys xs = (ys.reverse ++ ·) <$> mapM f xs := by
  induction xs generalizing ys with
  | nil => simp [mapM, mapMFrom]
  | cons x xs ih =>
    have step (zs : List β) : mapMFrom f zs (x :: xs) = f x >>= fun y => mapMFrom f (y :: zs) xs := by
      simp [mapMFrom, foldl_cons, map_bind]
    rw [mapM, step, step, map_bind]
    refine bind_congr fun y => ?_
    rw [ih (y :: ys), ih [y]]
    simp

@[simp] theorem mapM_nil (f : α → Traced β) : mapM f [] = pure [] := rfl

theorem mapM_cons (f : α → Traced β) (x : α) (xs : List α) :
    mapM f (x :: xs) = f x >>= fun y => (y :: ·) <$> mapM f xs := by
  rw [mapM, mapMFrom, foldl_cons, bind_assoc, map_bind]
  refine bind_congr fun y => ?_
  rw [pure_bind]
  exact mapMFrom_eq f [y] xs

end Traced

end Menagerie
