import Mathlib.Data.List.Nodup
import Std.Data.String.ToNat
import Menagerie.Proofs.Encoding
import Menagerie.Random.Recipe

/-! # What a recipe draws

Every text, number and name of a random graph is drawn from a source. Whatever the source hands out,
as long as each draw stays in its range:

* `Draws` -- what a computation draws from every state;
* `Draws.mapM_range` -- draws one after another make a series, with one entry for each position;
* `Recipe.NameAt`, `Recipe.NameAt.index_eq` -- **a name tells its position**, though its text may hold digits
  and dashes of its own;
* `Recipe.Yields`, `Recipe.draw_yields` -- **what is known of a drawn graph**: names that tell positions,
  texts that have bytes, references in range, and worlds that list those whose home they are.
-/

namespace Menagerie

/-! ## 1. Draws from any state -/

/-- What a computation hands out has a property, from whatever state it starts. -/
def Draws {σ α : Type} (m : StateM σ α) (P : α → Prop) : Prop := ∀ s, P (m s).1

/-- A series of `n` entries, each related to its position. -/
structure Series {α : Type} (n : Nat) (R : Nat → α → Prop) (xs : List α) : Prop where
  length_eq : xs.length = n
  entry : ∀ i x, xs[i]? = some x → R i x

namespace Series

variable {α β : Type} {n : Nat} {R : Nat → α → Prop} {xs : List α}

theorem lt_of_getElem? (h : Series n R xs) {i : Nat} {x : α} (hx : xs[i]? = some x) : i < n := by
  obtain ⟨hi, -⟩ := List.getElem?_eq_some_iff.mp hx
  exact h.length_eq ▸ hi

theorem of_mem (h : Series n R xs) {x : α} (hx : x ∈ xs) : ∃ i, i < n ∧ R i x := by
  obtain ⟨i, hi⟩ := List.mem_iff_getElem?.mp hx
  exact ⟨i, h.lt_of_getElem? hi, h.entry i x hi⟩

/-- There is an entry at each position. -/
theorem exists_getElem? (h : Series n R xs) {i : Nat} (hi : i < n) : ∃ x, xs[i]? = some x :=
  ⟨_, List.getElem?_eq_getElem (h.length_eq ▸ hi)⟩

theorem map (h : Series n R xs) (f : α → β) {S : Nat → β → Prop} (hS : ∀ i x, R i x → S i (f x)) :
    Series n S (xs.map f) := by
  refine ⟨by rw [List.length_map, h.length_eq], fun i y hy => ?_⟩
  rw [List.getElem?_map] at hy
  obtain ⟨x, hx, rfl⟩ := Option.map_eq_some_iff.mp hy
  exact hS i x (h.entry i x hx)

end Series

namespace Draws

variable {σ α β : Type} {P : α → Prop} {Q : β → Prop}

theorem pure {a : α} (h : P a) : Draws (pure a : StateM σ α) P := fun _ => h

theorem bind {m : StateM σ α} {f : α → StateM σ β} (h : Draws m P) (hf : ∀ a, P a → Draws (f a) Q) :
    Draws (m >>= f) Q :=
  fun s => hf _ (h s) _

/-- One draw after another relates each result to its cause. -/
theorem mapM {f : α → StateM σ β} {R : α → β → Prop} {xs : List α}
    (h : ∀ x ∈ xs, Draws (f x) (R x)) : Draws (xs.mapM f) (List.Forall₂ R xs) := by
  induction xs with
  | nil => exact pure .nil
  | cons x xs ih =>
    obtain ⟨hx, hxs⟩ := List.forall_mem_cons.mp h
    rw [List.mapM_cons]
    exact hx.bind fun y hy => (ih hxs).bind fun ys hys => pure (.cons hy hys)

/-- **Draws for the positions below `n` make a series.** -/
theorem mapM_range {f : Nat → StateM σ β} {R : Nat → β → Prop} {n : Nat}
    (h : ∀ i, i < n → Draws (f i) (R i)) : Draws ((List.range n).mapM f) (Series n R) := by
  intro s
  have hall := mapM (fun i hi => h i (List.mem_range.mp hi)) s
  refine ⟨hall.length_eq.symm.trans List.length_range, fun i y hy => ?_⟩
  obtain ⟨j, hj, hR⟩ := forall₂_getElem?_right hall hy
  obtain ⟨hi, hij⟩ := List.getElem?_eq_some_iff.mp hj
  rw [List.getElem_range hi] at hij
  exact hij ▸ hR

end Draws

/-! ## 2. Names -/

/-- The digits of a number end at a dash. -/
theorem takeWhile_digits (n : Nat) (cs : List Char) :
    (Nat.toDigits 10 n ++ '-' :: cs).takeWhile Char.isDigit = Nat.toDigits 10 n := by
  have hdigits : ∀ d ∈ Nat.toDigits 10 n, d.isDigit := fun d hd =>
    Nat.isDigit_of_mem_toDigits (by decide) (by decide) hd
  rw [List.takeWhile_append_of_pos hdigits, List.takeWhile_cons_of_neg (by decide), List.append_nil]

theorem Bytes.fits_append {s t : String} : Fits (s ++ t) ↔ Fits s ∧ Fits t := by
  rw [Fits, String.toList_append, List.forall_mem_append]
  rfl

theorem Bytes.fits_toString (n : Nat) : Fits (toString n) := by
  intro d hd
  rw [Nat.toString_eq_repr, Nat.toList_repr] at hd
  have hdigit := Nat.isDigit_of_mem_toDigits (by decide) (by decide) hd
  have hle : d.toNat ≤ 57 := (Char.isDigit_iff_toNat.mp hdigit).2
  simp only [fits, decide_eq_true_eq]
  omega

namespace Recipe

variable {r : Recipe} {letter name : String} {i j : Nat}

/-- A text that a recipe allows: its characters have bytes, and there are not too many. -/
structure Allows (r : Recipe) (s : String) : Prop where
  fits : Bytes.Fits s
  length_le : s.length ≤ r.maxText

/-- A name that a recipe gives at a position. -/
def NameAt (r : Recipe) (letter : String) (index : Nat) (name : String) : Prop :=
  ∃ s, r.Allows s ∧ name = letter ++ toString index ++ "-" ++ s

namespace NameAt

/-- **A name tells its position**: what stands between the letter and the first dash is its digits. -/
theorem index_eq (hi : r.NameAt letter i name) (hj : r.NameAt letter j name) : i = j := by
  obtain ⟨s, -, rfl⟩ := hi
  obtain ⟨t, -, h⟩ := hj
  have hchars : Nat.toDigits 10 i ++ '-' :: s.toList = Nat.toDigits 10 j ++ '-' :: t.toList := by
    simpa using congrArg String.toList h
  have hdigits : Nat.toDigits 10 i = Nat.toDigits 10 j := by
    rw [← takeWhile_digits i s.toList, hchars, takeWhile_digits]
  exact Nat.repr_inj.mp (congrArg String.ofList hdigits)

theorem fits (h : r.NameAt letter i name) (hl : Bytes.Fits letter) : Bytes.Fits name := by
  obtain ⟨s, hs, rfl⟩ := h
  have hdash : Bytes.Fits "-" := by decide
  exact Bytes.fits_append.mpr ⟨Bytes.fits_append.mpr ⟨Bytes.fits_append.mpr
    ⟨hl, Bytes.fits_toString i⟩, hdash⟩, hs.fits⟩

/-- The position takes as many digits as it needs. -/
theorem length_le (h : r.NameAt letter i name) {digits : Nat} (hd : 0 < digits)
    (hi : i < 10 ^ digits) : name.length ≤ letter.length + digits + 1 + r.maxText := by
  obtain ⟨s, hs, rfl⟩ := h
  have hlen : (toString i).length ≤ digits := (Nat.length_repr_le_iff hd).mpr hi
  have hdash : "-".length = 1 := rfl
  have := hs.length_le
  rw [String.length_append, String.length_append, String.length_append, hdash]
  omega

end NameAt

/-- **Names that tell their positions differ.** -/
theorem nodup_of_nameAt {n : Nat} {names : List String} (h : Series n (r.NameAt letter) names) :
    names.Nodup := by
  refine List.nodup_iff_getElem?_ne_getElem?.mpr fun i j hij hj heq => ?_
  have hname : names[j]? = some names[j] := List.getElem?_eq_getElem hj
  have hpos : i = j := (h.entry i _ (heq.trans hname)).index_eq (h.entry j _ hname)
  omega

/-! ## 3. Graphs -/

/-- All settings of a recipe are numbers that a word can hold. -/
structure InWords (r : Recipe) : Prop where
  animals : r.animals < 2 ^ 32
  instances : r.instances < 2 ^ 32
  worlds : r.worlds < 2 ^ 32
  transfers : r.transfers < 2 ^ 32
  maxText : r.maxText < 2 ^ 32

theorem provided_pos (h : 0 < r.instances) (n : Nat) : 0 < r.provided n := by
  rw [provided, if_pos h]
  omega

theorem provided_le {n : Nat} (h : n < 2 ^ 32) : r.provided n ≤ 2 ^ 32 := by
  unfold provided
  split <;> omega

/-- An animal that a recipe gives at a position. -/
def AnimalAt (r : Recipe) (n : Nat) (a : Animal) : Prop :=
  r.NameAt "a" n a.name ∧ r.Allows a.gene ∧ r.Allows a.sound

/-- An instance that a recipe gives at a position: its species is there. -/
def InstAt (r : Recipe) (n : Nat) (i : Instance) : Prop :=
  r.NameAt "i" n i.name ∧ i.species.index < r.provided r.animals

/-- A world that a recipe gives at a position: it lists those whose home it is. -/
def WorldAt (r : Recipe) (homes : List Nat) (n : Nat) (w : World) : Prop :=
  r.NameAt "w" n w.name ∧ w.contains = residents homes n

/-- A transfer between an instance and a world that are there. -/
def Moves (r : Recipe) (t : Transfer) : Prop :=
  t.subject.index < r.instances ∧ t.destination.index < r.provided r.worlds

/-- **What is known of a graph drawn after a recipe.** Every instance has a home among the worlds. -/
structure Yields (r : Recipe) (g : Graph) : Prop where
  inWords : r.InWords
  animals : Series (r.provided r.animals) r.AnimalAt g.animals.toList
  instances : Series r.instances r.InstAt g.instances.toList
  worlds : ∃ homes, Series r.instances (fun _ home => home < r.provided r.worlds) homes ∧
    Series (r.provided r.worlds) (r.WorldAt homes) g.worlds.toList
  transfers : Series (if 0 < r.instances then r.transfers else 0) (fun _ => r.Moves) g.transfers.toList

section Source

variable {σ : Type} {src : Source σ} {n : Nat}

theorem draws_below (hsrc : src.InRange) (hn : 0 < n) (hle : n ≤ 2 ^ 32) :
    Draws (src.below n) (· < n) :=
  fun s => hsrc n s hn hle

theorem draws_text (hsrc : src.InRange) (hr : r.InWords) : Draws (r.text src) r.Allows := by
  refine (draws_below hsrc (Nat.succ_pos _) hr.maxText).bind fun len hlen => ?_
  refine (Draws.mapM_range (R := fun _ _ => True) fun _ _ _ => trivial).bind fun bytes hbytes => ?_
  refine .pure ⟨fun c hc => ?_, ?_⟩
  · rw [String.toList_ofList] at hc
    obtain ⟨b, -, rfl⟩ := List.mem_map.mp hc
    exact Bytes.fits_charOf b
  · rw [String.length_ofList, List.length_map, hbytes.length_eq]
    exact Nat.le_of_lt_succ hlen

theorem draws_name (hsrc : src.InRange) (hr : r.InWords) (letter : String) (n : Nat) :
    Draws (r.name src letter n) (r.NameAt letter n) :=
  (draws_text hsrc hr).bind fun s hs => .pure ⟨s, hs, rfl⟩

theorem draws_animal (hsrc : src.InRange) (hr : r.InWords) (n : Nat) :
    Draws (r.animal src n) (r.AnimalAt n) := by
  refine (draws_name hsrc hr "a" n).bind fun name hname => ?_
  refine (draws_text hsrc hr).bind fun gene hgene => ?_
  exact (draws_text hsrc hr).bind fun sound hsound => .pure ⟨hname, hgene, hsound⟩

/-- Where there are instances, there are species and worlds to choose from. -/
theorem draws_inst (hsrc : src.InRange) (hr : r.InWords) (hsome : 0 < r.instances) (n : Nat) :
    Draws (r.inst src (r.provided r.animals) (r.provided r.worlds) n)
      fun x => r.InstAt n x.1 ∧ x.2 < r.provided r.worlds := by
  refine (draws_below hsrc (provided_pos hsome _) (provided_le hr.animals)).bind fun a ha => ?_
  refine (draws_name hsrc hr "i" n).bind fun name hname => ?_
  refine (draws_below hsrc (provided_pos hsome _) (provided_le hr.worlds)).bind fun home hhome => ?_
  exact .pure ⟨⟨hname, Ref.index_ofNat_lt ha⟩, hhome⟩

theorem draws_world (hsrc : src.InRange) (hr : r.InWords) (homes : List Nat) (n : Nat) :
    Draws (r.world src homes n) (r.WorldAt homes n) :=
  (draws_name hsrc hr "w" n).bind fun _ hname => .pure ⟨hname, rfl⟩

theorem draws_transfer (hsrc : src.InRange) (hr : r.InWords) (hsome : 0 < r.instances) :
    Draws (r.transfer src (r.provided r.worlds)) r.Moves := by
  refine (draws_below hsrc hsome (Nat.le_of_lt hr.instances)).bind fun i hi => ?_
  refine (draws_below hsrc (provided_pos hsome _) (provided_le hr.worlds)).bind fun w hw => ?_
  exact .pure ⟨Ref.index_ofNat_lt hi, Ref.index_ofNat_lt hw⟩

/-- **A drawn graph is as its recipe says**, whatever the source hands out within the ranges. -/
theorem draw_yields (hsrc : src.InRange) (hr : r.InWords) : Draws (r.draw src) r.Yields := by
  dsimp only [draw]
  refine (Draws.mapM_range fun n _ => draws_animal hsrc hr n).bind fun animals hanimals => ?_
  refine (Draws.mapM_range fun n hn =>
    draws_inst hsrc hr (Nat.zero_lt_of_lt hn) n).bind fun housed hhoused => ?_
  refine (Draws.mapM_range fun n _ => draws_world hsrc hr _ n).bind fun worlds hworlds => ?_
  refine (Draws.mapM_range (R := fun _ => r.Moves) fun n hn => ?_).bind fun transfers htransfers => ?_
  · have hsome : 0 < r.instances := by
      by_contra hnone
      rw [if_neg hnone] at hn
      exact Nat.not_lt_zero n hn
    exact draws_transfer hsrc hr hsome
  exact .pure ⟨hr, hanimals, hhoused.map (·.1) fun _ _ hx => hx.1,
    ⟨housed.map (·.2), hhoused.map (·.2) fun _ _ hx => hx.2, hworlds⟩, htransfers⟩

end Source

end Recipe

end Menagerie
