import Menagerie.Proofs.Narrating
import Menagerie.Proofs.Stopping

/-! # Room behind the image

The reference machine has a memory as large as the image. A module declares whole pages, so that bytes
follow the image that belong to no record. They make a difference to a program only where it traps
without them:

* `Bytes.setWord_append`, `Expr.eval_append`, `Instruction.step_append` -- an access inside a memory does
  the same in a longer one;
* `Run.ofBody_append` -- **a run that does not trap is the same run in a longer memory**, whatever the
  body, and leaves the bytes behind alone;
* `Narration.decode?_padded` -- **what is read from a memory is read from a longer one**;
* `Compiler.padding_is_never_seen` -- so a compiled program, which never traps, runs over its pages as it
  does over its image.
-/

namespace Menagerie

/-! ## 1. Accesses -/

namespace Bytes

theorem word?_append {b : Bytes} {pos : Nat} {w : UInt32} (h : b.word? pos = some w) (pad : Bytes) :
    word? (b ++ pad) pos = some w := by
  rw [word?_append_left (isSome_word?.mp (Option.isSome_of_eq_some h)), h]

/-- A word written inside a memory leaves the bytes behind it alone. -/
theorem setWord_append {b : Bytes} {pos : Nat} (w : UInt32) (h : pos + 4 ≤ b.size) (pad : Bytes) :
    setWord (b ++ pad) pos w = b.setWord pos w ++ pad := by
  have hle : pos + 4 ≤ (b ++ pad).size := by
    rw [Array.size_append]
    omega
  refine Array.ext_getElem? fun i => ?_
  rw [getElem?_setWord w hle, Array.getElem?_append, Array.getElem?_append, size_setWord,
    getElem?_setWord w h]
  by_cases hi : pos ≤ i ∧ i < pos + 4
  · rw [if_pos hi, if_pos hi, if_pos (by omega)]
  · rw [if_neg hi, if_neg hi]

end Bytes

theorem Expr.eval_append {mem : Bytes} {e : Expr} {w : UInt32} (h : e.eval mem = .ok w) (pad : Bytes) :
    e.eval (mem ++ pad) = .ok w := by
  induction e generalizing w with
  | const v => exact h
  | add l r ihl ihr =>
    obtain ⟨a, ha, h⟩ := bind_eq_ok_iff.mp h
    obtain ⟨b, hb, h⟩ := bind_eq_ok_iff.mp h
    rw [eval, ihl ha, ihr hb]
    exact h
  | load offset e ih =>
    obtain ⟨a, ha, h⟩ := bind_eq_ok_iff.mp h
    rw [eval, ih ha]
    dsimp only [bind, Except.bind]
    cases hw : mem.word? (a.toNat + offset.toNat) with
    | none =>
      simp only [hw] at h
      cases h
    | some v =>
      simp only [hw] at h
      rw [Bytes.word?_append hw pad]
      exact h

theorem Cue.mapM_eval_append {mem : Bytes} {args : Cue Expr} {words : Cue UInt32}
    (h : args.mapM (Expr.eval mem) = .ok words) (pad : Bytes) :
    args.mapM (Expr.eval (mem ++ pad)) = .ok words := by
  rw [mapM_eq_ok_iff] at h ⊢
  exact h.imp fun e w he => Expr.eval_append he pad

/-! ## 2. Instructions and runs -/

namespace Instruction

variable {mem : Bytes}

/-- **What a step writes lies inside memory.** -/
theorem le_size_of_step {i : Instruction} {pos : Nat} {value : UInt32}
    (h : i.step mem = .write pos value) : pos + 4 ≤ mem.size := by
  rcases i.step_cases mem with ⟨_, _, _, _, _, -, -, -, hle, hw⟩ | ⟨_, _, -, -, hc⟩ | ⟨_, -, hs⟩
  · cases hw.symm.trans h
    exact hle
  · cases hc.symm.trans h
  · cases hs.symm.trans h

/-- **An instruction that does not trap does the same in a longer memory.** -/
theorem step_append {i : Instruction} (h : ∀ t, i.step mem ≠ .stop (.error t)) (pad : Bytes) :
    i.step (mem ++ pad) = i.step mem := by
  cases i with
  | store offset address value =>
    cases hargs : storeArgs mem offset address value with
    | error t => exact absurd (by rw [step, hargs]; rfl) (h t)
    | ok x =>
      obtain ⟨a, ha, hv, hpos, hle⟩ := storeArgs_eq_ok_iff.mp hargs
      have hpad : storeArgs (mem ++ pad) offset address value = .ok x := by
        refine storeArgs_eq_ok_iff.mpr
          ⟨a, Expr.eval_append ha pad, Expr.eval_append hv pad, hpos, ?_⟩
        rw [Array.size_append]
        omega
      rw [step, step, hargs, hpad]
  | narrate args =>
    cases hargs : args.mapM (Expr.eval mem) with
    | error t => exact absurd (by rw [step, hargs]; rfl) (h t)
    | ok words => rw [step, step, hargs, Cue.mapM_eval_append hargs pad]
  | ret value =>
    cases hv : value.eval mem with
    | error t => exact absurd (by rw [step, hv]) (h t)
    | ok v => rw [step, step, hv, Expr.eval_append hv pad]

end Instruction

namespace Run

/-- A run in a memory that goes on behind the one it is a run in. -/
def padded (r : Run) (pad : Bytes) : Run :=
  ⟨r.outcome, r.calls.map fun c => ⟨c.args, c.memory ++ pad⟩, r.memory ++ pad⟩

/-- **A run that does not trap is the same run in a longer memory.** -/
theorem ofBody_append {mem : Bytes} {body : List Instruction} {v : UInt32}
    (h : (ofBody mem body).outcome = .ok v) (pad : Bytes) :
    ofBody (mem ++ pad) body = (ofBody mem body).padded pad := by
  induction body generalizing mem with
  | nil => cases h
  | cons i rest ih =>
    have hgoes : ∀ t, i.step mem ≠ .stop (.error t) := by
      intro t ht
      rw [ofBody, ht] at h
      cases h
    have hsame := Instruction.step_append hgoes pad
    rw [ofBody, ofBody, hsame]
    rw [ofBody] at h
    cases hstep : i.step mem with
    | write pos value =>
      rw [hstep] at h
      show ofBody (Bytes.setWord (mem ++ pad) pos value) rest = _
      rw [Bytes.setWord_append value (Instruction.le_size_of_step hstep) pad, ih h]
    | call args =>
      rw [hstep] at h
      simp only [ih h, padded, List.map_cons]
    | stop outcome => rfl

end Run

/-! ## 3. Reading -/

namespace View

/-- A view of a longer memory with the same records. -/
def padded (v : View) (pad : Bytes) : View := ⟨v.bytes ++ pad, v.spans⟩

variable {v : View} {base a : Offset} {kind : RecordKind} {i : Nat} {f : Bytes}

theorem word?_padded {w : UInt32} (h : v.word? a = some w) (pad : Bytes) :
    (v.padded pad).word? a = some w :=
  Bytes.word?_append h pad

theorem fieldEnd?_padded {s : Span} {last : UInt32} (h : v.fieldEnd? s base i = some last)
    (pad : Bytes) : (v.padded pad).fieldEnd? s base i = some last := by
  unfold fieldEnd? at h ⊢
  split at h
  · rename_i hi
    obtain ⟨header, hheader, hword⟩ := Option.bind_eq_some_iff.mp h
    rw [if_pos hi]
    exact Option.bind_eq_some_iff.mpr ⟨header, hheader, word?_padded hword pad⟩
  · rename_i hi
    rw [if_neg hi]
    exact h

/-- A field that can be cut out of a memory is the same in a longer one. -/
theorem field?_padded (h : v.field? base i = some f) (pad : Bytes) :
    (v.padded pad).field? base i = some f := by
  obtain ⟨s, hs, h⟩ := Option.bind_eq_some_iff.mp h
  refine Option.bind_eq_some_iff.mpr ⟨s, hs, ?_⟩
  split at h
  · rename_i hi
    obtain ⟨header, hheader, h⟩ := Option.bind_eq_some_iff.mp h
    obtain ⟨first, hfirst, h⟩ := Option.bind_eq_some_iff.mp h
    obtain ⟨last, hlast, h⟩ := Option.bind_eq_some_iff.mp h
    rw [if_pos hi]
    refine Option.bind_eq_some_iff.mpr ⟨header, hheader, Option.bind_eq_some_iff.mpr
      ⟨first, word?_padded hfirst pad, Option.bind_eq_some_iff.mpr
        ⟨last, fieldEnd?_padded hlast pad, ?_⟩⟩⟩
    split at h
    · rename_i hin
      obtain ⟨hle, hlen, hsize⟩ := hin
      have hsize' : base.toNat + last.toNat ≤ (v.bytes ++ pad).size := by
        rw [Array.size_append]
        omega
      rw [if_pos ⟨hle, hlen, hsize'⟩, ← h]
      refine congrArg some (Array.ext_getElem? fun j => ?_)
      show ((v.bytes ++ pad).extract _ _)[j]? = _
      rw [Array.getElem?_extract, Array.getElem?_extract, Nat.min_eq_left hsize', Nat.min_eq_left hsize]
      split
      · rw [Array.getElem?_append_left (by omega)]
      · rfl
    · cases h
  · cases h

/-- The search among candidates takes the same way, as all headers up to the hit can be read. -/
theorem fieldAmong?_padded {candidates : List Span} (h : v.fieldAmong? a kind i candidates = some f)
    (pad : Bytes) : (v.padded pad).fieldAmong? a kind i candidates = some f := by
  induction candidates with
  | nil => cases h
  | cons s rest ih =>
    rw [fieldAmong?] at h ⊢
    split at h
    · rename_i hk
      rw [if_pos hk]
      obtain ⟨header, hheader, h⟩ := Option.bind_eq_some_iff.mp h
      obtain ⟨rel, hrel, h⟩ := Option.bind_eq_some_iff.mp h
      refine Option.bind_eq_some_iff.mpr ⟨header, hheader, Option.bind_eq_some_iff.mpr
        ⟨rel, word?_padded hrel pad, ?_⟩⟩
      split at h
      · rename_i hit
        rw [if_pos hit]
        exact field?_padded h pad
      · rename_i hmiss
        rw [if_neg hmiss]
        exact ih h
    · rename_i hk
      rw [if_neg hk]
      exact ih h

theorem textAt?_padded {s : String} (h : v.textAt? a kind i = some s) (pad : Bytes) :
    (v.padded pad).textAt? a kind i = some s := by
  obtain ⟨f, hf, hs⟩ := Option.map_eq_some_iff.mp h
  exact Option.map_eq_some_iff.mpr ⟨f, fieldAmong?_padded hf pad, hs⟩

end View

/-- **Five addresses that can be read from a memory are read as the same texts from a longer one.** -/
theorem Narration.decode?_padded {v : View} {args : Cue Offset} {n : Narration}
    (h : decode? v args = some n) (pad : Bytes) : decode? (v.padded pad) args = some n := by
  simp only [decode?, Option.bind_eq_bind, Option.bind_eq_some_iff] at h ⊢
  obtain ⟨world, hworld, gene, hgene, animal, hanimal, inst, hinst, sound, hsound, h⟩ := h
  exact ⟨world, View.textAt?_padded hworld pad, gene, View.textAt?_padded hgene pad, animal,
    View.textAt?_padded hanimal pad, inst, View.textAt?_padded hinst pad, sound,
    View.textAt?_padded hsound pad, h⟩

/-! ## 4. Compiled programs -/

/-- The pages a memory starts with have room for it. -/
theorem EmitConfig.le_pagesFor (c : EmitConfig) (len : Nat) : len ≤ c.pagesFor len * pageSize := by
  have hpages : (len + (pageSize - 1)) / pageSize ≤ c.pagesFor len := Nat.le_max_left _ _
  have hmul := Nat.mul_le_mul_right pageSize hpages
  unfold pageSize at hmul ⊢
  omega

/-- **Each call of a program can be read.** -/
theorem Program.Emitted.readable {g₀ g : Graph} {l : Layout} {img : Image} {mem : Bytes}
    {found : List (Offset × Narrated)} {p : Program} (hb : img.Built g₀ l)
    (h : p.Emitted img g mem found) :
    ∀ x ∈ found, ∃ n, Narration.decode? ⟨mem, img.spans⟩ x.2.args = some n := by
  intro x hx
  obtain ⟨i, -, q, hq, hk, ho, -, a, w, b, s, hw⟩ := forall₂_of_mem_right (h.walks hb) hx
  rw [← ho] at hw
  obtain ⟨_, _, _, -, -, -, hread⟩ := (h.memory_shape hb).decode_walk hb.sound hq hk hw
  rw [hb.spans]
  exact ⟨_, hread⟩

namespace Compiler

/-- **A compiled program never sees the room behind its image.** The pages it declares hold the image
and do not exceed their maximum. In a memory that goes on behind the image with any bytes, the program
returns 0 as well, makes the same calls, which are read as the same texts, and leaves what it leaves
over the image, with those bytes behind it. -/
theorem padding_is_never_seen {c : Compiler} {g : Graph} {p : Program} (hs : g.Sized)
    (h : (c.compile g).result = .ok p) :
    p.image.bytes.size ≤ p.pages.initial * pageSize ∧ p.pages.initial ≤ p.pages.maximum ∧
    ∃ r m, (Machine.ofImage p.image).run p.body = (r, m) ∧ r.outcome = .ok 0 ∧
      ∀ pad : Bytes, ∃ r' m', Machine.run ⟨p.image.bytes ++ pad, p.image.spans⟩ p.body = (r', m') ∧
        r'.outcome = .ok 0 ∧ r'.calls.map (·.args) = r.calls.map (·.args) ∧
        r'.calls.map (Machine.narration? m'.spans) = r.calls.map (Machine.narration? m.spans) ∧
        m'.memory = m.memory ++ pad := by
  obtain ⟨img, himg, hp⟩ := compile_eq_ok_iff.mp h
  obtain ⟨l, -, hb⟩ := Image.built_of_ofGraph hs himg
  obtain ⟨hpages, hpages', mem, found, he⟩ := Program.emit_eq_ok_iff.mp hp
  obtain ⟨hrun, -⟩ := he.run hb
  have hbody : Run.ofBody img.bytes p.body =
      ⟨.ok 0, found.map fun x => ⟨x.2.args.map (·.word), mem⟩, mem⟩ := congrArg Prod.fst hrun
  rw [he.image, hpages']
  refine ⟨c.emit.le_pagesFor img.bytes.size, hpages, _, _, hrun, rfl, fun pad => ?_⟩
  have hpadded : Run.ofBody (img.bytes ++ pad) p.body =
      ⟨.ok 0, found.map fun x => ⟨x.2.args.map (·.word), mem ++ pad⟩, mem ++ pad⟩ := by
    rw [Run.ofBody_append (congrArg Run.outcome hbody) pad, hbody, Run.padded, List.map_map]
    rfl
  have hrun' : Machine.run ⟨img.bytes ++ pad, img.spans⟩ p.body =
      (⟨.ok 0, found.map fun x => ⟨x.2.args.map (·.word), mem ++ pad⟩, mem ++ pad⟩,
        ⟨mem ++ pad, img.spans⟩) := by
    rw [Machine.run, hpadded]
  refine ⟨_, _, hrun', rfl, ?_, ?_, rfl⟩
  · rw [List.map_map, List.map_map]
    rfl
  · rw [List.map_map, List.map_map]
    refine List.map_congr_left fun x hx => ?_
    obtain ⟨n, hn⟩ := he.readable hb x hx
    exact (Narration.decode?_padded hn pad).trans hn.symm

/-- The cat that moves is narrated in the same way if other bytes follow its image. -/
theorem moving_cat_ignores_padding : ∃ p r m r' m', (compile {} Sample.movingCat).result = .ok p ∧
    p.image.bytes.size ≤ p.pages.initial * pageSize ∧ p.pages.initial ≤ p.pages.maximum ∧
    (Machine.ofImage p.image).run p.body = (r, m) ∧
    Machine.run ⟨p.image.bytes ++ #[0xFF, 0, 0x2A], p.image.spans⟩ p.body = (r', m') ∧
    r'.outcome = .ok 0 ∧ r'.calls.map (·.args) = r.calls.map (·.args) ∧
    r'.calls.map (Machine.narration? m'.spans) = r.calls.map (Machine.narration? m.spans) ∧
    m'.memory = m.memory ++ #[0xFF, 0, 0x2A] := by
  have hsized : Sample.movingCat.Sized :=
    Graph.sized_of_footprints (by decide) (by decide) (by decide)
  obtain ⟨p, hp⟩ : ∃ p, (compile {} Sample.movingCat).result = .ok p :=
    exists_of_isOk (by decide +kernel)
  obtain ⟨himage, hpages, r, m, hr, -, hpad⟩ := padding_is_never_seen hsized hp
  obtain ⟨r', m', hr', hpadded⟩ := hpad #[0xFF, 0, 0x2A]
  exact ⟨p, r, m, r', m', hp, himage, hpages, hr, hr', hpadded⟩

end Compiler

end Menagerie
