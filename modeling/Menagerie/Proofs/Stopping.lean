import Menagerie.Machine
import Menagerie.Proofs.Outcome

/-! # Where a run stops

A body is any list of instructions, compiled or not.

* `Instruction.Ends` -- the ways in which an instruction ends a run: a return, or a trap in one of its
  expressions or at the store itself;
* `Instruction.step_cases` -- what a step can do, said of the values of the expressions;
  `Instruction.step_eq_stop_iff` -- it stops exactly where the instruction ends the run;
* `Run.memoryAfter`, `Run.moments` -- the memory that instructions leave, and each instruction with the
  memory that those before it leave; `Run.EndsAt` -- the first instruction that ends a run;
* `Run.clean_ofBody` -- **a run does what the instructions before its end do, and nothing else**;
* `Machine.run_stops_cleanly` -- the same of a machine and of any sink; **what follows the end of a run
  never matters**.
-/

namespace Menagerie

/-! ## 1. The five parts of a narration -/

namespace Cue

variable {ε α β : Type} {f : α → Except ε β}

theorem toList_mapM (f : α → Except ε β) (c : Cue α) : toList <$> c.mapM f = c.toList.mapM f := by
  simp only [mapM, toList, List.mapM_cons, List.mapM_nil, map_bind, map_pure, pure_bind, bind_assoc]

theorem toList_inj {c d : Cue α} (h : c.toList = d.toList) : c = d := by
  cases c
  cases d
  simp only [toList, List.cons.injEq] at h
  obtain ⟨rfl, rfl, rfl, rfl, rfl, -⟩ := h
  rfl

/-- The parts are computed in order. -/
theorem mapM_eq_ok_iff {c : Cue α} {d : Cue β} :
    c.mapM f = .ok d ↔ List.Forall₂ (fun x y => f x = .ok y) c.toList d.toList := by
  rw [← Menagerie.mapM_eq_ok_iff, ← toList_mapM]
  cases c.mapM f with
  | error e => exact iff_of_false (fun h => nomatch h) (fun h => nomatch h)
  | ok d' =>
    refine ⟨fun h => by cases h; rfl, fun h => ?_⟩
    rw [toList_inj (Except.ok.inj h)]

/-- **The first part that cannot be computed decides the error.** -/
theorem mapM_eq_error_iff {c : Cue α} {e : ε} :
    c.mapM f = .error e ↔ ∃ before x after ys, c.toList = before ++ x :: after ∧
      List.Forall₂ (fun x y => f x = .ok y) before ys ∧ f x = .error e := by
  rw [← Menagerie.mapM_eq_error_iff, ← toList_mapM, map_eq_error_iff]

end Cue

/-! ## 2. One instruction -/

namespace Instruction

/-- **The ways in which an instruction ends a run**, given the memory it reads, and the outcome. A store
computes its address, then its value, and last checks the position; a narration computes its five
parts in order. -/
inductive Ends (mem : Bytes) : Instruction → Except Trap UInt32 → Prop where
  | ret (value : Expr) : Ends mem (.ret value) (value.eval mem)
  | address {offset : UInt32} {address value : Expr} {t : Trap} (ha : address.eval mem = .error t) :
      Ends mem (.store offset address value) (.error t)
  | value {offset a : UInt32} {address value : Expr} {t : Trap} (ha : address.eval mem = .ok a)
      (hv : value.eval mem = .error t) : Ends mem (.store offset address value) (.error t)
  | outside {offset a v : UInt32} {address value : Expr} (ha : address.eval mem = .ok a)
      (hv : value.eval mem = .ok v) (hout : mem.size < a.toNat + offset.toNat + 4) :
      Ends mem (.store offset address value) (.error (.outOfBounds (a.toNat + offset.toNat) mem.size))
  | argument {args : Cue Expr} {before after : List Expr} {e : Expr} {words : List UInt32} {t : Trap}
      (hargs : args.toList = before ++ e :: after)
      (hbefore : List.Forall₂ (fun e w => e.eval mem = .ok w) before words)
      (he : e.eval mem = .error t) : Ends mem (.narrate args) (.error t)

/-- The memory that an instruction leaves: a store writes its word if the address and the value can be
computed and the position lies inside memory, and other instructions write nothing. -/
def leaves (mem : Bytes) : Instruction → Bytes
  | store offset address value =>
    match address.eval mem, value.eval mem with
    | .ok a, .ok v => (mem.writeWord (a.toNat + offset.toNat) v).2
    | _, _ => mem
  | _ => mem

/-- The expressions of a narration. -/
def cue? : Instruction → Option (Cue Expr)
  | narrate args => some args
  | _ => none

variable {mem : Bytes} {i : Instruction}

theorem storeArgs_eq_ok_iff {offset : UInt32} {address value : Expr} {x : Nat × UInt32} :
    storeArgs mem offset address value = .ok x ↔ ∃ a, address.eval mem = .ok a ∧
      value.eval mem = .ok x.2 ∧ x.1 = a.toNat + offset.toNat ∧ x.1 + 4 ≤ mem.size := by
  simp only [storeArgs, bind_eq_ok_iff]
  refine ⟨fun h => ?_, fun h => ?_⟩
  · obtain ⟨a, ha, v, hv, h⟩ := h
    split at h
    · rename_i hle
      cases h
      exact ⟨a, ha, hv, rfl, hle⟩
    · cases h
  · obtain ⟨a, ha, hv, hpos, hle⟩ := h
    rw [hpos] at hle
    refine ⟨a, ha, x.2, hv, ?_⟩
    rw [if_pos hle, ← hpos]
    rfl

theorem storeArgs_eq_error_iff {offset : UInt32} {address value : Expr} {t : Trap} :
    storeArgs mem offset address value = .error t ↔ Ends mem (.store offset address value) (.error t) := by
  simp only [storeArgs, bind_eq_error_iff]
  refine ⟨fun h => ?_, fun h => ?_⟩
  · rcases h with ha | ⟨a, ha, hv | ⟨v, hv, h⟩⟩
    · exact .address ha
    · exact .value ha hv
    · split at h
      · cases h
      · rename_i hout
        cases h
        exact .outside ha hv (by omega)
  · cases h with
    | address ha => exact .inl ha
    | value ha hv => exact .inr ⟨_, ha, .inl hv⟩
    | outside ha hv hout => exact .inr ⟨_, ha, .inr ⟨_, hv, if_neg (by omega)⟩⟩

/-- **What a step can do**: a store writes inside memory, a narration calls with the values of its five
parts, or the instruction ends the run. -/
theorem step_cases (mem : Bytes) (i : Instruction) :
    (∃ offset address value a v, i = .store offset address value ∧ address.eval mem = .ok a ∧
      value.eval mem = .ok v ∧ a.toNat + offset.toNat + 4 ≤ mem.size ∧
      i.step mem = .write (a.toNat + offset.toNat) v) ∨
    (∃ args words, i = .narrate args ∧
      List.Forall₂ (fun e w => e.eval mem = .ok w) args.toList words.toList ∧
      i.step mem = .call words) ∨
    ∃ o, i.Ends mem o ∧ i.step mem = .stop o := by
  cases i with
  | store offset address value =>
    cases hargs : storeArgs mem offset address value with
    | error t => exact .inr (.inr ⟨_, storeArgs_eq_error_iff.mp hargs, by rw [step, hargs]; rfl⟩)
    | ok x =>
      obtain ⟨a, ha, hv, hpos, hle⟩ := storeArgs_eq_ok_iff.mp hargs
      rw [hpos] at hle
      refine .inl ⟨offset, address, value, a, x.2, rfl, ha, hv, hle, ?_⟩
      rw [step, hargs, ← hpos]
      rfl
  | narrate args =>
    cases hargs : args.mapM (Expr.eval mem) with
    | error t =>
      obtain ⟨before, e, after, words, hsplit, hbefore, he⟩ := Cue.mapM_eq_error_iff.mp hargs
      exact .inr (.inr ⟨_, .argument hsplit hbefore he, by rw [step, hargs]; rfl⟩)
    | ok words =>
      exact .inr (.inl ⟨args, words, rfl, Cue.mapM_eq_ok_iff.mp hargs, by rw [step, hargs]; rfl⟩)
  | ret value => exact .inr (.inr ⟨_, .ret value, rfl⟩)

/-- **A step stops exactly where the instruction ends the run**, with the same outcome. -/
theorem step_eq_stop_iff {o : Except Trap UInt32} : i.step mem = .stop o ↔ i.Ends mem o := by
  refine ⟨fun h => ?_, fun h => ?_⟩
  · rcases step_cases mem i with ⟨_, _, _, _, _, -, -, -, -, hw⟩ | ⟨_, _, -, -, hc⟩ | ⟨_, he, hs⟩
    · cases hw.symm.trans h
    · cases hc.symm.trans h
    · cases hs.symm.trans h
      exact he
  · have hstore : ∀ {offset : UInt32} {address value : Expr} {t : Trap},
        Ends mem (.store offset address value) (.error t) →
        (store offset address value).step mem = .stop (.error t) := by
      intro offset address value t he
      rw [step, storeArgs_eq_error_iff.mpr he]
      rfl
    cases h with
    | ret value => rfl
    | address ha => exact hstore (.address ha)
    | value ha hv => exact hstore (.value ha hv)
    | outside ha hv hout => exact hstore (.outside ha hv hout)
    | argument hargs hbefore he =>
      rw [step, Cue.mapM_eq_error_iff.mpr ⟨_, _, _, _, hargs, hbefore, he⟩]
      rfl

theorem leaves_store {offset a v : UInt32} {address value : Expr} (ha : address.eval mem = .ok a)
    (hv : value.eval mem = .ok v) (hle : a.toNat + offset.toNat + 4 ≤ mem.size) :
    (store offset address value).leaves mem = mem.setWord (a.toNat + offset.toNat) v := by
  rw [leaves, ha, hv]
  show (mem.writeWord (a.toNat + offset.toNat) v).2 = _
  rw [Bytes.writeWord_of_room hle]

theorem size_leaves (mem : Bytes) (i : Instruction) : (i.leaves mem).size = mem.size := by
  cases i with
  | store offset address value =>
    rw [leaves]
    split
    · exact mem.size_writeWord _ _
    · rfl
  | narrate args => rfl
  | ret value => rfl

end Instruction

/-! ## 3. Runs -/

namespace Run

/-- The memory that instructions leave, one after another. -/
def memoryAfter (mem : Bytes) (body : List Instruction) : Bytes := body.foldl Instruction.leaves mem

/-- Each instruction with the memory that those before it leave. -/
def moments (mem : Bytes) : List Instruction → List (Instruction × Bytes)
  | [] => []
  | i :: rest => (i, mem) :: moments (i.leaves mem) rest

/-- The narrations among instructions, each with the memory that the instructions before it leave. -/
def cues (mem : Bytes) (body : List Instruction) : List (Cue Expr × Bytes) :=
  (moments mem body).filterMap fun x => x.1.cue?.map (·, x.2)

/-- **The first instruction that ends a run** has number `k`, or none ends it and `k` is their count. -/
structure EndsAt (mem : Bytes) (body : List Instruction) (k : Nat) : Prop where
  le : k ≤ body.length
  goes : ∀ x ∈ moments mem (body.take k), ∀ o, ¬ x.1.Ends x.2 o
  ends : ∀ i, body[k]? = some i → ∃ o, i.Ends (memoryAfter mem (body.take k)) o

/-- A call has the values of the parts of a narration, over the memory it shows. -/
def Hands (x : Cue Expr × Bytes) (c : Call) : Prop :=
  List.Forall₂ (fun e w => e.eval x.2 = .ok w) x.1.toList c.args.toList ∧ c.memory = x.2

/-- A run that does what the first `k` instructions do, and ends with instruction `k` or for want of
one. -/
structure Clean (mem : Bytes) (body : List Instruction) (k : Nat) (r : Run) : Prop where
  ended : ∀ i, body[k]? = some i → i.Ends (memoryAfter mem (body.take k)) r.outcome
  exhausted : k = body.length → r.outcome = .error .missingReturn
  calls : List.Forall₂ Hands (cues mem (body.take k)) r.calls
  memory : r.memory = memoryAfter mem (body.take k)

variable {mem : Bytes} {body rest : List Instruction} {i : Instruction} {k : Nat}

theorem size_memoryAfter (mem : Bytes) (body : List Instruction) :
    (memoryAfter mem body).size = mem.size := by
  induction body generalizing mem with
  | nil => rfl
  | cons i rest ih => exact (ih (i.leaves mem)).trans (i.size_leaves mem)

theorem getElem?_moments (mem : Bytes) (body : List Instruction) (j : Nat) :
    (moments mem body)[j]? = body[j]?.map fun i => (i, memoryAfter mem (body.take j)) := by
  induction body generalizing mem j with
  | nil => rfl
  | cons i rest ih =>
    cases j with
    | zero => rfl
    | succ j =>
      rw [moments, List.getElem?_cons_succ, List.getElem?_cons_succ, ih, List.take_succ_cons]
      rfl

theorem cues_cons (mem : Bytes) (i : Instruction) (rest : List Instruction) :
    cues mem (i :: rest) = cues mem [i] ++ cues (i.leaves mem) rest := by
  show ([(i, mem)] ++ moments (i.leaves mem) rest).filterMap _ = _
  rw [List.filterMap_append]
  rfl

/-! ### 3.1 The end -/

theorem endsAt_cons_zero : EndsAt mem (i :: rest) 0 ↔ ∃ o, i.Ends mem o := by
  refine ⟨fun h => h.ends i rfl, fun h => ⟨Nat.zero_le _, fun x hx => ?_, fun j hj => ?_⟩⟩
  · exact absurd hx List.not_mem_nil
  · cases hj
    exact h

theorem endsAt_cons_succ :
    EndsAt mem (i :: rest) (k + 1) ↔ (∀ o, ¬ i.Ends mem o) ∧ EndsAt (i.leaves mem) rest k := by
  refine ⟨fun h => ?_, fun h => ?_⟩
  · obtain ⟨hfirst, hgoes⟩ := List.forall_mem_cons.mp h.goes
    exact ⟨hfirst, Nat.le_of_succ_le_succ h.le, hgoes, h.ends⟩
  · obtain ⟨hfirst, hrest⟩ := h
    exact ⟨Nat.succ_le_succ hrest.le, List.forall_mem_cons.mpr ⟨hfirst, hrest.goes⟩, hrest.ends⟩

theorem exists_endsAt (mem : Bytes) (body : List Instruction) : ∃ k, EndsAt mem body k := by
  induction body generalizing mem with
  | nil => exact ⟨0, Nat.le_refl 0, fun x hx => absurd hx List.not_mem_nil, fun i hi => nomatch hi⟩
  | cons i rest ih =>
    by_cases hend : ∃ o, i.Ends mem o
    · exact ⟨0, endsAt_cons_zero.mpr hend⟩
    · obtain ⟨k, hk⟩ := ih (i.leaves mem)
      exact ⟨k + 1, endsAt_cons_succ.mpr ⟨fun o ho => hend ⟨o, ho⟩, hk⟩⟩

theorem EndsAt.not_lt {j : Nat} (hj : EndsAt mem body j) (hk : EndsAt mem body k) : ¬ j < k := by
  intro hlt
  have hbound : j < body.length := Nat.lt_of_lt_of_le hlt hk.le
  have hi : body[j]? = some body[j] := List.getElem?_eq_getElem hbound
  obtain ⟨o, ho⟩ := hj.ends _ hi
  have hmoment : (moments mem (body.take k))[j]? =
      some (body[j], memoryAfter mem (body.take j)) := by
    rw [getElem?_moments, List.getElem?_take_of_lt hlt, hi, List.take_take,
      Nat.min_eq_left (Nat.le_of_lt hlt), Option.map_some]
  exact hk.goes _ (List.mem_of_getElem? hmoment) o ho

/-- **A run has one end.** -/
theorem EndsAt.unique {j : Nat} (hj : EndsAt mem body j) (hk : EndsAt mem body k) : j = k :=
  Nat.le_antisymm (Nat.le_of_not_lt (hk.not_lt hj)) (Nat.le_of_not_lt (hj.not_lt hk))

/-! ### 3.2 What is done before the end -/

theorem ofBody_of_ends {o : Except Trap UInt32} (h : i.Ends mem o) (rest : List Instruction) :
    ofBody mem (i :: rest) = ⟨o, [], mem⟩ := by
  rw [ofBody, Instruction.step_eq_stop_iff.mpr h]

/-- **One step**: an instruction that does not end the run hands out its narration, if it is one, and
the run goes on with the memory it leaves. -/
theorem ofBody_of_goes (h : ∀ o, ¬ i.Ends mem o) :
    ∃ cs, List.Forall₂ Hands (cues mem [i]) cs ∧ ∀ rest, ofBody mem (i :: rest) =
      { ofBody (i.leaves mem) rest with calls := cs ++ (ofBody (i.leaves mem) rest).calls } := by
  rcases i.step_cases mem with ⟨offset, address, value, a, v, rfl, ha, hv, hle, hstep⟩ |
    ⟨args, words, rfl, hwords, hstep⟩ | ⟨o, ho, -⟩
  · refine ⟨[], .nil, fun rest => ?_⟩
    rw [ofBody, hstep, Instruction.leaves_store ha hv hle]
    rfl
  · refine ⟨[⟨words, mem⟩], .cons ⟨hwords, rfl⟩ .nil, fun rest => ?_⟩
    rw [ofBody, hstep]
    rfl
  · exact absurd ho (h o)

/-- **A run does what the instructions before its end do, and nothing else.** -/
theorem clean_ofBody (h : EndsAt mem body k) : Clean mem body k (ofBody mem body) := by
  induction body generalizing mem k with
  | nil =>
    cases Nat.le_zero.mp h.le
    exact ⟨fun i hi => (nomatch hi), fun _ => rfl, .nil, rfl⟩
  | cons i rest ih =>
    cases k with
    | zero =>
      obtain ⟨o, ho⟩ := endsAt_cons_zero.mp h
      rw [ofBody_of_ends ho]
      refine ⟨fun j hj => ?_, fun hlen => (nomatch hlen), .nil, rfl⟩
      cases hj
      exact ho
    | succ k =>
      -- the first instruction goes on, and what it leaves is where the rest starts
      obtain ⟨hgoes, hrest⟩ := endsAt_cons_succ.mp h
      obtain ⟨hended, hexhausted, hcalls, hmemory⟩ := ih hrest
      obtain ⟨cs, hcs, hrun⟩ := ofBody_of_goes hgoes
      rw [hrun]
      refine ⟨hended, fun hlen => hexhausted (Nat.succ.inj hlen), ?_, hmemory⟩
      rw [List.take_succ_cons, cues_cons]
      exact List.rel_append hcs hcalls

/-- Every call shows a memory of the same size. -/
theorem size_of_mem_cues {x : Cue Expr × Bytes} (h : x ∈ cues mem body) : x.2.size = mem.size := by
  obtain ⟨y, hy, hx⟩ := List.mem_filterMap.mp h
  obtain ⟨j, hj⟩ := List.mem_iff_getElem?.mp hy
  rw [getElem?_moments, Option.map_eq_some_iff] at hj
  obtain ⟨i, -, rfl⟩ := hj
  obtain ⟨args, -, rfl⟩ := Option.map_eq_some_iff.mp hx
  exact size_memoryAfter mem (body.take j)

/-! ### 3.3 What comes after the end -/

/-- **What follows the instruction that ends a run does not matter.** -/
theorem ofBody_take_append (h : EndsAt mem body k) (hk : k < body.length) (rest : List Instruction) :
    ofBody mem (body.take (k + 1) ++ rest) = ofBody mem body := by
  induction body generalizing mem k with
  | nil => exact absurd hk (Nat.not_lt_zero k)
  | cons i tail ih =>
    rw [List.take_succ_cons, List.cons_append]
    cases k with
    | zero =>
      obtain ⟨o, ho⟩ := endsAt_cons_zero.mp h
      rw [ofBody_of_ends ho, ofBody_of_ends ho]
    | succ k =>
      obtain ⟨hgoes, htail⟩ := endsAt_cons_succ.mp h
      obtain ⟨cs, -, hrun⟩ := ofBody_of_goes hgoes
      rw [hrun, hrun, ih htail (Nat.lt_of_succ_lt_succ hk)]

end Run

/-! ## 4. Machines and sinks -/

namespace Machine

/-- **A sink is handed the calls of the run**, one by one, each with a view of the memory it shows. -/
theorem runInto_eq {σ : Type} (sink : σ → View → Cue UInt32 → σ) (s : σ) (m : Machine)
    (body : List Instruction) :
    m.runInto sink s body = ((m.run body).1.outcome,
      (m.run body).1.calls.foldl (fun s c => sink s ⟨c.memory, m.spans⟩ c.args) s, (m.run body).2) := by
  induction body generalizing s m with
  | nil => rfl
  | cons i rest ih =>
    rw [runInto, run, Run.ofBody]
    cases i.step m.memory with
    | write pos value =>
      dsimp only
      rw [ih, run]
    | call args => exact ih (sink s m.view args) m
    | stop outcome => rfl

/-- **A run stops cleanly**, whatever the machine, the body and the sink. There is one first instruction
that returns or traps, or none does and its number is the length of the body. The outcome is what that
instruction returns or traps with, or a missing return. The calls are the narrations before it, in
order, each with its five parts evaluated over the memory that the stores before it leave and with a
view of that memory; a sink is handed just these. The memory at the end is the one that the stores
before it leave, so that a store or narration that traps writes nothing and calls nothing. The size of
the memory and the spans never change, and other instructions behind the one that ends the run change
nothing. -/
theorem run_stops_cleanly (m : Machine) (body : List Instruction) :
    (∃! k, Run.EndsAt m.memory body k) ∧
    ∀ k, Run.EndsAt m.memory body k → ∃ r m', m.run body = (r, m') ∧
      (∀ i, body[k]? = some i → i.Ends (Run.memoryAfter m.memory (body.take k)) r.outcome) ∧
      (k = body.length → r.outcome = .error .missingReturn) ∧
      List.Forall₂ Run.Hands (Run.cues m.memory (body.take k)) r.calls ∧
      r.memory = Run.memoryAfter m.memory (body.take k) ∧
      m' = { m with memory := r.memory } ∧ r.memory.size = m.memory.size ∧
      (∀ c ∈ r.calls, c.memory.size = m.memory.size) ∧
      (∀ (σ : Type) (sink : σ → View → Cue UInt32 → σ) (s : σ), m.runInto sink s body =
        (r.outcome, r.calls.foldl (fun s c => sink s ⟨c.memory, m.spans⟩ c.args) s, m')) ∧
      (k < body.length → ∀ rest, m.run (body.take (k + 1) ++ rest) = (r, m') ∧
        ∀ (σ : Type) (sink : σ → View → Cue UInt32 → σ) (s : σ),
          m.runInto sink s (body.take (k + 1) ++ rest) = m.runInto sink s body) := by
  refine ⟨?_, fun k hk => ?_⟩
  · obtain ⟨k, hk⟩ := Run.exists_endsAt m.memory body
    exact ⟨k, hk, fun j hj => hj.unique hk⟩
  · obtain ⟨hended, hexhausted, hcalls, hmemory⟩ := Run.clean_ofBody hk
    refine ⟨_, _, rfl, hended, hexhausted, hcalls, hmemory, rfl, ?_, fun c hc => ?_,
      fun σ sink s => runInto_eq sink s m body, fun hlt rest => ?_⟩
    · rw [hmemory, Run.size_memoryAfter]
    · obtain ⟨x, hx, -, hmem⟩ := forall₂_of_mem_right hcalls hc
      rw [hmem, Run.size_of_mem_cues hx]
    · have hsame : m.run (body.take (k + 1) ++ rest) = m.run body := by
        rw [run, Run.ofBody_take_append hk hlt, run]
      refine ⟨hsame, fun σ sink s => ?_⟩
      rw [runInto_eq, hsame, runInto_eq]

/-- A store, a narration of what it wrote, a store behind the end of a memory of eight bytes, and a
return. -/
def trappingBody : List Instruction :=
  [.store 4 (.const 0) (.const 7),
    .narrate ⟨.load 4 (.const 0), .const 1, .const 2, .const 3, .const 4⟩,
    .store 0 (.const 6) (.load 4 (.const 0)), .ret (.const 0)]

/-- The first store goes through, one call is made, and the second store traps, writes nothing and ends
the run whatever comes instead of the return. -/
theorem second_store_traps : ∃ (m : Machine) (r : Run) (m' : Machine),
    m.memory = #[0, 0, 0, 0, 0, 0, 0, 0] ∧ Run.EndsAt m.memory trappingBody 2 ∧
    m.run trappingBody = (r, m') ∧ r.outcome = .error (.outOfBounds 6 8) ∧ r.calls.length = 1 ∧
    m'.memory = #[0, 0, 0, 0, 7, 0, 0, 0] ∧
    ∀ rest, m.run (trappingBody.take 3 ++ rest) = (r, m') := by
  obtain ⟨m, hm⟩ : ∃ m : Machine, m = ⟨#[0, 0, 0, 0, 0, 0, 0, 0], #[]⟩ := ⟨_, rfl⟩
  have hend : Run.EndsAt m.memory trappingBody 2 := by
    rw [hm]
    refine Run.endsAt_cons_succ.mpr ⟨fun o ho => ?_, Run.endsAt_cons_succ.mpr ⟨fun o ho => ?_,
      Run.endsAt_cons_zero.mpr ⟨_, .outside (a := 6) (v := 7) rfl rfl (by decide)⟩⟩⟩
    · cases Instruction.step_eq_stop_iff.mpr ho
    · cases Instruction.step_eq_stop_iff.mpr ho
  obtain ⟨-, hruns⟩ := run_stops_cleanly m trappingBody
  obtain ⟨r, m', hrun, hended, -, hcalls, hmemory, hm', -, -, -, hrest⟩ := hruns 2 hend
  have hmem : Run.memoryAfter m.memory (trappingBody.take 2) = #[0, 0, 0, 0, 7, 0, 0, 0] := by
    rw [hm]
    decide
  have hstop := Instruction.step_eq_stop_iff.mpr (hended _ rfl)
  rw [hmem] at hstop
  refine ⟨m, r, m', by rw [hm], hend, hrun, (Step.stop.inj hstop).symm, hcalls.length_eq.symm, ?_,
    fun rest => (hrest (by decide) rest).1⟩
  rw [hm', hmemory, hmem]

end Machine

end Menagerie
