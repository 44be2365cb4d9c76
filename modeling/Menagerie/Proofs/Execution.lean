import Menagerie.Machine
import Menagerie.Graph.Sample
import Menagerie.Proofs.Emission

/-! # A program runs as it was resolved

* `Run.sums` -- the exact sums of all additions that a run performs;
* `Run.stores` -- running the stores writes what the compiler wrote, and performs no addition;
* `Run.narrations` -- running the narrations hands out, over an unchanged memory, what their
  expressions compute;
* `Program.Emitted.run` -- **a program returns 0, and each of its calls has the addresses that the
  compiler resolved**;
* `Program.execution_follows_resolution` -- all of this over the image of any graph, with **every call
  readable, naming its own instance, and no addition that wraps around**.
-/

namespace Menagerie

/-! ## 1. The additions of a run -/

/-- The sums of the additions performed by expressions evaluated one after another, up to the first
trap. -/
def Expr.sumsInOrder (mem : Bytes) : List Expr → List Nat
  | [] => []
  | e :: es =>
    e.sums mem ++
      match e.eval mem with
      | .error _ => []
      | .ok _ => sumsInOrder mem es

/-- The sums of the additions that an instruction performs. -/
def Instruction.sums (mem : Bytes) : Instruction → List Nat
  | store _ address value => Expr.sumsInOrder mem [address, value]
  | narrate args => Expr.sumsInOrder mem args.toList
  | ret value => Expr.sumsInOrder mem [value]

/-- **The exact sums of all additions that a run performs**, in order. -/
def Run.sums (mem : Bytes) : List Instruction → List Nat
  | [] => []
  | i :: rest =>
    i.sums mem ++
      match i.step mem with
      | .write pos value => sums (mem.setWord pos value) rest
      | .call _ => sums mem rest
      | .stop _ => []

theorem Expr.sumsInOrder_subset {mem : Bytes} {es : List Expr} {s : Nat}
    (h : s ∈ sumsInOrder mem es) : ∃ e ∈ es, s ∈ e.sums mem := by
  induction es with
  | nil => exact absurd h List.not_mem_nil
  | cons e es ih =>
    rw [sumsInOrder, List.mem_append] at h
    rcases h with h | h
    · exact ⟨e, List.mem_cons_self, h⟩
    · split at h
      · exact absurd h List.not_mem_nil
      · obtain ⟨e', he', hs⟩ := ih h
        exact ⟨e', List.mem_cons_of_mem e he', hs⟩

/-! ## 2. Stores -/

/-- **A store instruction writes at its target**, which lies beyond the first twelve bytes. -/
theorem Store.step_instruction {mem : Bytes} {s : Store} (hlow : worldRefAt ≤ s.target.toNat)
    (hin : s.target.toNat + 4 ≤ mem.size) :
    s.instruction.step mem = .write s.target.toNat s.value.word := by
  have hlt := s.target.toNat_lt
  have hrel : (UInt32.ofNat worldRefAt).toNat = worldRefAt := by decide
  have hpos : (s.target.word - UInt32.ofNat worldRefAt).toNat + (UInt32.ofNat worldRefAt).toNat =
      s.target.toNat := by
    rw [UInt32.toNat_sub_of_le _ _ (UInt32.le_iff_toNat_le.mpr (hrel ▸ hlow)), hrel]
    show s.target.toNat - worldRefAt + worldRefAt = s.target.toNat
    omega
  have hargs : Instruction.storeArgs mem (UInt32.ofNat worldRefAt)
      (.const (s.target.word - UInt32.ofNat worldRefAt)) (.ofOffset s.value) =
        .ok (s.target.toNat, s.value.word) := by
    show (if (s.target.word - UInt32.ofNat worldRefAt).toNat + (UInt32.ofNat worldRefAt).toNat + 4 ≤
        mem.size then _ else _) = _
    rw [hpos, if_pos hin]
    rfl
  rw [instruction, Instruction.step, hargs]
  rfl

namespace Run

/-- **Running stores performs their writes and no addition.** -/
theorem stores {mem : Bytes} {ss : List Store} (hlow : ∀ s ∈ ss, worldRefAt ≤ s.target.toNat)
    (hin : ∀ s ∈ ss, s.target.toNat + 4 ≤ mem.size) (rest : List Instruction) :
    ofBody mem (ss.map Store.instruction ++ rest) = ofBody (mem.writes (ss.map Store.write)) rest ∧
      sums mem (ss.map Store.instruction ++ rest) = sums (mem.writes (ss.map Store.write)) rest := by
  induction ss generalizing mem with
  | nil => exact ⟨rfl, rfl⟩
  | cons s ss ih =>
    obtain ⟨hls, hlss⟩ := List.forall_mem_cons.mp hlow
    obtain ⟨his, hiss⟩ := List.forall_mem_cons.mp hin
    have hstep := Store.step_instruction hls his
    have hnone : s.instruction.sums mem = [] := rfl
    have hrest := @ih (mem.setWord s.target.toNat s.value.word) hlss (by
      intro s' hs'
      rw [Bytes.size_setWord]
      exact hiss s' hs')
    rw [List.map_cons, List.cons_append, List.map_cons, Bytes.writes_cons]
    refine ⟨?_, ?_⟩
    · rw [ofBody, hstep]
      exact hrest.1
    · rw [sums, hstep, hnone, List.nil_append]
      exact hrest.2

/-! ## 3. Narrations -/

theorem step_narrate {mem : Bytes} {args : Cue Expr} {words : Cue UInt32}
    (h : args.mapM (Expr.eval mem) = .ok words) :
    (Instruction.narrate args).step mem = .call words := by
  rw [Instruction.step, h]
  rfl

/-- **Running narrations hands out what their expressions compute**, and ends with 0. -/
theorem narrations {mem : Bytes} {xs : List (Offset × Narrated)}
    (h : ∀ x ∈ xs, (Expr.narration x.1).mapM (Expr.eval mem) = .ok (x.2.args.map (·.word))) :
    ofBody mem (xs.map (fun x => .narrate (Expr.narration x.1)) ++ [.ret (.const 0)]) =
      ⟨.ok 0, xs.map fun x => ⟨x.2.args.map (·.word), mem⟩, mem⟩ := by
  induction xs with
  | nil => rfl
  | cons x xs ih =>
    obtain ⟨hx, hxs⟩ := List.forall_mem_cons.mp h
    rw [List.map_cons, List.cons_append, ofBody, step_narrate hx]
    simp only [ih hxs, List.map_cons]

theorem sums_narrations {mem : Bytes} {xs : List (Offset × Narrated)}
    (h : ∀ x ∈ xs, (Expr.narration x.1).mapM (Expr.eval mem) = .ok (x.2.args.map (·.word)))
    (hs : ∀ x ∈ xs, ∀ e ∈ (Expr.narration x.1).toList, ∀ s ∈ e.sums mem, s < 2 ^ 32) :
    ∀ s ∈ sums mem (xs.map (fun x => .narrate (Expr.narration x.1)) ++ [.ret (.const 0)]),
      s < 2 ^ 32 := by
  induction xs with
  | nil =>
    intro s hmem
    exact absurd hmem List.not_mem_nil
  | cons x xs ih =>
    obtain ⟨hx, hxs⟩ := List.forall_mem_cons.mp h
    obtain ⟨hsx, hsxs⟩ := List.forall_mem_cons.mp hs
    intro s hmem
    rw [List.map_cons, List.cons_append, sums, step_narrate hx, List.mem_append] at hmem
    rcases hmem with hmem | hmem
    · obtain ⟨e, he, hse⟩ := Expr.sumsInOrder_subset hmem
      exact hsx e he s hse
    · exact ih hxs hsxs s hmem

end Run

/-! ## 4. Programs -/

namespace Program

section Emitted

variable {g₀ g : Graph} {l : Layout} {img : Image} {mem : Bytes} {found : List (Offset × Narrated)}
  {p : Program}

theorem Emitted.stores_low (hb : img.Built g₀ l) (h : p.Emitted img g mem found) :
    ∀ s ∈ p.stores, worldRefAt ≤ s.target.toNat := by
  intro s hs
  obtain ⟨t, -, ht⟩ := forall₂_of_mem_right h.stores hs
  obtain ⟨-, n, -, -, q, -, -, -, hpos⟩ := Store.into_of_ofTransfer hb ht
  have hpos : s.target.toNat = q.offset.toNat + worldRefAt := hpos
  omega

theorem Emitted.body_eq (h : p.Emitted img g mem found) :
    p.body = p.stores.map Store.instruction ++
      (found.map (fun x => .narrate (Expr.narration x.1)) ++ [.ret (.const 0)]) := by
  rw [h.body, assemble, List.map_map, List.append_assoc]
  rfl

theorem Emitted.exists_walk (hb : img.Built g₀ l) (h : p.Emitted img g mem found) :
    ∀ x ∈ found, ∃ a w b s, Narrated.Walk (l.view mem) x.1 a w b s x.2.args := by
  intro x hx
  obtain ⟨i, -, -, -, -, -, -, hw⟩ := forall₂_of_mem_right (h.walks hb) hx
  exact hw

theorem Emitted.eval_found (hb : img.Built g₀ l) (h : p.Emitted img g mem found) :
    ∀ x ∈ found, (Expr.narration x.1).mapM (Expr.eval mem) = .ok (x.2.args.map (·.word)) := by
  intro x hx
  obtain ⟨a, w, b, s, hw⟩ := h.exists_walk hb x hx
  exact hw.eval_narration

/-- **The body over any memory that is large enough**: if the narrations compute the resolved addresses
over what the stores make of it, then the run returns 0 and hands these addresses out. -/
theorem Emitted.ofBody (hb : img.Built g₀ l) (h : p.Emitted img g mem found) {start final : Bytes}
    (hle : img.bytes.size ≤ start.size) (hfinal : start.writes (p.stores.map Store.write) = final)
    (heval : ∀ x ∈ found,
      (Expr.narration x.1).mapM (Expr.eval final) = .ok (x.2.args.map (·.word))) :
    Run.ofBody start p.body =
      ⟨.ok 0, found.map fun x => ⟨x.2.args.map (·.word), final⟩, final⟩ := by
  have hin : ∀ s ∈ p.stores, s.target.toNat + 4 ≤ start.size :=
    fun s hs => Nat.le_trans (h.inside s hs) hle
  rw [h.body_eq, (Run.stores (h.stores_low hb) hin _).1, hfinal, Run.narrations heval]

/-- **A program returns 0 and hands out the addresses that the compiler resolved**; no addition on
the way wraps around. -/
theorem Emitted.run (hb : img.Built g₀ l) (h : p.Emitted img g mem found) :
    (Machine.ofImage img).run p.body =
        (⟨.ok 0, found.map fun x => ⟨x.2.args.map (·.word), mem⟩, mem⟩, ⟨mem, img.spans⟩) ∧
      ∀ s ∈ Run.sums img.bytes p.body, s < 2 ^ 32 := by
  have heval := h.eval_found hb
  have hsums : ∀ x ∈ found, ∀ e ∈ (Expr.narration x.1).toList, ∀ s ∈ e.sums mem, s < 2 ^ 32 := by
    intro x hx
    obtain ⟨a, w, b, s, hw⟩ := h.exists_walk hb x hx
    exact hw.sums_narration
  refine ⟨?_, ?_⟩
  · show (Run.ofBody img.bytes p.body, Machine.mk (Run.ofBody img.bytes p.body).memory img.spans) = _
    rw [h.ofBody hb (Nat.le_refl _) h.memory.symm heval]
  · rw [h.body_eq, (Run.stores (h.stores_low hb) h.inside _).2, ← h.memory]
    exact Run.sums_narrations heval hsums

end Emitted

/-- **A program runs as it was resolved, also over the image of another graph.** It returns 0; its
calls have the addresses of its narrations, in order; each call can be read at its moment and names
the instance it is for; and no addition of the run exceeds the largest word. -/
theorem execution_follows_resolution {ic : ImageConfig} {ec : EmitConfig} {g₀ g : Graph} {img : Image}
    {p : Program} (hs : g₀.Sized) (himg : (Image.ofGraph ic g₀).result = .ok img)
    (hp : (emit ec img g).result = .ok p) :
    ∃ r m, (Machine.ofImage img).run p.body = (r, m) ∧ r.outcome = .ok 0 ∧
      r.calls.map (·.args) = p.narrations.map (fun n => n.args.map (·.word)) ∧
      List.Forall₂ (fun i call => ∃ n, Machine.narration? img.spans call = some n ∧ n.inst = i.name)
        g.instances.toList r.calls ∧
      ∀ s ∈ Run.sums img.bytes p.body, s < 2 ^ 32 := by
  obtain ⟨l, -, hb⟩ := Image.built_of_ofGraph hs himg
  obtain ⟨-, -, mem, found, he⟩ := emit_eq_ok_iff.mp hp
  obtain ⟨hrun, hsums⟩ := he.run hb
  refine ⟨_, _, hrun, rfl, ?_, ?_, hsums⟩
  · rw [he.narrations, List.map_map, List.map_map]
    rfl
  · rw [List.forall₂_map_right_iff]
    refine (he.walks hb).imp fun i x hx => ?_
    obtain ⟨q, hq, hk, ho, hn, a, w, b, s, hw⟩ := hx
    rw [← ho] at hw
    obtain ⟨i', s', n, hi', -, -, hread⟩ :=
      (he.memory_shape hb).decode_walk hb.sound hq hk hw
    rw [Graph.name?_inst hi'] at hn
    rw [hb.spans]
    exact ⟨_, hread, Option.some.inj hn⟩

/-- A graph that declares nothing but the instance `i1` runs over the image of the cat. -/
theorem stale_cat_runs : ∃ img p r m, (Image.ofGraph {} Sample.cat).result = .ok img ∧
    (emit {} img { instances := #[⟨"i1", ⟨7⟩⟩] }).result = .ok p ∧
    (Machine.ofImage img).run p.body = (r, m) ∧ r.outcome = .ok 0 := by
  have hok : (Image.ofGraph {} Sample.cat >>= fun img =>
      emit {} img { instances := #[⟨"i1", ⟨7⟩⟩] }).result.isOk = true := by decide +kernel
  have hsized : Sample.cat.Sized := Graph.sized_of_footprints (by decide) (by decide) (by decide)
  cases h : (Image.ofGraph {} Sample.cat >>= fun img =>
      emit {} img { instances := #[⟨"i1", ⟨7⟩⟩] }).result with
  | error e =>
    rw [h] at hok
    cases hok
  | ok p =>
    obtain ⟨img, himg, hp⟩ := Traced.result_bind_eq_ok_iff.mp h
    obtain ⟨r, m, hr, hout, -⟩ := execution_follows_resolution hsized himg hp
    exact ⟨img, p, r, m, himg, hp, hr, hout⟩

end Program

end Menagerie
