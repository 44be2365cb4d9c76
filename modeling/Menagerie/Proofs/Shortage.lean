import Mathlib.Algebra.Order.BigOperators.Group.List
import Mathlib.Algebra.Order.Group.Nat
import Menagerie.Proofs.Limits
import Menagerie.Proofs.Truthfulness

/-! # Graphs that want nothing but room

A graph without faults, with texts that have bytes and with every instance in some world can fail to
compile for one reason only:

* `Graph.Ready` -- such a graph;
* `Graph.Ready.overflow_of_layout` -- **its layout fails only by an overflow**, however long its records are;
* `Graph.Ready.overflow_of_compile` -- so does its compilation, if its records are below `2 ^ 32` bytes;
* `Graph.Ready.compile_of_room` -- **with room for its bytes and pages it compiles**, into as many bytes as its
  records take.
-/

namespace Menagerie

/-- **A graph that wants nothing but room**: it has no fault, its texts have bytes, and each instance is
in some world. -/
structure Graph.Ready (g : Graph) : Prop where
  wellFormed : g.WellFormed true
  encodable : g.Encodable
  housed : ∀ n, n < g.instances.size → ∃ w ∈ g.worlds, w.Lists n

/-- A record is no longer than all of them together. -/
theorem Graph.sized_of_footprint {g : Graph} (h : g.footprint < 2 ^ 32) : g.Sized := by
  rw [footprint] at h
  refine sized_of_footprints (fun a ha => ?_) (fun i hi => ?_) fun w hw => ?_
  · have hle := List.le_sum_of_mem (List.mem_map_of_mem (f := Animal.footprint)
      (Array.mem_toList_iff.mpr ha))
    omega
  · have hle := List.le_sum_of_mem (List.mem_map_of_mem (f := Instance.footprint)
      (Array.mem_toList_iff.mpr hi))
    omega
  · have hle := List.le_sum_of_mem (List.mem_map_of_mem (f := World.footprint)
      (Array.mem_toList_iff.mpr hw))
    omega

/-! ## 1. Layouts -/

namespace Layout

variable {α : Type} {limit : Nat} {name : α → String} {encode : α → Except CompileError Record}
  {e : CompileError}

/-- A declaration that can be encoded and has a new name stops a pass only by its size. -/
theorem passStep_overflows {p : Progress} {x : α} {index : Nat} {r : Record} (hr : encode x = .ok r)
    (hn : name x ∉ p.names.keys) (h : (passStep limit name encode p (x, index)).result = .error e) :
    ∃ required, e = .overflow required limit := by
  have hstop := passStep_eq_error_iff.mp h
  rw [hr] at hstop
  cases hstop with
  | size => exact ⟨_, rfl⟩
  | taken _ htaken => exact absurd htaken hn

theorem foldl_overflows {p : Progress} {items : List α} {index : Nat}
    (hr : ∀ x ∈ items, ∃ r, encode x = .ok r) (hn : (p.names.keys ++ items.map name).Nodup)
    (h : (Traced.foldl (passStep limit name encode) p (items.zipIdx index)).result = .error e) :
    ∃ required, e = .overflow required limit := by
  induction items generalizing p index with
  | nil => cases h
  | cons x items ih =>
    obtain ⟨⟨r, hx⟩, hitems⟩ := List.forall_mem_cons.mp hr
    rw [List.zipIdx_cons, Traced.foldl_cons] at h
    rcases Traced.result_bind_eq_error_iff.mp h with h | ⟨q, hq, h⟩
    · have hnew : name x ∉ p.names.keys := fun hm =>
        (List.nodup_append.mp hn).2.2 _ hm _ List.mem_cons_self rfl
      exact passStep_overflows hx hnew h
    · obtain ⟨r', -, hplace⟩ := passStep_eq_ok_iff.mp hq
      have hkeys : q.names.keys = p.names.keys ++ [name x] := (place_adds hplace).1.keys rfl
      refine ih hitems ?_ h
      rw [hkeys, List.append_assoc]
      exact hn

/-- **A pass over declarations that can be encoded, with names that differ, fails only by an overflow.** -/
theorem pass_overflows {kind : RecordKind} {items : List α} {records : Array Placed} {next : Nat}
    (hr : ∀ x ∈ items, ∃ r, encode x = .ok r) (hn : (items.map name).Nodup)
    (h : (pass limit kind name encode items records next).result = .error e) :
    ∃ required, e = .overflow required limit := by
  rw [pass_eq] at h
  have hstart : ((Directory.empty kind).keys ++ items.map name).Nodup := hn
  exact foldl_overflows hr hstart h

end Layout

namespace Graph.Ready

variable {g : Graph} {e : CompileError}

theorem overflow_of_layout {c : ImageConfig} (hg : g.Ready)
    (h : (Layout.ofGraph c g).result = .error e) : ∃ required, e = .overflow required c.limit := by
  have hwf := hg.wellFormed
  have henc := hg.encodable
  rw [Layout.ofGraph] at h
  rcases Traced.result_bind_eq_error_iff.mp h with h | ⟨a, ha, h⟩
  · refine Layout.pass_overflows (fun x hx => ?_) (hwf.names .animal) h
    exact ⟨_, Record.ofAnimal_eq_ok_iff.mpr ⟨henc.animals x (Array.mem_toList_iff.mp hx), rfl⟩⟩
  obtain ⟨as, -, hanimals, -, -, hfits⟩ := Layout.pass_row (Nat.zero_le _) ha
  rcases Traced.result_bind_eq_error_iff.mp h with h | ⟨i, hi, h⟩
  · refine Layout.pass_overflows (fun x hx => ?_) (hwf.names .inst) h
    have hx := Array.mem_toList_iff.mp hx
    exact Record.ofInst_succeeds hanimals.keys (hwf.species x hx) (henc.instances x hx)
  obtain ⟨is, -, hinsts, -⟩ := Layout.pass_row hfits hi
  rcases Traced.result_bind_eq_error_iff.mp h with h | ⟨w, -, h⟩
  · refine Layout.pass_overflows (fun x hx => ?_) (hwf.names .world) h
    exact Record.ofWorld_succeeds hinsts.keys
      (fun r hr => hwf.members r (List.mem_flatMap.mpr ⟨x, hx, hr⟩))
      (henc.worlds x (Array.mem_toList_iff.mp hx))
  · cases h

/-! ## 2. Compilations -/

variable {c : Compiler}

/-- A text of the graph has no character without a byte. -/
theorem firstWide?_eq_none (hg : g.Ready) {kind : RecordKind} {name field s : String}
    (h : g.Text kind name field s) : Bytes.firstWide? s = none := by
  refine Bytes.firstWide?_eq_none_iff.mpr ?_
  cases h with
  | gene h => exact (hg.encodable.animals _ h).1
  | animalName h => exact (hg.encodable.animals _ h).2.1
  | sound h => exact (hg.encodable.animals _ h).2.2
  | instName h => exact hg.encodable.instances _ h
  | worldName h => exact hg.encodable.worlds _ h

/-- **Nothing but an overflow is true of a graph that is ready.** -/
theorem overflow_of_compile (hg : g.Ready) (hs : g.Sized) (h : (c.compile g).result = .error e) :
    ∃ required limit, e = .overflow required limit := by
  have hj := Compiler.justified_of_compile hs h
  have hnone : ∀ v, v ∉ g.violations := by
    rw [(Graph.wellFormed_iff.mp hg.wellFormed).2 rfl]
    exact fun _ => List.not_mem_nil
  cases e with
  | duplicateName => exact absurd hj (hnone _)
  | unresolved site target =>
    cases site with
    | species => exact absurd hj (hnone _)
    | listing =>
      obtain ⟨position, hposition⟩ := hj
      exact absurd hposition (hnone _)
    | transfer => exact absurd hj (hnone _)
    | narrated => exact hj.elim
    | stored => exact hj.elim
  | duplicatePlacement => exact absurd hj.2 (hnone _)
  | unencodable =>
    obtain ⟨s, hs, hwide⟩ := hj
    rw [hg.firstWide?_eq_none hs] at hwide
    cases hwide
  | dereference =>
    obtain ⟨-, -, n, i, hi, -, hworlds, -⟩ := hj
    obtain ⟨hn, -⟩ := Array.getElem?_eq_some_iff.mp hi
    obtain ⟨w, hw, hmem⟩ := hg.housed n hn
    exact absurd hmem (hworlds w hw)
  | overflow required limit => exact ⟨required, limit, rfl⟩

/-- **A graph that is ready compiles or overflows.** Records of `2 ^ 32` bytes do no harm as long as no
layout has room for them. -/
theorem compiles_or_overflows (hg : g.Ready)
    (hs : ∀ l, (Layout.ofGraph c.image g).result = .ok l → g.Sized) :
    (∃ p, (c.compile g).result = .ok p) ∨
      ∃ required limit, (c.compile g).result = .error (.overflow required limit) := by
  cases hl : (Layout.ofGraph c.image g).result with
  | error e =>
    obtain ⟨required, rfl⟩ := hg.overflow_of_layout hl
    have himg : (Image.ofGraph c.image g).result = .error (.overflow required c.image.limit) :=
      Traced.result_bind_eq_error_iff.mpr (.inl hl)
    exact .inr ⟨_, _, Compiler.result_of_no_image himg⟩
  | ok l =>
    cases h : (c.compile g).result with
    | ok p => exact .inl ⟨p, rfl⟩
    | error e =>
      obtain ⟨required, limit, rfl⟩ := hg.overflow_of_compile (hs l hl) h
      exact .inr ⟨required, limit, rfl⟩

/-- **With room for its bytes and pages, a graph that is ready compiles.** -/
theorem compile_of_room (hg : g.Ready) (hlimit : g.footprint ≤ c.image.limit)
    (hpages : c.emit.pagesFor g.footprint ≤ c.emit.maxPages) :
    ∃ p, (c.compile g).result = .ok p ∧ p.image.size = g.footprint := by
  have hs : g.Sized := by
    have hword : c.image.limit ≤ 2 ^ 32 - 1 := Nat.min_le_right _ _
    exact Graph.sized_of_footprint (by omega)
  cases h : (c.compile g).result with
  | ok p =>
    obtain ⟨img, himg, hemit⟩ := Compiler.compile_eq_ok_iff.mp h
    obtain ⟨-, -, mem, found, he⟩ := Program.emit_eq_ok_iff.mp hemit
    exact ⟨p, rfl, by rw [he.image, Image.size_of_ofGraph hs himg]⟩
  | error e =>
    obtain ⟨required, limit, rfl⟩ := hg.overflow_of_compile hs h
    rcases Compiler.justified_of_compile hs h with ⟨hlim, hlt, hle⟩ | ⟨-, -, hlt⟩
    · omega
    · omega

/-- What takes up to 256 pages compiles with the default limits, strictly or not. -/
theorem compile_of_pages (hg : g.Ready) (strict : Bool) (h : g.footprint ≤ 256 * pageSize) :
    ∃ p, (Compiler.compile { image := { strict := strict } } g).result = .ok p ∧
      p.image.size = g.footprint :=
  hg.compile_of_room h (EmitConfig.pagesFor_le_iff.mpr ⟨h, show 1 ≤ 256 by decide⟩)

end Graph.Ready

end Menagerie
