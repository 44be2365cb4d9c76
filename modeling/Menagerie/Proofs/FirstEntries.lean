import Mathlib.Data.Finset.Card
import Mathlib.Data.List.Induction
import Menagerie.Proofs.Reports
import Menagerie.Proofs.Tiling

/-! # The first entry of a name stays

A directory is filled by calls, each with a name and an offset, and it refuses a name that it has. Said of
the calls alone:

* `Directory.firsts` -- the calls whose name no call before them has, in order. **They answer a name as all
  the calls do** (`lookup_firsts`), and no name comes twice among them (`nodup_names_firsts`);
* `Directory.Follows` -- a directory that holds the first calls and nothing else. **One more call keeps this,
  refused or not** (`Follows.step`), so all calls do (`follows_ofList`);
* `Directory.first_entries_stay` -- hence what the next call does, and what the directory answers by name,
  by position and in number.
-/

namespace Menagerie.Directory

/-! ## 1. The first call of each name -/

/-- A call, unless an earlier one has its name. -/
def fresh? (earlier : List (String × Offset)) (call : String × Offset) : Option (String × Offset) :=
  if earlier.any (·.1 == call.1) then none else some call

/-- The calls whose name no call before them has, in order. -/
def firsts (calls : List (String × Offset)) : List (String × Offset) :=
  calls.zipIdx.filterMap fun x => fresh? (calls.take x.2) x.1

theorem fresh?_of_taken {earlier : List (String × Offset)} {call : String × Offset}
    (h : call.1 ∈ earlier.map (·.1)) : fresh? earlier call = none := by
  obtain ⟨c, hc, hname⟩ := List.mem_map.mp h
  have hbeq : (c.1 == call.1) = true := beq_iff_eq.mpr hname
  exact if_pos (List.any_eq_true.mpr ⟨c, hc, hbeq⟩)

theorem fresh?_of_new {earlier : List (String × Offset)} {call : String × Offset}
    (h : call.1 ∉ earlier.map (·.1)) : fresh? earlier call = some call := by
  refine if_neg fun hany => h ?_
  obtain ⟨c, hc, hname⟩ := List.any_eq_true.mp hany
  exact List.mem_map.mpr ⟨c, hc, beq_iff_eq.mp hname⟩

/-- Whether a further call counts depends on those before it alone. -/
theorem firsts_concat (calls : List (String × Offset)) (call : String × Offset) :
    firsts (calls ++ [call]) = firsts calls ++ (fresh? calls call).toList := by
  have hjudged : ∀ calls, firsts calls = judged fresh? [] calls :=
    fun calls => (judged_eq_filterMap fresh? [] calls).symm
  rw [hjudged, hjudged, judged_append, judged, judged, List.append_nil, List.nil_append]

/-- **The first calls answer a name as all the calls do.** -/
theorem lookup_firsts (calls : List (String × Offset)) (name : String) :
    (firsts calls).lookup name = calls.lookup name := by
  -- from the back: what a call adds depends on the calls before it, not on those after it
  induction calls using List.reverseRecOn with
  | nil => rfl
  | append_singleton calls call ih =>
    obtain ⟨n, o⟩ := call
    rw [firsts_concat, lookup_concat]
    by_cases hn : n ∈ calls.map (·.1)
    · rw [fresh?_of_taken hn, Option.toList_none, List.append_nil, ih]
      by_cases he : name = n
      · -- the name was called before, so the call at the end is not asked
        subst he
        cases hl : calls.lookup name with
        | some p => rfl
        | none => exact absurd hn (lookup_eq_none_iff.mp hl)
      · rw [if_neg (by simpa using he), Option.or_none]
    · rw [fresh?_of_new hn, Option.toList_some, lookup_concat, ih]

theorem mem_names_firsts {calls : List (String × Offset)} {name : String} :
    name ∈ (firsts calls).map (·.1) ↔ name ∈ calls.map (·.1) := by
  rw [← not_iff_not, ← lookup_eq_none_iff, ← lookup_eq_none_iff, lookup_firsts]

/-- **No name comes twice among the first calls.** -/
theorem nodup_names_firsts (calls : List (String × Offset)) : ((firsts calls).map (·.1)).Nodup := by
  induction calls using List.reverseRecOn with
  | nil => exact List.Pairwise.nil
  | append_singleton calls call ih =>
    rw [firsts_concat]
    by_cases hn : call.1 ∈ calls.map (·.1)
    · rw [fresh?_of_taken hn, Option.toList_none, List.append_nil]
      exact ih
    · rw [fresh?_of_new hn, Option.toList_some, List.map_append, List.map_singleton, ← List.concat_eq_append]
      exact ih.concat fun hm => hn (mem_names_firsts.mp hm)

/-! ## 2. One call -/

/-- The directory has entered the first call of each name, and nothing else. -/
structure Follows (kind : RecordKind) (calls : List (String × Offset)) (d : Directory) : Prop where
  kind_eq : d.kind = kind
  toList_eq : d.toList = firsts calls

section Follows

variable {kind : RecordKind} {calls : List (String × Offset)} {d : Directory}

theorem Follows.mem_keys_iff (h : Follows kind calls d) {name : String} :
    name ∈ d.keys ↔ name ∈ calls.map (·.1) := by
  rw [keys, h.toList_eq, mem_names_firsts]

/-- **One more call is followed**, whether it is refused or not. -/
theorem Follows.step (h : Follows kind calls d) (name : String) (offset : Offset) :
    Follows kind (calls ++ [(name, offset)]) (d.insert name offset).2 := by
  rcases d.insert_cases name offset with ⟨hn, herror⟩ | ⟨hn, d', hok, hkind, hlist⟩
  · have htaken : fresh? calls (name, offset) = none := fresh?_of_taken (h.mem_keys_iff.mp hn)
    rw [herror]
    refine ⟨h.kind_eq, ?_⟩
    rw [firsts_concat, htaken, Option.toList_none, List.append_nil]
    exact h.toList_eq
  · have hnew : fresh? calls (name, offset) = some (name, offset) :=
      fresh?_of_new fun hm => hn (h.mem_keys_iff.mpr hm)
    rw [hok]
    refine ⟨hkind.trans h.kind_eq, ?_⟩
    rw [firsts_concat, hnew, Option.toList_some, ← h.toList_eq]
    exact hlist

end Follows

/-! ## 3. All calls -/

section Calls

variable (kind : RecordKind) (calls : List (String × Offset))

theorem ofList_concat (name : String) (offset : Offset) :
    ofList kind (calls ++ [(name, offset)]) =
      ((ofList kind calls).insert name offset).2 := by
  rw [ofList, List.foldl_append]
  rfl

theorem follows_ofList : Follows kind calls (ofList kind calls) := by
  induction calls using List.reverseRecOn with
  | nil => exact ⟨rfl, rfl⟩
  | append_singleton calls call ih =>
    obtain ⟨name, offset⟩ := call
    rw [ofList_concat]
    exact ih.step name offset

/-- **The directory lists the first call of each name**, in the order of the calls. -/
theorem toList_ofList : (ofList kind calls).toList = firsts calls :=
  (follows_ofList kind calls).toList_eq

theorem get?_ofList (name : String) : (ofList kind calls).get? name = calls.lookup name := by
  rw [get?_eq_lookup, toList_ofList, lookup_firsts]

/-- There are as many entries as there are different names among the calls. -/
theorem size_ofList : (ofList kind calls).size = (calls.map (·.1)).toFinset.card := by
  have hnames : (calls.map (·.1)).toFinset = ((firsts calls).map (·.1)).toFinset :=
    List.toFinset.ext fun name => mem_names_firsts.symm
  rw [hnames, List.toFinset_card_of_nodup (nodup_names_firsts calls), List.length_map,
    ← toList_ofList kind calls, size_eq]

end Calls

/-- **The first entry of a name stays.** After any calls on an empty directory, the next call is refused
exactly if its name was called before; the error names the kind and the name, and the directory that comes
back with it is the same as before. The directory lists the first call of each name in the order of the
calls. It answers a name with the offset of the first call that has it, a position with the entry listed
there, and it has as many entries as there are different names among the calls. -/
theorem first_entries_stay (kind : RecordKind) (calls : List (String × Offset)) :
    (∀ name offset,
      (((ofList kind calls).insert name offset).1 = .error (.duplicateName kind name) ↔
        ∃ o, (name, o) ∈ calls) ∧
      (∀ e, ((ofList kind calls).insert name offset).1 = .error e →
        e = .duplicateName kind name ∧ ((ofList kind calls).insert name offset).2 = ofList kind calls) ∧
      ofList kind (calls ++ [(name, offset)]) = ((ofList kind calls).insert name offset).2) ∧
    (ofList kind calls).toList = firsts calls ∧
    (∀ name, (ofList kind calls).get? name = calls.lookup name) ∧
    (∀ j, (ofList kind calls).nth? j = (ofList kind calls).toList[j]?) ∧
    (ofList kind calls).size = (calls.map (·.1)).toFinset.card := by
  refine ⟨fun name offset => ?_, toList_ofList kind calls, get?_ofList kind calls,
    (ofList kind calls).nth?_eq, size_ofList kind calls⟩
  have hfollows := follows_ofList kind calls
  have hcalled : name ∈ (ofList kind calls).keys ↔ ∃ o, (name, o) ∈ calls := by
    rw [hfollows.mem_keys_iff]
    simp
  rcases (ofList kind calls).insert_cases name offset with ⟨hn, herror⟩ | ⟨hn, d', hok, -, -⟩
  · -- taken: the kind in the error is the kind that the directory started with
    rw [hfollows.kind_eq] at herror
    rw [ofList_concat, herror]
    refine ⟨⟨fun _ => hcalled.mp hn, fun _ => rfl⟩, fun e he => ?_, rfl⟩
    cases he
    exact ⟨rfl, rfl⟩
  · rw [ofList_concat, hok]
    refine ⟨⟨fun he => ?_, fun hc => absurd (hcalled.mpr hc) hn⟩, fun e he => ?_, rfl⟩
    · cases he
    · cases he

/-- A cat, a dog and a second cat: the second cat is refused, and the first one stays. -/
theorem second_cat_is_not_entered : ∃ calls : List (String × Offset),
    calls = [("cat", ⟨0⟩), ("dog", ⟨21⟩)] ∧
    ((ofList .animal calls).insert "cat" ⟨42⟩).1 = .error (.duplicateName .animal "cat") ∧
    ((ofList .animal calls).insert "cat" ⟨42⟩).2 = ofList .animal calls ∧
    (ofList .animal (calls ++ [("cat", ⟨42⟩)])).toList = [("cat", ⟨0⟩), ("dog", ⟨21⟩)] ∧
    (ofList .animal (calls ++ [("cat", ⟨42⟩)])).get? "cat" = some ⟨0⟩ ∧
    (ofList .animal (calls ++ [("cat", ⟨42⟩)])).size = 2 := by
  obtain ⟨calls, hcalls⟩ : ∃ calls : List (String × Offset),
    calls = [("cat", ⟨0⟩), ("dog", ⟨21⟩)] := ⟨_, rfl⟩
  obtain ⟨hnext, hlist, hget, -, hsize⟩ := first_entries_stay .animal calls
  obtain ⟨hrefused, hstays, hafter⟩ := hnext "cat" ⟨42⟩
  have herror := hrefused.mpr ⟨⟨0⟩, by rw [hcalls]; exact List.mem_cons_self⟩
  have hkept := (hstays _ herror).2
  have hsame := hafter.trans hkept
  refine ⟨calls, hcalls, herror, hkept, ?_, ?_, ?_⟩
  · rw [hsame, hlist, hcalls]
    decide
  · rw [hsame, hget, hcalls]
    decide
  · rw [hsame, hsize, hcalls]
    decide

end Menagerie.Directory
