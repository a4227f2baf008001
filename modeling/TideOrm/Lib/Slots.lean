import TideOrm.Lib.HashMap
import TideOrm.Lib.Recursion
import Mathlib.Data.List.Induction

/-! Groups in a vector that a hash index finds by their keys: whatever the order of the rows,
each row joins the group of the first row with its key. -/

namespace Lib

variable {R K G : Type} [DecidableEq K]

/-- The slot of a key, which joins the vector with `made` where it is new. -/
def enter (index : HashMap K ℕ) (groups : List G) (key : K) (made : G) : ℕ × HashMap K ℕ × List G :=
  match index.lookup key with
  | some slot => (slot, index, groups)
  | none => (groups.length, index.insert key groups.length, groups ++ [made])

/-- One row joins the group in its slot; a slot outside the vector fails. -/
def join (key : R → K) (make : R → G) (add : G → R → Option G) (s : HashMap K ℕ × List G) (row : R) :
    Option (HashMap K ℕ × List G) :=
  match enter s.1 s.2 (key row) (make row) with
  | (slot, index, groups) => do
    let group ← groups[slot]?
    let joined ← add group row
    return (index, groups.set slot joined)

/-- Rows are of one group where their keys are equal. -/
def sameKey (key : R → K) (row other : R) : Bool := key row == key other

theorem firsts_concat (same : R → R → Bool) (rows : List R) (row : R) : ∀ seen : List R,
    firsts same seen (rows ++ [row]) =
      firsts same seen rows ++ if (seen ++ firsts same seen rows).any fun other => same other row then [] else [row] := by
  induction rows with
  | nil =>
    intro seen
    rw [List.nil_append, firsts, firsts, firsts, firsts, List.append_nil, List.nil_append]
  | cons first rows ih =>
    intro seen
    rw [List.cons_append, firsts, firsts]
    cases seen.any fun other => same other first with
    | true => exact ih seen
    | false =>
      have hany : (seen ++ first :: firsts same (first :: seen) rows).any (fun other => same other row) =
          (first :: seen ++ firsts same (first :: seen) rows).any fun other => same other row := by
        rw [List.any_append, List.any_cons, List.any_append, List.any_cons, Bool.or_left_comm, Bool.or_assoc]
      simp only [Bool.false_eq_true, if_false, hany]
      rw [ih (first :: seen)]
      rfl

/-- A row has a first row it is the same as. -/
theorem exists_first {same : R → R → Bool} (hrefl : ∀ row, same row row = true) {rows : List R} : ∀ (seen : List R) {row : R},
    row ∈ rows → ∃ other ∈ seen ++ firsts same seen rows, same other row = true := by
  induction rows with
  | nil => exact fun _ _ h => (List.not_mem_nil h).elim
  | cons first rows ih =>
    intro seen row hrow
    rw [firsts]
    cases hseen : seen.any fun other => same other first with
    | true =>
      rcases List.mem_cons.1 hrow with rfl | hrow
      · obtain ⟨other, hother, hsame⟩ := List.any_eq_true.1 hseen
        exact ⟨other, List.mem_append_left _ hother, hsame⟩
      · exact ih seen hrow
    | false =>
      rcases List.mem_cons.1 hrow with rfl | hrow
      · exact ⟨row, List.mem_append_right _ List.mem_cons_self, hrefl row⟩
      · obtain ⟨other, hother, hsame⟩ := ih (first :: seen) hrow
        refine ⟨other, ?_, hsame⟩
        simpa [or_left_comm] using hother

/-- One group for each key, in the order the keys first appear in: the first row of the key, and all its rows. -/
def byKey (key : R → K) (rows : List R) : List (R × List R) :=
  (rows.map key).eraseDups.filterMap fun k =>
    (rows.find? fun row => key row = k).map fun first => (first, rows.filter fun row => key row = k)

section ByKey

variable (key : R → K)

theorem map_firsts (rows : List R) : (firsts (sameKey key) [] rows).map key = (rows.map key).eraseDups := by
  induction rows using List.reverseRecOn with
  | nil => rfl
  | append_singleton rows row ih =>
    rw [List.map_append, List.eraseDups_append, ← ih, firsts_concat, List.nil_append]
    have hmem : (firsts (sameKey key) [] rows).any (fun other => sameKey key other row) = (rows.map key).contains (key row) := by
      rw [Bool.eq_iff_iff, List.contains_iff_mem, ← List.mem_eraseDups, ← ih, List.mem_map, List.any_eq_true]
      exact exists_congr fun other => and_congr_right fun _ => beq_iff_eq
    rw [hmem, List.map_singleton, List.cons_removeAll]
    cases (rows.map key).contains (key row) with
    | true => simp
    | false => simp [List.eraseDups_cons]

theorem find_first {rows : List R} {row : R} (h : row ∈ firsts (sameKey key) [] rows) :
    rows.find? (fun other => key other = key row) = some row := by
  induction rows using List.reverseRecOn with
  | nil => exact (List.not_mem_nil h).elim
  | append_singleton rows last ih =>
    rw [firsts_concat, List.nil_append, List.mem_append] at h
    rw [List.find?_append]
    rcases h with h | h
    · rw [ih h]
      rfl
    · split_ifs at h with hany
      · exact (List.not_mem_nil h).elim
      · obtain rfl := List.mem_singleton.1 h
        have hnone : rows.find? (fun other => key other = key row) = none := by
          refine List.find?_eq_none.2 fun other hother hkey => hany ?_
          have hrefl : ∀ row, sameKey key row row = true := fun row => beq_self_eq_true (key row)
          obtain ⟨first, hfirst, hsame⟩ := exists_first hrefl [] hother
          exact List.any_eq_true.2 ⟨first, hfirst, beq_iff_eq.2 ((beq_iff_eq.1 hsame).trans (of_decide_eq_true hkey))⟩
        rw [hnone]
        simp

theorem groups_sameKey (rows : List R) : groups (sameKey key) rows = byKey key rows := by
  rw [byKey, ← map_firsts, List.filterMap_map, groups, ← List.filterMap_eq_map]
  refine List.filterMap_congr fun row hrow => ?_
  rw [Function.comp_apply, Function.comp_apply, find_first key hrow, Option.map_some]
  refine congrArg (fun same => some (row, rows.filter same)) (funext fun other => ?_)
  exact Bool.eq_iff_iff.2 (beq_iff_eq.trans (eq_comm.trans decide_eq_true_iff.symm))

end ByKey

section Join

variable (key : R → K) (make : R → G) (add : G → R → Option G)

/-- The rows of each group, added to it one after another. -/
def joined (rows : List R) : List (Option G) :=
  (groups (sameKey key) rows).map fun group => group.2.foldlM add (make group.1)

/-- The index finds the group of each key, and the groups hold the rows taken so far. -/
structure Aligned (rows : List R) (s : HashMap K ℕ × List G) : Prop where
  slots : ∀ k i, s.1.lookup k = some i ↔ ((firsts (sameKey key) [] rows).map key)[i]? = some k
  groups : s.2.map some = joined key make add rows

variable {key make add} {rows : List R} {s : HashMap K ℕ × List G}

theorem aligned_nil : Aligned key make add [] (∅, []) := by
  refine ⟨fun k i => ?_, rfl⟩
  rw [AList.lookup_empty, firsts]
  simp

theorem Aligned.length_eq (h : Aligned key make add rows s) : s.2.length = (firsts (sameKey key) [] rows).length := by
  simpa [joined, Lib.groups] using congrArg List.length h.groups

theorem Aligned.group_eq (h : Aligned key make add rows s) (i : ℕ) : s.2[i]?.map some =
    (firsts (sameKey key) [] rows)[i]?.map fun row => (rows.filter (sameKey key row)).foldlM add (make row) := by
  have hget := congrArg (fun groups => groups[i]?) h.groups
  simpa only [joined, Lib.groups, List.getElem?_map, Option.map_map, Function.comp_def] using hget

theorem Aligned.unique (h : Aligned key make add rows s) {i j : ℕ} {row other : R} (hi : (firsts (sameKey key) [] rows)[i]? = some row)
    (hj : (firsts (sameKey key) [] rows)[j]? = some other) (hkey : key row = key other) : i = j := by
  have hslot : s.1.lookup (key row) = some i := (h.slots _ i).2 (by rw [List.getElem?_map, hi, Option.map_some])
  have hslot' : s.1.lookup (key row) = some j := (h.slots _ j).2 (by rw [List.getElem?_map, hj, Option.map_some, hkey])
  exact Option.some_inj.1 (hslot.symm.trans hslot')

theorem filter_concat (same : R → Bool) (rows : List R) (row : R) :
    (rows ++ [row]).filter same = rows.filter same ++ if same row then [row] else [] := by
  rw [List.filter_append, List.filter_singleton]
  cases same row <;> rfl

theorem getElem?_concat_iff {A : Type} {l : List A} {a b : A} {i : ℕ} :
    (l ++ [a])[i]? = some b ↔ l[i]? = some b ∨ i = l.length ∧ a = b := by
  rcases Nat.lt_trichotomy i l.length with hi | rfl | hi
  · rw [List.getElem?_append_left hi]
    exact (or_iff_left fun h => hi.ne h.1).symm
  · simp
  · rw [List.getElem?_append_right hi.le, List.getElem?_eq_none (by simp; omega), List.getElem?_eq_none hi.le]
    simp [hi.ne']

/-- A row whose key has a slot joins the group there. -/
theorem Aligned.join_old (h : Aligned key make add rows s) {row : R} {slot : ℕ} (hslot : s.1.lookup (key row) = some slot)
    (hall : ∀ group ∈ joined key make add (rows ++ [row]), group.isSome = true) :
    ∃ s', join key make add s row = some s' ∧ Aligned key make add (rows ++ [row]) s' := by
  have hkeys := (h.slots _ slot).1 hslot
  rw [List.getElem?_map, Option.map_eq_some_iff] at hkeys
  obtain ⟨first, hfirst, hkey⟩ := hkeys
  have hfirsts : firsts (sameKey key) [] (rows ++ [row]) = firsts (sameKey key) [] rows := by
    have hany : (firsts (sameKey key) [] rows).any (fun other => sameKey key other row) = true :=
      List.any_eq_true.2 ⟨first, List.mem_of_getElem? hfirst, beq_iff_eq.2 hkey⟩
    rw [firsts_concat, List.nil_append, if_pos hany, List.append_nil]
  -- what the group in the slot holds already
  have hgroup := h.group_eq slot
  rw [hfirst, Option.map_some] at hgroup
  obtain ⟨group, hget, hfold⟩ := Option.map_eq_some_iff.1 hgroup
  have hjoined : ((rows ++ [row]).filter (sameKey key first)).foldlM add (make first) = add group row := by
    have hsame : sameKey key first row = true := beq_iff_eq.2 hkey
    rw [filter_concat, if_pos hsame, List.foldlM_append, ← hfold]
    exact (Option.bind_some ..).trans (bind_pure _)
  have hmem : first ∈ firsts (sameKey key) [] (rows ++ [row]) := hfirsts ▸ List.mem_of_getElem? hfirst
  have hsome := hall _ (List.mem_map.2 ⟨(first, _), List.mem_map.2 ⟨first, hmem, rfl⟩, rfl⟩)
  rw [hjoined] at hsome
  obtain ⟨after, hafter⟩ := Option.isSome_iff_exists.1 hsome
  refine ⟨(s.1, s.2.set slot after), by simp [join, enter, hslot, hget, hafter], fun k i => ?_, ?_⟩
  · rw [hfirsts]
    exact h.slots k i
  · refine List.ext_getElem? fun i => ?_
    rw [joined, Lib.groups, hfirsts, List.map_map, List.getElem?_map, List.getElem?_map]
    have hold := h.group_eq i
    by_cases hi : slot = i
    · subst hi
      rw [List.getElem?_set_self (List.getElem?_eq_some_iff.1 hget).1, hfirst, Option.map_some, Option.map_some, ← hafter, ← hjoined]
      rfl
    · rw [List.getElem?_set_ne hi, hold]
      cases hother : (firsts (sameKey key) [] rows)[i]? with
      | none => rfl
      | some other =>
        have hne : sameKey key other row = false := beq_eq_false_iff_ne.2 fun heq =>
          hi (h.unique hfirst hother (hkey.trans heq.symm))
        rw [Option.map_some, Option.map_some, Function.comp_apply, filter_concat, hne]
        simp

/-- A row with a new key is the first of a group at the end. -/
theorem Aligned.join_new (h : Aligned key make add rows s) {row : R} (hslot : s.1.lookup (key row) = none)
    (hall : ∀ group ∈ joined key make add (rows ++ [row]), group.isSome = true) :
    ∃ s', join key make add s row = some s' ∧ Aligned key make add (rows ++ [row]) s' := by
  have hnew : ∀ first ∈ firsts (sameKey key) [] rows, key first ≠ key row := by
    intro first hfirst hkey
    obtain ⟨i, hi⟩ := List.mem_iff_getElem?.1 hfirst
    have hsome := (h.slots (key row) i).2 (by rw [List.getElem?_map, hi, Option.map_some, hkey])
    rw [hslot] at hsome
    cases hsome
  have hfirsts : firsts (sameKey key) [] (rows ++ [row]) = firsts (sameKey key) [] rows ++ [row] := by
    have hany : (firsts (sameKey key) [] rows).any (fun other => sameKey key other row) = false :=
      List.any_eq_false.2 fun first hfirst => by simpa [sameKey] using hnew first hfirst
    rw [firsts_concat, List.nil_append, hany]
    rfl
  have hown : (rows ++ [row]).filter (sameKey key row) = [row] := by
    have hnone : rows.filter (sameKey key row) = [] := by
      refine List.filter_eq_nil_iff.2 fun other hother hsame => ?_
      have hrefl : ∀ row, sameKey key row row = true := fun row => beq_self_eq_true (key row)
      obtain ⟨first, hfirst, hkey⟩ := exists_first hrefl [] hother
      exact hnew first hfirst ((beq_iff_eq.1 hkey).trans (beq_iff_eq.1 hsame).symm)
    have hself : sameKey key row row = true := beq_self_eq_true (key row)
    rw [filter_concat, hnone, hself]
    rfl
  have hmem : row ∈ firsts (sameKey key) [] (rows ++ [row]) := by simp [hfirsts]
  have hsome := hall _ (List.mem_map.2 ⟨(row, _), List.mem_map.2 ⟨row, hmem, rfl⟩, rfl⟩)
  have hjoined : [row].foldlM add (make row) = add (make row) row := bind_pure _
  rw [hown, hjoined] at hsome
  obtain ⟨after, hafter⟩ := Option.isSome_iff_exists.1 hsome
  have hkeys : (firsts (sameKey key) [] (rows ++ [row])).map key = (firsts (sameKey key) [] rows).map key ++ [key row] := by
    rw [hfirsts, List.map_append, List.map_singleton]
  refine ⟨(s.1.insert (key row) s.2.length, s.2 ++ [after]), by simp [join, enter, hslot, hafter], fun k i => ?_, ?_⟩
  · rw [hkeys, getElem?_concat_iff, ← h.slots, AList.lookup_insert_cases, List.length_map, ← h.length_eq]
    split_ifs with hk
    · rw [hk, hslot, Option.some_inj]
      simp [eq_comm]
    · simp [Ne.symm hk]
  · have hrest : (rows ++ [row]).filter (sameKey key row) = [row] := hown
    have hold : (firsts (sameKey key) [] rows).map (fun first => ((rows ++ [row]).filter (sameKey key first)).foldlM add (make first)) =
        s.2.map some := by
      rw [h.groups, joined, Lib.groups, List.map_map]
      refine List.map_congr_left fun first hfirst => ?_
      have hne : sameKey key first row = false := beq_eq_false_iff_ne.2 (hnew first hfirst)
      rw [filter_concat, hne]
      simp
    rw [joined, Lib.groups, hfirsts, List.map_map, List.map_append, List.map_append]
    refine congrArg₂ _ hold.symm ?_
    rw [List.map_singleton, List.map_singleton, Function.comp_apply, hrest, hjoined, hafter]

/-- A group that all rows can be added to is one that the rows before the last can. -/
theorem isSome_of_concat {row : R} (hall : ∀ group ∈ joined key make add (rows ++ [row]), group.isSome = true) :
    ∀ group ∈ joined key make add rows, group.isSome = true := by
  intro group hgroup
  rw [joined, Lib.groups, List.map_map] at hgroup
  obtain ⟨first, hfirst, rfl⟩ := List.mem_map.1 hgroup
  have hmem : first ∈ firsts (sameKey key) [] (rows ++ [row]) := by
    rw [firsts_concat]
    exact List.mem_append_left _ hfirst
  have hsome := hall _ (List.mem_map.2 ⟨(first, _), List.mem_map.2 ⟨first, hmem, rfl⟩, rfl⟩)
  rw [filter_concat, List.foldlM_append] at hsome
  exact Option.isSome_of_isSome_bind hsome

/-- The rows join one after another, where they can be added to their groups at all. -/
theorem join_run (rows : List R) (hall : ∀ group ∈ joined key make add rows, group.isSome = true) :
    ∃ s, rows.foldlM (join key make add) (∅, []) = some s ∧ Aligned key make add rows s := by
  induction rows using List.reverseRecOn with
  | nil => exact ⟨_, rfl, aligned_nil⟩
  | append_singleton rows row ih =>
    obtain ⟨s, hs, haligned⟩ := ih (isSome_of_concat hall)
    have hstep : ∃ s', join key make add s row = some s' ∧ Aligned key make add (rows ++ [row]) s' := by
      cases hslot : s.1.lookup (key row) with
      | some slot => exact haligned.join_old hslot hall
      | none => exact haligned.join_new hslot hall
    obtain ⟨s', hs', haligned'⟩ := hstep
    refine ⟨s', ?_, haligned'⟩
    rw [List.foldlM_append, hs]
    exact (Option.bind_some ..).trans ((bind_pure _).trans hs')

end Join

end Lib
