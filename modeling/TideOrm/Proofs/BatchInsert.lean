import Mathlib.Data.List.ReduceOption
import TideOrm.Lib.Traverse
import TideOrm.Spec.BatchInsert

/-! The rows of a batch in the batch's order: chunk by chunk, each row under the key of its model. -/

namespace TideOrm.BatchInsert

open Lib

variable {Column Row Model : Type} (M : BatchModel Column Row Model)

section Placing

/-- The keys not yet met are where they stand, over an empty slot; a filled slot has its key's row. -/
structure Placed (keys : List (List Char)) (positions : HashMap (List Char) ℕ) (ordered : List (Option Row)) : Prop where
  length : ordered.length = keys.length
  lookup : ∀ (key : List Char) (i : ℕ), positions.lookup key = some i ↔ keys[i]? = some key ∧ ordered[i]? = some none
  filled : ∀ (i : ℕ) (row : Row), ordered[i]? = some (some row) → keys[i]? = some (storedKey M row)

variable {M} {keys : List (List Char)} {positions : HashMap (List Char) ℕ} {ordered : List (Option Row)}

theorem getElem?_inj (hkeys : keys.Nodup) {key : List Char} {i j : ℕ} (hi : keys[i]? = some key) (hj : keys[j]? = some key) :
    i = j := by
  obtain ⟨hilt, hi⟩ := List.getElem?_eq_some_iff.1 hi
  obtain ⟨hjlt, hj⟩ := List.getElem?_eq_some_iff.1 hj
  exact (hkeys.getElem_inj_iff).1 (hi.trans hj.symm)

/-- One row is placed. -/
theorem Placed.step (h : Placed M keys positions ordered) (hkeys : keys.Nodup) {row : Row} {i : ℕ}
    (hlookup : positions.lookup (storedKey M row) = some i) :
    Placed M keys (positions.erase (storedKey M row)) (ordered.set i (some row)) := by
  obtain ⟨hkey, hslot⟩ := (h.lookup _ _).1 hlookup
  have hlt : i < ordered.length := (List.getElem?_eq_some_iff.1 hslot).1
  refine ⟨by rw [List.length_set, h.length], fun key j => ?_, fun j stored hstored => ?_⟩
  · by_cases hsame : key = storedKey M row
    · subst hsame
      rw [AList.lookup_erase]
      constructor
      · intro hnone
        cases hnone
      · rintro ⟨hj, hempty⟩
        rw [getElem?_inj hkeys hj hkey, List.getElem?_set_self hlt] at hempty
        cases hempty
    · rw [AList.lookup_erase_ne hsame, h.lookup]
      refine and_congr_right fun hj => ?_
      have hne : i ≠ j := by
        rintro rfl
        rw [hkey, Option.some_inj] at hj
        exact hsame hj.symm
      rw [List.getElem?_set_ne hne]
  · by_cases hne : i = j
    · subst hne
      rw [List.getElem?_set_self hlt, Option.some_inj, Option.some_inj] at hstored
      rw [hkey, hstored]
    · rw [List.getElem?_set_ne hne] at hstored
      exact h.filled j stored hstored

/-- A slot that is filled adds its row to the rows placed. -/
theorem reduceOption_set {row : Row} {i : ℕ} (h : ordered[i]? = some none) :
    (ordered.set i (some row)).reduceOption.Perm (row :: ordered.reduceOption) := by
  induction ordered generalizing i with
  | nil => cases h
  | cons slot ordered ih =>
    cases i with
    | zero =>
      obtain rfl : slot = none := by simpa using h
      exact List.Perm.refl _
    | succ i =>
      have hrest := ih (by simpa using h)
      cases slot with
      | none => exact hrest
      | some first =>
        rw [List.set_cons_succ, List.reduceOption_cons_of_some, List.reduceOption_cons_of_some]
        exact (hrest.cons first).trans (List.Perm.swap row first _)

/-- Placing goes through exactly the rows, each under a key of its own. -/
theorem placeRows_ok (hkeys : keys.Nodup) {rows : List Row} {ordered' : List (Option Row)} (h : Placed M keys positions ordered)
    (hplace : placeRows M rows positions ordered = .ok ordered') :
    (∃ positions', Placed M keys positions' ordered') ∧ ordered'.reduceOption.Perm (rows ++ ordered.reduceOption) := by
  induction rows generalizing positions ordered with
  | nil =>
    cases hplace
    exact ⟨⟨positions, h⟩, List.Perm.refl _⟩
  | cons row rows ih =>
    rw [placeRows] at hplace
    cases hlookup : positions.lookup (storedKey M row) with
    | none => simp [hlookup] at hplace
    | some i =>
      simp only [hlookup] at hplace
      obtain ⟨hplaced, hperm⟩ := ih (h.step hkeys hlookup) hplace
      have hset := @reduceOption_set _ _ row _ ((h.lookup _ _).1 hlookup).2
      refine ⟨hplaced, hperm.trans ((hset.append_left rows).trans ?_)⟩
      exact List.perm_middle

/-- Rows under distinct keys that are not taken are all placed. -/
theorem placeRows_exists (hkeys : keys.Nodup) {rows : List Row} (h : Placed M keys positions ordered)
    (hdistinct : (rows.map (storedKey M)).Nodup) (hfree : ∀ row ∈ rows, ∃ i, positions.lookup (storedKey M row) = some i) :
    ∃ ordered', placeRows M rows positions ordered = .ok ordered' := by
  induction rows generalizing positions ordered with
  | nil => exact ⟨ordered, rfl⟩
  | cons row rows ih =>
    obtain ⟨i, hlookup⟩ := hfree row (List.mem_cons_self ..)
    rw [List.map_cons, List.nodup_cons] at hdistinct
    rw [placeRows]
    simp only [hlookup]
    refine ih (h.step hkeys hlookup) hdistinct.2 fun other hother => ?_
    have hne : storedKey M other ≠ storedKey M row := fun heq => hdistinct.1 (heq ▸ List.mem_map_of_mem hother)
    rw [AList.lookup_erase_ne hne]
    exact hfree other (List.mem_cons_of_mem _ hother)

end Placing

section Ordering

variable {M} {keys : List ClientKey}

theorem keyPositions_fold (keys : List ClientKey) (start : ℕ) (positions : HashMap (List Char) ℕ)
    (hkeys : (keys.map ClientKey.text).Nodup) (key : List Char) :
    ((keys.zipIdx start).foldl (fun positions (key, position) => positions.insert key.text position) positions).lookup key =
      if key ∈ keys.map ClientKey.text then some (start + (keys.map ClientKey.text).idxOf key) else positions.lookup key := by
  induction keys generalizing start positions with
  | nil => rfl
  | cons first keys ih =>
    rw [List.map_cons, List.nodup_cons] at hkeys
    rw [List.zipIdx_cons, List.foldl_cons, ih _ _ hkeys.2, List.map_cons]
    by_cases hfirst : key = first.text
    · subst hfirst
      rw [if_neg hkeys.1, if_pos (List.mem_cons_self ..), AList.lookup_insert, List.idxOf_cons_self]
      rfl
    · by_cases hmem : key ∈ keys.map ClientKey.text
      · rw [if_pos hmem, if_pos (List.mem_cons_of_mem _ hmem), List.idxOf_cons_ne _ (Ne.symm hfirst)]
        congr 1
        omega
      · rw [if_neg hmem, if_neg (by rw [List.mem_cons]; exact not_or.2 ⟨hfirst, hmem⟩), AList.lookup_insert_ne hfirst]

/-- Before any row is placed every key stands over an empty slot. -/
theorem placed_start (hkeys : (keys.map ClientKey.text).Nodup) :
    Placed M (keys.map ClientKey.text) (keyPositions keys) (List.replicate keys.length none) := by
  refine ⟨by rw [List.length_replicate, List.length_map], fun key i => ?_, fun i row h => ?_⟩
  · rw [keyPositions, keyPositions_fold keys 0 ∅ hkeys key, AList.lookup_empty]
    constructor
    · intro h
      split_ifs at h with hmem
      rw [Nat.zero_add, Option.some_inj] at h
      subst h
      have hlt := List.idxOf_lt_length_of_mem hmem
      refine ⟨List.getElem?_eq_some_iff.2 ⟨hlt, List.getElem_idxOf hlt⟩, ?_⟩
      rw [List.length_map] at hlt
      rw [List.getElem?_replicate, if_pos hlt]
    · rintro ⟨hkey, -⟩
      obtain ⟨hlt, hkey⟩ := List.getElem?_eq_some_iff.1 hkey
      subst hkey
      rw [if_pos (List.getElem_mem hlt), Nat.zero_add, hkeys.idxOf_getElem _ hlt]
  · obtain ⟨hlt, h⟩ := List.getElem?_eq_some_iff.1 h
    rw [List.getElem_replicate] at h
    cases h

/-- What is put in order are the rows, each at its key. -/
theorem orderByKeys_ok (hkeys : (keys.map ClientKey.text).Nodup) {rows ordered : List Row}
    (h : orderByKeys M rows keys = .ok ordered) :
    ordered.Perm rows ∧ ordered.map (storedKey M) = keys.map ClientKey.text := by
  rw [orderByKeys] at h
  cases hplace : placeRows M rows (keyPositions keys) (List.replicate keys.length none) with
  | error e => rw [hplace] at h; cases h
  | ok slots =>
    rw [hplace] at h
    obtain ⟨⟨positions, hplaced⟩, hperm⟩ := placeRows_ok hkeys (placed_start hkeys) hplace
    cases hall : slots.mapM id with
    | none => simp [bind, Except.bind, hall] at h
    | some found =>
      obtain rfl : found = ordered := by simpa [bind, Except.bind, hall] using h
      obtain rfl : slots = found.map some := by simpa using (mapM_some_iff id slots found).1 hall
      rw [List.reduceOption_replicate_none, List.append_nil] at hperm
      refine ⟨?_, ?_⟩
      · simpa [List.reduceOption] using hperm
      · refine List.ext_getElem? fun i => ?_
        cases hrow : found[i]? with
        | none =>
          have hlength := hplaced.length
          rw [List.length_map] at hlength
          rw [List.getElem?_map, hrow, Option.map_none, eq_comm, List.getElem?_eq_none_iff, ← hlength]
          exact List.getElem?_eq_none_iff.1 hrow
        | some row =>
          rw [List.getElem?_map, hrow, Option.map_some]
          exact (hplaced.filled i row (by rw [List.getElem?_map, hrow]; rfl)).symm

/-- The rows are put in order exactly when they are a permutation of the keys: none is missing, foreign
or there twice. -/
theorem orderByKeys_ok_iff (hkeys : (keys.map ClientKey.text).Nodup) (rows : List Row) :
    (∃ ordered, orderByKeys M rows keys = .ok ordered) ↔ (rows.map (storedKey M)).Perm (keys.map ClientKey.text) := by
  constructor
  · rintro ⟨ordered, h⟩
    obtain ⟨hperm, hmap⟩ := orderByKeys_ok hkeys h
    rw [← hmap]
    exact (hperm.map _).symm
  · intro hperm
    have hfree : ∀ row ∈ rows, ∃ i, (keyPositions keys).lookup (storedKey M row) = some i := by
      intro row hrow
      have hmem := hperm.mem_iff.1 (List.mem_map_of_mem hrow)
      rw [keyPositions, keyPositions_fold keys 0 ∅ hkeys, if_pos hmem]
      exact ⟨_, rfl⟩
    obtain ⟨slots, hplace⟩ := placeRows_exists hkeys (placed_start hkeys) (hperm.nodup_iff.2 hkeys) hfree
    obtain ⟨⟨positions, hplaced⟩, hslots⟩ := placeRows_ok hkeys (placed_start hkeys) hplace
    rw [List.reduceOption_replicate_none, List.append_nil] at hslots
    have hlength : slots.reduceOption.length = slots.length := by
      rw [hslots.length_eq, hplaced.length, ← hperm.length_eq, List.length_map]
    have hsome := List.reduceOption_length_eq_iff.1 hlength
    have hall : slots = slots.reduceOption.map some := by
      clear hplace hplaced hslots hlength
      induction slots with
      | nil => rfl
      | cons slot slots ih =>
        rw [List.forall_mem_cons] at hsome
        obtain ⟨row, rfl⟩ := Option.isSome_iff_exists.1 hsome.1
        rw [List.reduceOption_cons_of_some, List.map_cons, ← ih hsome.2]
    refine ⟨slots.reduceOption, ?_⟩
    rw [orderByKeys, hplace]
    have hmapM : slots.mapM id = some slots.reduceOption := (mapM_some_iff id slots _).2 (by rw [List.map_id, ← hall])
    simp [bind, Except.bind, hmapM]

end Ordering

section Cutting

/-- Every row is in one chunk, and no chunk is empty or too long. -/
structure CutsAll (c : Cutter (Active Column)) (maxRows : ℕ) (models : List (Active Column)) : Prop where
  flatten : (c.pieces models).flatten = models
  nonempty : ∀ chunk ∈ c.pieces models, chunk ≠ []
  size : ∀ chunk ∈ c.pieces models, chunk.length ≤ maxRows

theorem cutsAll_fixed {maxRows : ℕ} (hrows : 0 < maxRows) (models : List (Active Column)) :
    CutsAll (fixedChunk maxRows) maxRows models := by
  refine ⟨Cutter.flatten_pieces (fun l hl hnil => ?_) models, Cutter.forall_pieces (fun l h => h) models,
    Cutter.forall_pieces (fun l _ => ?_) models⟩
  · rcases List.take_eq_nil_iff.1 hnil with hzero | hnil
    · omega
    · exact hl hnil
  · exact List.length_take_le _ _

/-- The chunk grows from what it has. -/
theorem prefix_mysqlChunkFrom (maxRows : ℕ) (remaining chunk : List (Active Column)) (bytes : ℕ) :
    chunk <+: (mysqlChunkFrom M maxRows chunk bytes remaining).1 := by
  induction remaining generalizing chunk bytes with
  | nil => exact List.prefix_refl _
  | cons next remaining ih =>
    simp only [mysqlChunkFrom]
    split_ifs
    · exact List.prefix_refl _
    · exact (List.prefix_append chunk [next]).trans (ih _ _)
    · exact List.prefix_refl _

/-- A chunk of several rows stays within the limits. -/
theorem mysqlChunkFrom_within {maxRows : ℕ} (remaining chunk : List (Active Column)) (bytes : ℕ)
    (hbytes : bytes = (chunk.map (rowBytes M)).sum) (hrows : chunk.length ≤ maxRows)
    (hlimit : chunk.length ≤ 1 ∨ bytes ≤ mysqlMaxStatementBytes) :
    (mysqlChunkFrom M maxRows chunk bytes remaining).1.length ≤ maxRows ∧
      ((mysqlChunkFrom M maxRows chunk bytes remaining).1.length ≤ 1 ∨
        ((mysqlChunkFrom M maxRows chunk bytes remaining).1.map (rowBytes M)).sum ≤ mysqlMaxStatementBytes) := by
  induction remaining generalizing chunk bytes with
  | nil => exact ⟨hrows, hbytes ▸ hlimit⟩
  | cons next remaining ih =>
    simp only [mysqlChunkFrom]
    split_ifs with hroom hfull
    · exact ⟨hrows, hbytes ▸ hlimit⟩
    · refine ih (chunk ++ [next]) (bytes + rowBytes M next) ?_ ?_ ?_
      · rw [hbytes, List.map_append, List.sum_append, List.map_singleton, List.sum_singleton]
      · rw [List.length_append, List.length_singleton]
        omega
      · rw [Bool.and_eq_true, not_and, Bool.not_eq_true', List.isEmpty_eq_false_iff, decide_eq_true_eq] at hfull
        by_cases hempty : chunk = []
        · rw [hempty]
          exact .inl le_rfl
        · exact .inr (not_lt.1 (hfull hempty))
    · exact ⟨hrows, hbytes ▸ hlimit⟩

theorem cutsAll_mysql {maxRows : ℕ} (hrows : 0 < maxRows) (models : List (Active Column)) :
    CutsAll (mysqlChunk M maxRows) maxRows models := by
  refine ⟨Cutter.flatten_pieces (fun l hl hnil => ?_) models, Cutter.forall_pieces (fun l h => h) models,
    Cutter.forall_pieces (fun l _ => ?_) models⟩
  · obtain ⟨next, rest, rfl⟩ := List.exists_cons_of_ne_nil hl
    have hfirst : [next] <+: ((mysqlChunk M maxRows).cut (next :: rest)).1 := by
      have htaken : (mysqlChunk M maxRows).cut (next :: rest) = mysqlChunkFrom M maxRows [next] (0 + rowBytes M next) rest := by
        simp [mysqlChunk, mysqlChunkFrom, hrows]
      rw [htaken]
      exact prefix_mysqlChunkFrom M maxRows rest [next] _
    rw [hnil] at hfirst
    exact absurd (List.prefix_nil.1 hfirst) (List.cons_ne_nil _ _)
  · exact (mysqlChunkFrom_within M l [] 0 rfl (Nat.zero_le _) (.inl (Nat.zero_le _))).1

theorem mysqlChunk_bytes (maxRows : ℕ) (models : List (Active Column)) : ∀ chunk ∈ (mysqlChunk M maxRows).pieces models,
    chunk.length = 1 ∨ (chunk.map (rowBytes M)).sum ≤ mysqlMaxStatementBytes := by
  refine Cutter.forall_pieces (fun l hne => ?_) models
  have hwithin := (@mysqlChunkFrom_within _ _ _ M maxRows l [] 0 rfl (Nat.zero_le _) (.inl (Nat.zero_le _))).2
  refine hwithin.imp_left fun hle => ?_
  have hpos := List.length_pos_of_ne_nil hne
  exact le_antisymm hle hpos

end Cutting

section Steps

variable {M} {models : List (Active Column)} {keys : List ClientKey} {backend : Backend}

theorem clientKeys_some (h : clientKeys M models backend = some keys) :
    models.map (clientKey M backend) = keys.map some ∧ (keys.map ClientKey.text).Nodup := by
  rw [clientKeys] at h
  simp only [Option.bind_eq_bind, Option.bind_eq_some_iff, Option.ite_none_right_eq_some, Option.some_inj] at h
  obtain ⟨found, hfound, hnodup, rfl⟩ := h
  exact ⟨(mapM_some_iff _ _ _).1 hfound, hnodup⟩

theorem clientKey_some {active : Active Column} {key : ClientKey} (h : clientKey M backend active = some key) :
    activeKey M active = some key.values ∧ key.text = M.debug key.values := by
  rw [clientKey] at h
  simp only [Option.bind_eq_bind, Option.bind_eq_some_iff, Option.ite_none_right_eq_some, Option.some_inj] at h
  obtain ⟨values, hvalues, -, rfl⟩ := h
  exact ⟨hvalues, rfl⟩

/-- The keys sliced for a chunk are the keys of its models. -/
theorem keySlice_chunk {front chunk back : List (Active Column)} (hmodels : models = front ++ (chunk ++ back))
    (hkeys : models.map (clientKey M backend) = keys.map some) :
    chunk.map (clientKey M backend) = (keySlice keys front.length chunk.length).map some := by
  rw [keySlice, List.map_take, List.map_drop, ← hkeys, hmodels, List.map_append, List.map_append,
    List.drop_append_of_le_length (by rw [List.length_map]), List.drop_of_length_le (by rw [List.length_map]), List.nil_append,
    List.take_append_of_le_length (by rw [List.length_map]), List.take_of_length_le (by rw [List.length_map])]

variable (answers : Answers Column Row)

/-- The rows the database gives back for a chunk. -/
def readBack : Strategy → ℕ → List (Active Column) → Except Error (List Row)
  | .insertThenSelect keys, offset, chunk => do
    answers.insert offset chunk
    answers.select offset (keySlice keys offset chunk.length)
  | _, offset, chunk => answers.insertReturning offset chunk

/-- The strategies that match rows by the keys of their models. -/
inductive ByKeys (keys : List ClientKey) : Strategy → Prop where
  | returning : ByKeys keys (.returning (.byClientKey keys))
  | insertThenSelect : ByKeys keys (.insertThenSelect keys)

variable (M) in
def cutter (n : ℕ) : Strategy → Cutter (Active Column)
  | .insertThenSelect _ => mysqlChunk M n
  | _ => fixedChunk n

variable (M) in
/-- What is done with one chunk. -/
def insertChunk (strategy : Strategy) (offset : ℕ) (chunk : List (Active Column)) : Except Error (List Model) :=
  match strategy with
  | .returning order => insertReturning M answers order offset chunk
  | .insertThenSelect keys => insertThenSelect M answers keys offset chunk
  | .perRow => .ok []

theorem insertByStrategy_eq {strategy : Strategy} (hstrategy : ByKeys keys strategy) (n : ℕ) :
    insertByStrategy M answers strategy models n = (cutter M n strategy).run (insertChunk M answers strategy) [] models := by
  cases hstrategy <;> rfl

variable {answers} {strategy : Strategy} {offset : ℕ} {chunk : List (Active Column)}

/-- A chunk's rows are read back, put in order and turned into models. -/
theorem insertChunk_ok_iff (hstrategy : ByKeys keys strategy)
    (hslice : chunk.map (clientKey M backend) = (keySlice keys offset chunk.length).map some)
    (hnodup : ((keySlice keys offset chunk.length).map ClientKey.text).Nodup) (out : List Model) :
    insertChunk M answers strategy offset chunk = .ok out ↔ ∃ rows ordered, readBack answers strategy offset chunk = .ok rows ∧
      orderByKeys M rows (keySlice keys offset chunk.length) = .ok ordered ∧ ordered.mapM M.tryFromEntityModel = .ok out := by
  have hbind : ∀ rows, ((orderByKeys M rows (keySlice keys offset chunk.length)).bind fun rows => rows.mapM M.tryFromEntityModel) = .ok out ↔
      ∃ ordered, orderByKeys M rows (keySlice keys offset chunk.length) = .ok ordered ∧ ordered.mapM M.tryFromEntityModel = .ok out := by
    intro rows
    cases orderByKeys M rows (keySlice keys offset chunk.length) <;> simp [Except.bind]
  cases hstrategy with
  | returning =>
    cases hrows : answers.insertReturning offset chunk with
    | error e => simp [insertChunk, insertReturning, readBack, hrows, bind, Except.bind]
    | ok rows =>
      by_cases hcount : rows.length = chunk.length
      · simpa [insertChunk, insertReturning, readBack, hrows, bind, Except.bind, hcount] using hbind rows
      · constructor
        · intro h
          simp [insertChunk, insertReturning, hrows, bind, Except.bind, hcount] at h
        · rintro ⟨rows', ordered, hrows', hordered, -⟩
          obtain rfl : rows = rows' := Except.ok.inj (hrows.symm.trans hrows')
          have hperm := (orderByKeys_ok_iff hnodup rows).1 ⟨ordered, hordered⟩
          have hlength := hperm.length_eq
          have hslice' := congrArg List.length hslice
          simp only [List.length_map] at hlength hslice'
          omega
  | insertThenSelect =>
    cases hinsert : answers.insert offset chunk with
    | error e => simp [insertChunk, insertThenSelect, readBack, hinsert, bind, Except.bind]
    | ok done =>
      cases hrows : answers.select offset (keySlice keys offset chunk.length) with
      | error e => simp [insertChunk, insertThenSelect, readBack, hinsert, hrows, bind, Except.bind]
      | ok rows => simpa [insertChunk, insertThenSelect, readBack, hinsert, hrows, bind, Except.bind] using hbind rows

theorem length_insertChunk (hstrategy : ByKeys keys strategy)
    (hslice : chunk.map (clientKey M backend) = (keySlice keys offset chunk.length).map some)
    (hnodup : ((keySlice keys offset chunk.length).map ClientKey.text).Nodup) {out : List Model}
    (h : insertChunk M answers strategy offset chunk = .ok out) : out.length = chunk.length := by
  obtain ⟨rows, ordered, -, hordered, hout⟩ := (insertChunk_ok_iff hstrategy hslice hnodup out).1 h
  have hmap := congrArg List.length (orderByKeys_ok hnodup hordered).2
  have hslice' := congrArg List.length hslice
  rw [List.length_map, List.length_map] at hmap hslice'
  exact (((mapM_ok_iff _ _ _).1 hout).length_eq.symm.trans hmap).trans hslice'.symm

variable (M) in
/-- A key value that the database stored under a model's text is the model's. -/
def TextDecides (models : List (Active Column)) : Prop :=
  ∀ row, ∀ active ∈ models, ∀ values, activeKey M active = some values → M.debug (rowKey M row) = M.debug values →
    rowKey M row = values

/-- Rows in the order of a chunk's keys have the keys of its models. -/
theorem rowKeys_eq (htext : TextDecides M chunk) {slice : List ClientKey}
    (hslice : chunk.map (clientKey M backend) = slice.map some) {ordered : List Row}
    (hordered : ordered.map (storedKey M) = slice.map ClientKey.text) :
    ordered.map (fun row => some (rowKey M row)) = chunk.map (activeKey M) := by
  induction chunk generalizing slice ordered with
  | nil =>
    obtain rfl : slice = [] := by simpa using hslice.symm
    obtain rfl : ordered = [] := by simpa using hordered
    rfl
  | cons active chunk ih =>
    cases slice with
    | nil => cases hslice
    | cons key slice =>
      cases ordered with
      | nil => cases hordered
      | cons row ordered =>
        rw [List.map_cons, List.map_cons, List.cons.injEq] at hslice hordered
        obtain ⟨hkey, hkeytext⟩ := clientKey_some hslice.1
        have hvalues := htext row active (List.mem_cons_self ..) key.values hkey (hordered.1.trans hkeytext)
        have hrest := ih (fun row active hactive => htext row active (List.mem_cons_of_mem _ hactive)) hslice.2 hordered.2
        rw [List.map_cons, List.map_cons, hrest, hvalues, hkey]

/-- What a chunk's rows have to be. -/
def Answered (strategy : Strategy) (answers : Answers Column Row) (M : BatchModel Column Row Model) (offset : ℕ)
    (chunk : List (Active Column)) : Prop :=
  ∃ rows, readBack answers strategy offset chunk = .ok rows ∧
    (rows.map fun row => some (rowKey M row)).Perm (chunk.map (activeKey M)) ∧
    ∀ row ∈ rows, ∃ model, M.tryFromEntityModel row = .ok model

theorem exists_forall₂ {A B : Type} {R : A → B → Prop} {l : List A} :
    (∃ out, List.Forall₂ R l out) ↔ ∀ a ∈ l, ∃ b, R a b := by
  induction l with
  | nil => exact ⟨fun _ a ha => absurd ha List.not_mem_nil, fun _ => ⟨[], .nil⟩⟩
  | cons a l ih =>
    rw [List.forall_mem_cons, ← ih]
    constructor
    · rintro ⟨out, hout⟩
      cases hout with
      | cons hb hrest => exact ⟨⟨_, hb⟩, ⟨_, hrest⟩⟩
    · rintro ⟨⟨b, hb⟩, ⟨rest, hrest⟩⟩
      exact ⟨b :: rest, .cons hb hrest⟩

theorem insertChunk_answered (hstrategy : ByKeys keys strategy) (htext : TextDecides M chunk)
    (hslice : chunk.map (clientKey M backend) = (keySlice keys offset chunk.length).map some)
    (hnodup : ((keySlice keys offset chunk.length).map ClientKey.text).Nodup) :
    (∃ out, insertChunk M answers strategy offset chunk = .ok out) ↔ Answered strategy answers M offset chunk := by
  simp only [insertChunk_ok_iff hstrategy hslice hnodup]
  constructor
  · rintro ⟨out, rows, ordered, hrows, hordered, hout⟩
    obtain ⟨hperm, hmap⟩ := orderByKeys_ok hnodup hordered
    refine ⟨rows, hrows, ?_, fun row hrow => ?_⟩
    · rw [← rowKeys_eq htext hslice hmap]
      exact (hperm.map _).symm
    · have hall := exists_forall₂.1 ⟨out, (mapM_ok_iff _ _ _).1 hout⟩
      exact hall row (hperm.mem_iff.2 hrow)
  · rintro ⟨rows, hrows, hperm, hconvert⟩
    have htexts : chunk.map (fun active => (activeKey M active).map M.debug) =
        ((keySlice keys offset chunk.length).map ClientKey.text).map some := by
      have hkeyed : ∀ {chunk : List (Active Column)} {slice : List ClientKey}, chunk.map (clientKey M backend) = slice.map some →
          chunk.map (fun active => (activeKey M active).map M.debug) = (slice.map ClientKey.text).map some := by
        intro chunk slice h
        induction chunk generalizing slice with
        | nil =>
          obtain rfl : slice = [] := by simpa using h.symm
          rfl
        | cons active chunk ih =>
          cases slice with
          | nil => cases h
          | cons key slice =>
            rw [List.map_cons, List.map_cons, List.cons.injEq] at h
            obtain ⟨hkey, hkeytext⟩ := clientKey_some h.1
            rw [List.map_cons, List.map_cons, List.map_cons, ih h.2, hkey, Option.map_some, hkeytext]
      exact hkeyed hslice
    have hstored : ((rows.map (storedKey M)).map some).Perm (((keySlice keys offset chunk.length).map ClientKey.text).map some) := by
      rw [← htexts, List.map_map]
      have hdebug := hperm.map (Option.map M.debug)
      rw [List.map_map, List.map_map] at hdebug
      exact hdebug
    obtain ⟨ordered, hordered⟩ := (orderByKeys_ok_iff hnodup rows).2 ((List.map_perm_map_iff fun _ _ => Option.some.inj).1 hstored)
    have hrest := (orderByKeys_ok hnodup hordered).1
    obtain ⟨out, hout⟩ := exists_forall₂.2 fun row (hrow : row ∈ ordered) => hconvert row (hrest.mem_iff.1 hrow)
    exact ⟨out, rows, ordered, hrows, hordered, (mapM_ok_iff _ _ _).2 hout⟩

end Steps

section Batches

variable {M} {models : List (Active Column)} {keys : List ClientKey} {backend : Backend} {answers : Answers Column Row}
  {strategy : Strategy} {n : ℕ}

/-- The chunks of a batch, each with the number of rows before it. -/
def chunksOf (M : BatchModel Column Row Model) (strategy : Strategy) (n : ℕ) (models : List (Active Column)) :
    List (ℕ × List (Active Column)) := Cutter.numbered 0 ((cutter M n strategy).pieces models)

theorem cutsAll_cutter (hn : 0 < n) (strategy : Strategy) (models : List (Active Column)) :
    CutsAll (cutter M n strategy) n models := by
  cases strategy with
  | insertThenSelect keys => exact cutsAll_mysql M hn models
  | returning order => exact cutsAll_fixed hn models
  | perRow => exact cutsAll_fixed hn models

/-- The keys and the models of a chunk. -/
theorem chunk_keys (hn : 0 < n) (hkeys : clientKeys M models backend = some keys) {offset : ℕ} {chunk : List (Active Column)}
    (h : (offset, chunk) ∈ chunksOf M strategy n models) :
    chunk.map (clientKey M backend) = (keySlice keys offset chunk.length).map some ∧
      ((keySlice keys offset chunk.length).map ClientKey.text).Nodup ∧ ∀ active ∈ chunk, active ∈ models := by
  obtain ⟨front, back, hflatten, hoffset⟩ := Cutter.numbered_at h
  rw [(cutsAll_cutter hn strategy models).flatten] at hflatten
  rw [Nat.zero_add] at hoffset
  obtain ⟨hmap, hnodup⟩ := clientKeys_some hkeys
  refine ⟨hoffset ▸ keySlice_chunk hflatten hmap, ?_, fun active hactive => ?_⟩
  · have hsub : (keySlice keys offset chunk.length).Sublist keys := (List.take_sublist _ _).trans (List.drop_sublist _ _)
    exact hnodup.sublist (hsub.map _)
  · rw [hflatten]
    exact List.mem_append_right _ (List.mem_append_left _ hactive)

theorem insertByStrategy_ok_iff (hn : 0 < n) (hkeys : clientKeys M models backend = some keys) (hstrategy : ByKeys keys strategy)
    (results : List Model) : insertByStrategy M answers strategy models n = .ok results ↔
      ∃ parts, List.Forall₂ (fun (c : ℕ × List (Active Column)) part => insertChunk M answers strategy c.1 c.2 = .ok part)
        (chunksOf M strategy n models) parts ∧ results = parts.flatten := by
  rw [insertByStrategy_eq answers hstrategy]
  refine (Cutter.run_ok_iff models [] results fun offset chunk hchunk part hpart => ?_).trans ?_
  · obtain ⟨hslice, hnodup, -⟩ := chunk_keys hn hkeys hchunk
    exact length_insertChunk hstrategy hslice hnodup hpart
  · rfl

theorem answered_iff (hn : 0 < n) (hkeys : clientKeys M models backend = some keys) (hstrategy : ByKeys keys strategy)
    (htext : TextDecides M models) : (∃ results, insertByStrategy M answers strategy models n = .ok results) ↔
      ∀ c ∈ chunksOf M strategy n models, Answered strategy answers M c.1 c.2 := by
  have hchunk : ∀ c ∈ chunksOf M strategy n models,
      ((∃ part, insertChunk M answers strategy c.1 c.2 = .ok part) ↔ Answered strategy answers M c.1 c.2) := by
    intro c hc
    obtain ⟨hslice, hnodup, hsub⟩ := chunk_keys hn hkeys hc
    exact insertChunk_answered hstrategy (fun row active hactive => htext row active (hsub active hactive)) hslice hnodup
  constructor
  · rintro ⟨results, hresults⟩ c hc
    obtain ⟨parts, hparts, -⟩ := (insertByStrategy_ok_iff hn hkeys hstrategy results).1 hresults
    exact (hchunk c hc).1 (exists_forall₂.1 ⟨parts, hparts⟩ c hc)
  · intro h
    obtain ⟨parts, hparts⟩ := exists_forall₂.2 fun c hc => (hchunk c hc).2 (h c hc)
    exact ⟨parts.flatten, (insertByStrategy_ok_iff hn hkeys hstrategy _).2 ⟨parts, hparts, rfl⟩⟩

/-- The `i`-th result is made of the row that was read back under the `i`-th model's key. -/
def StoredUnder (M : BatchModel Column Row Model) (strategy : Strategy) (answers : Answers Column Row)
    (chunks : List (ℕ × List (Active Column))) (i : ℕ) (active : Active Column) (model : Model) : Prop :=
  ∃ offset chunk rows row, (offset, chunk) ∈ chunks ∧ offset ≤ i ∧ i < offset + chunk.length ∧
    readBack answers strategy offset chunk = .ok rows ∧ row ∈ rows ∧ activeKey M active = some (rowKey M row) ∧
    M.tryFromEntityModel row = .ok model

/-- A result of a chunk and its row. -/
theorem insertChunk_at (hstrategy : ByKeys keys strategy) {offset : ℕ} {chunk : List (Active Column)} (htext : TextDecides M chunk)
    (hslice : chunk.map (clientKey M backend) = (keySlice keys offset chunk.length).map some)
    (hnodup : ((keySlice keys offset chunk.length).map ClientKey.text).Nodup) {part : List Model}
    (h : insertChunk M answers strategy offset chunk = .ok part) {j : ℕ} {active : Active Column} {model : Model}
    (hactive : chunk[j]? = some active) (hmodel : part[j]? = some model) :
    ∃ rows row, readBack answers strategy offset chunk = .ok rows ∧ row ∈ rows ∧ activeKey M active = some (rowKey M row) ∧
      M.tryFromEntityModel row = .ok model := by
  obtain ⟨rows, ordered, hrows, hordered, hpart⟩ := (insertChunk_ok_iff hstrategy hslice hnodup part).1 h
  obtain ⟨hperm, hmap⟩ := orderByKeys_ok hnodup hordered
  have hkeyed := congrArg (·[j]?) (rowKeys_eq htext hslice hmap)
  simp only [List.getElem?_map, hactive, Option.map_some, Option.map_eq_some_iff] at hkeyed
  obtain ⟨row, hrow, hkey⟩ := hkeyed
  have hforall := (mapM_ok_iff _ _ _).1 hpart
  obtain ⟨hlt, hrow'⟩ := List.getElem?_eq_some_iff.1 hrow
  obtain ⟨hlt', hmodel'⟩ := List.getElem?_eq_some_iff.1 hmodel
  have hconvert := hforall.get hlt hlt'
  rw [List.get_eq_getElem, List.get_eq_getElem, hrow', hmodel'] at hconvert
  exact ⟨rows, row, hrows, hperm.mem_iff.1 (List.mem_of_getElem? hrow), hkey.symm, hconvert⟩

theorem stored_under (hn : 0 < n) (hkeys : clientKeys M models backend = some keys) (hstrategy : ByKeys keys strategy)
    (htext : TextDecides M models) {results : List Model} (h : insertByStrategy M answers strategy models n = .ok results) :
    results.length = models.length ∧ ∀ i active, models[i]? = some active → ∃ model, results[i]? = some model ∧
      StoredUnder M strategy answers (chunksOf M strategy n models) i active model := by
  obtain ⟨parts, hparts, rfl⟩ := (insertByStrategy_ok_iff hn hkeys hstrategy results).1 h
  have hflatten := (@cutsAll_cutter _ _ _ M _ hn strategy models).flatten
  have hlength : ∀ c ∈ chunksOf M strategy n models, ∀ part, insertChunk M answers strategy c.1 c.2 = .ok part →
      part.length = c.2.length := by
    intro c hc part hpart
    obtain ⟨hslice, hnodup, -⟩ := chunk_keys hn hkeys hc
    exact length_insertChunk hstrategy hslice hnodup hpart
  have hat : ∀ i < models.length, ∃ offset chunk part, (offset, chunk) ∈ chunksOf M strategy n models ∧
      insertChunk M answers strategy offset chunk = .ok part ∧ offset ≤ i ∧ i < offset + chunk.length ∧
      models[i]? = chunk[i - offset]? ∧ parts.flatten[i]? = part[i - offset]? := by
    intro i hi
    have hfound := Cutter.results_at hparts hlength (i := i) (by rwa [hflatten])
    rwa [hflatten, Nat.zero_add] at hfound
  refine ⟨?_, fun i active hactive => ?_⟩
  · rw [Cutter.length_results hparts hlength, hflatten]
  · obtain ⟨hi, -⟩ := List.getElem?_eq_some_iff.1 hactive
    obtain ⟨offset, chunk, part, hchunk, hpart, hle, hlt, hmodels, hresults⟩ := hat i hi
    obtain ⟨hslice, hnodup, hsub⟩ := chunk_keys hn hkeys hchunk
    have hpartlength := hlength _ hchunk part hpart
    obtain ⟨model, hmodel⟩ : ∃ model, part[i - offset]? = some model :=
      ⟨part.get ⟨i - offset, by dsimp only at hpartlength; omega⟩, List.getElem?_eq_getElem _⟩
    obtain ⟨rows, row, hrows, hrow, hkey, hconvert⟩ := insertChunk_at hstrategy
      (fun row active hactive => htext row active (hsub active hactive)) hslice hnodup hpart (hmodels.symm.trans hactive) hmodel
    exact ⟨model, hresults.trans hmodel, offset, chunk, rows, row, hchunk, hle, hlt, hrows, hrow, hkey, hconvert⟩

/-- Batches are cut into chunks within the limits, and with the models' own keys they come back in
order or not at all. -/
theorem batch_in_order (M : BatchModel Column Row Model) (hn : 0 < n) :
    (∀ models, CutsAll (mysqlChunk M n) n models ∧ ∀ chunk ∈ (mysqlChunk M n).pieces models,
      chunk.length = 1 ∨ (chunk.map (rowBytes M)).sum ≤ mysqlMaxStatementBytes) ∧
    (∀ models : List (Active Column), CutsAll (fixedChunk n) n models) ∧
    ∀ (answers : Answers Column Row) (models : List (Active Column)) (backend : Backend) (keys : List ClientKey) (strategy : Strategy),
      clientKeys M models backend = some keys → ByKeys keys strategy → TextDecides M models →
      ((∃ results, insertByStrategy M answers strategy models n = .ok results) ↔
        ∀ c ∈ chunksOf M strategy n models, Answered strategy answers M c.1 c.2) ∧
      ∀ results, insertByStrategy M answers strategy models n = .ok results → results.length = models.length ∧
        ∀ i active, models[i]? = some active → ∃ model, results[i]? = some model ∧
          StoredUnder M strategy answers (chunksOf M strategy n models) i active model :=
  ⟨fun models => ⟨cutsAll_mysql M hn models, mysqlChunk_bytes M n models⟩, fun models => cutsAll_fixed hn models,
    fun _ _ _ _ _ hkeys hstrategy htext => ⟨answered_iff hn hkeys hstrategy htext, fun _ h => stored_under hn hkeys hstrategy htext h⟩⟩

/-- A model of one key column, whose rows have the keys 1 and 2; `convert` makes models of them. -/
def twoRows (convert : Bool → Except Error Bool) : BatchModel Unit Bool Bool where
  columns := [()]
  primaryKeyColumns := [()]
  get row _ := .bigInt (some (if row then 1 else 2))
  tryFromEntityModel := convert
  primaryKeyInteger _ := none
  debug
    | [.bigInt (some 1)] => "[BigInt(Some(1))]".toList
    | [.bigInt (some 2)] => "[BigInt(Some(2))]".toList
    | _ => []

/-- A batch of the keys 2 and 1, and a database that gives the rows back the other way round. -/
def twoModels : List (Active Unit) := [fun _ => some (.bigInt (some 2)), fun _ => some (.bigInt (some 1))]

def twoKeys : List ClientKey :=
  [⟨"[BigInt(Some(2))]".toList, [.bigInt (some 2)]⟩, ⟨"[BigInt(Some(1))]".toList, [.bigInt (some 1)]⟩]

def turnedRound : Answers Unit Bool where
  insertReturning _ _ := .ok [true, false]
  insert _ _ := .ok ()
  select _ _ := .ok [true, false]
  insertOne _ _ := .ok true

theorem textDecides_twoRows (convert : Bool → Except Error Bool) : TextDecides (twoRows convert) twoModels := by
  intro row active hactive values hvalues htext
  have hall : values = [.bigInt (some 2)] ∨ values = [.bigInt (some 1)] := by
    simp only [twoModels, List.mem_cons, List.not_mem_nil, or_false] at hactive
    rcases hactive with rfl | rfl
    · exact .inl (Option.some.inj hvalues).symm
    · exact .inr (Option.some.inj hvalues).symm
  rcases hall with rfl | rfl <;> cases row
  · rfl
  · exact absurd (show "[BigInt(Some(1))]".toList = "[BigInt(Some(2))]".toList from htext) (by decide)
  · exact absurd (show "[BigInt(Some(2))]".toList = "[BigInt(Some(1))]".toList from htext) (by decide)
  · rfl

theorem chunksOf_two (convert : Bool → Except Error Bool) :
    chunksOf (twoRows convert) (.insertThenSelect twoKeys) 2 twoModels = [(0, twoModels)] := by
  rw [chunksOf, cutter, Cutter.pieces, Cutter.pieces]
  rfl

theorem batch_in_order_two : ∃ results, insertByStrategy (twoRows .ok) turnedRound (.insertThenSelect twoKeys) twoModels 2 = .ok results ∧
    results.length = 2 ∧ ∃ model, results[0]? = some model ∧ StoredUnder (twoRows .ok) (.insertThenSelect twoKeys) turnedRound
      (chunksOf (twoRows .ok) (.insertThenSelect twoKeys) 2 twoModels) 0 (fun _ => some (.bigInt (some 2))) model := by
  have hall := (@batch_in_order _ _ _ 2 (twoRows .ok) (by decide)).2.2 turnedRound twoModels .mySql twoKeys
    (.insertThenSelect twoKeys) rfl .insertThenSelect (textDecides_twoRows .ok)
  have hrun : insertByStrategy (twoRows .ok) turnedRound (.insertThenSelect twoKeys) twoModels 2 = .ok [false, true] := by
    refine (@insertByStrategy_ok_iff _ _ _ _ _ _ .mySql _ _ _ (by decide) rfl .insertThenSelect _).2 ⟨[[false, true]], ?_, rfl⟩
    rw [chunksOf_two]
    exact .cons rfl .nil
  obtain ⟨hlength, hstored⟩ := hall.2 _ hrun
  exact ⟨_, hrun, hlength, hstored 0 _ rfl⟩

/-- All rows come back, but one of them cannot be made a model. -/
theorem undecryptable_row_fails : ∃ convert : Bool → Except Error Bool,
    clientKeys (twoRows convert) twoModels .mySql = some twoKeys ∧
    (∀ c ∈ chunksOf (twoRows convert) (.insertThenSelect twoKeys) 2 twoModels, ∃ rows,
      readBack turnedRound (.insertThenSelect twoKeys) c.1 c.2 = .ok rows ∧
        (rows.map fun row => some (rowKey (twoRows convert) row)).Perm (c.2.map (activeKey (twoRows convert)))) ∧
    insertByStrategy (twoRows convert) turnedRound (.insertThenSelect twoKeys) twoModels 2 =
      .error (.tokenization "Failed to decrypt field payload") := by
  refine ⟨fun row => if row then .ok row else .error (.tokenization "Failed to decrypt field payload"), rfl, ?_, ?_⟩
  · intro c hc
    refine ⟨[true, false], rfl, ?_⟩
    rw [chunksOf_two, List.mem_singleton] at hc
    subst hc
    exact .swap _ _ _
  · rw [insertByStrategy, Cutter.run]
    rfl

end Batches

end TideOrm.BatchInsert
