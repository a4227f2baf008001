import TideOrm.Sanity.DirtyTracking
import Mathlib.Data.List.Nodup

/-! The baseline store keeps its two maps in step in every run that does not use a
sequence twice. -/

namespace TideOrm

open Lib

variable {V : Type}

namespace SnapshotStore

variable {s : SnapshotStore V}

/-- The sequences of all baselines. -/
def sequences (s : SnapshotStore V) : List ℕ :=
  s.entries.entries.flatMap fun row => row.2.entries.map fun e => e.2.sequence

theorem mem_sequences {seq : ℕ} : seq ∈ s.sequences ↔ ∃ row origin entry, s.baseline row origin = some entry ∧ entry.sequence = seq := by
  simp only [sequences, List.mem_flatMap, List.mem_map]
  constructor
  · rintro ⟨⟨row, baselines⟩, hrow, ⟨origin, entry⟩, hentry, rfl⟩
    refine ⟨row, origin, entry, ?_, rfl⟩
    rw [baseline, AList.mem_entries_iff.1 hrow, Option.bind_some]
    exact AList.mem_entries_iff.1 hentry
  · rintro ⟨row, origin, entry, hentry, rfl⟩
    obtain ⟨baselines, hrow, horigin⟩ := Option.bind_eq_some_iff.1 hentry
    exact ⟨⟨row, baselines⟩, AList.mem_entries_iff.2 hrow, ⟨origin, entry⟩, AList.mem_entries_iff.2 horigin, rfl⟩

theorem Indexed.nodup (h : s.Indexed) : s.sequences.Nodup := by
  have hbaseline : ∀ {row : RowKey} {baselines} {origin : Origin} {entry},
      (⟨row, baselines⟩ : (_ : RowKey) × HashMap Origin (SnapshotEntry V)) ∈ s.entries.entries →
      (⟨origin, entry⟩ : (_ : Origin) × SnapshotEntry V) ∈ baselines.entries →
      s.order.lookup entry.sequence = some (row, origin) := by
    intro row baselines origin entry hrow hentry
    refine h.lookup ?_
    rw [baseline, AList.mem_entries_iff.1 hrow, Option.bind_some]
    exact AList.mem_entries_iff.1 hentry
  refine List.nodup_flatMap.2 ⟨?_, ?_⟩
  · rintro ⟨row, baselines⟩ hrow
    refine List.Nodup.map_on ?_ baselines.nodupKeys.nodup
    rintro ⟨origin, entry⟩ hentry ⟨origin', entry'⟩ hentry' heq
    have hsame := hbaseline hrow hentry
    rw [show entry.sequence = entry'.sequence from heq, hbaseline hrow hentry'] at hsame
    obtain rfl : origin' = origin := (Prod.mk.inj (Option.some.inj hsame)).2
    obtain rfl : entry = entry' := by
      have := AList.mem_entries_iff.1 hentry
      rw [AList.mem_entries_iff.1 hentry'] at this
      exact (Option.some.inj this).symm
    rfl
  · refine s.entries.nodupKeys.pairwise_ne.imp_of_mem ?_
    rintro ⟨row, baselines⟩ ⟨row', baselines'⟩ hrow hrow' hne seq hseq hseq'
    obtain ⟨⟨origin, entry⟩, hentry, rfl⟩ := List.mem_map.1 hseq
    obtain ⟨⟨origin', entry'⟩, hentry', heq⟩ := List.mem_map.1 hseq'
    have hsame := hbaseline hrow hentry
    rw [← show entry'.sequence = entry.sequence from heq, hbaseline hrow' hentry'] at hsame
    exact hne (Prod.mk.inj (Option.some.inj hsame)).1.symm

theorem Indexed.count (h : s.Indexed) : s.order.len = s.entries.total AList.len := by
  have hperm : s.order.keys.Perm s.sequences := by
    refine (List.perm_ext_iff_of_nodup s.order.keys_nodup h.nodup).2 fun seq => ?_
    rw [mem_sequences, ← AList.mem_keys, ← AList.lookup_isSome, Option.isSome_iff_exists]
    constructor
    · rintro ⟨⟨row, origin⟩, hseq⟩
      exact ⟨row, origin, (h.order seq row origin).1 hseq⟩
    · rintro ⟨row, origin, hentry⟩
      exact ⟨(row, origin), (h.order seq row origin).2 hentry⟩
  have hlen := hperm.length_eq
  rw [sequences, List.length_flatMap] at hlen
  simpa [AList.len, AList.total, AList.keys, List.keys] using hlen

end SnapshotStore

/-- What a run keeps of the store and of the entries taken out of it, when `issued`
sequences have been used. -/
structure RunInv (cap issued : ℕ) (s : SnapshotStore V) (taken : List (SnapshotEntry V)) : Prop where
  indexed : s.Indexed
  capacity : s.capacity = cap
  bounded : s.order.len ≤ s.capacity
  next : s.nextSequence = issued % sequenceLimit
  stored : ∀ seq p, s.order.lookup seq = some p → seq < issued
  out : ∀ e ∈ taken, e.sequence < issued ∧ s.order.lookup e.sequence = none
  nodup : (taken.map SnapshotEntry.sequence).Nodup

namespace RunInv

variable {cap issued : ℕ} {s : SnapshotStore V} {taken : List (SnapshotEntry V)}

theorem new (capacity : ℕ) : RunInv (max capacity 1) 0 (SnapshotStore.new capacity : SnapshotStore V) [] := by
  refine ⟨SnapshotStore.indexed_new capacity, rfl, ?_, ?_, ?_, by simp, by simp⟩
  · simp [SnapshotStore.new, AList.len]
  · simp [SnapshotStore.new]
  · intro seq p h
    simp [SnapshotStore.new] at h

theorem sublist (h : RunInv cap issued s taken) {rest : List (SnapshotEntry V)} (hrest : rest.Sublist taken) :
    RunInv cap issued s rest :=
  ⟨h.indexed, h.capacity, h.bounded, h.next, h.stored, fun e he => h.out e (hrest.subset he), h.nodup.sublist (hrest.map _)⟩

/-- An entry whose sequence is not in use is put in. -/
theorem put (h : RunInv cap issued s taken) (row : RowKey) (origin : Origin) {entry : SnapshotEntry V}
    (hlt : entry.sequence < issued) (hfresh : s.order.lookup entry.sequence = none)
    (hout : entry.sequence ∉ taken.map SnapshotEntry.sequence) : RunInv cap issued (s.put row origin entry) taken := by
  obtain ⟨hindexed, hlen⟩ := h.indexed.put row origin hfresh
  refine ⟨hindexed, by simpa using h.capacity, by simpa using hlen, by simpa using h.next, fun seq p hseq => ?_,
    fun e he => ⟨(h.out e he).1, ?_⟩, h.nodup⟩
  · rcases h.indexed.order_put hfresh hseq with rfl | ⟨p', hp'⟩
    · exact hlt
    · exact h.stored seq p' hp'
  · by_contra hsome
    obtain ⟨p, hp⟩ := Option.ne_none_iff_exists'.1 hsome
    rcases h.indexed.order_put hfresh hp with heq | ⟨p', hp'⟩
    · exact hout (heq ▸ List.mem_map_of_mem he)
    · rw [(h.out e he).2] at hp'
      cases hp'

theorem insert (h : RunInv cap issued s taken) (hlimit : issued < sequenceLimit) (row : RowKey) (origin : Origin)
    (values : Option V) : RunInv cap (issued + 1) (s.insert row origin values).1 taken := by
  have hnext : s.nextSequence = issued := by rw [h.next, Nat.mod_eq_of_lt hlimit]
  have hmore : RunInv cap (issued + 1) { s with nextSequence := (s.nextSequence + 1) % sequenceLimit } taken := by
    refine ⟨⟨h.indexed.order, h.indexed.full⟩, h.capacity, h.bounded, ?_, fun seq p hseq => ?_, fun e he => ?_, h.nodup⟩
    · rw [hnext]
    · exact (h.stored seq p hseq).trans (Nat.lt_succ_self _)
    · exact ⟨(h.out e he).1.trans (Nat.lt_succ_self _), (h.out e he).2⟩
  refine hmore.put row origin ?_ ?_ ?_
  · rw [hnext]
    exact Nat.lt_succ_self _
  · by_contra hsome
    obtain ⟨p, hp⟩ := Option.ne_none_iff_exists'.1 hsome
    exact absurd (h.stored s.nextSequence p hp) (by omega)
  · intro hmem
    obtain ⟨e, he, heq⟩ := List.mem_map.1 hmem
    have hlt := (h.out e he).1
    rw [show e.sequence = s.nextSequence from heq] at hlt
    omega

theorem take (h : RunInv cap issued s taken) (row : RowKey) (origin : Origin) :
    RunInv cap issued (s.take row origin).1 (taken ++ (s.take row origin).2.toList) := by
  refine ⟨h.indexed.take row origin, ?_, ?_, ?_, fun seq p hseq => h.stored seq p (SnapshotStore.order_take hseq), ?_, ?_⟩
  · rw [SnapshotStore.capacity_take]
    exact h.capacity
  · rw [SnapshotStore.capacity_take]
    exact (SnapshotStore.len_take s row origin).trans h.bounded
  · rw [SnapshotStore.nextSequence_take]
    exact h.next
  · intro e he
    rw [List.mem_append] at he
    rcases he with he | he
    · refine ⟨(h.out e he).1, ?_⟩
      by_contra hsome
      obtain ⟨p, hp⟩ := Option.ne_none_iff_exists'.1 hsome
      have := SnapshotStore.order_take hp
      rw [(h.out e he).2] at this
      cases this
    · rw [SnapshotStore.take_snd, Option.mem_toList] at he
      refine ⟨h.stored _ _ (h.indexed.lookup he), ?_⟩
      rw [(SnapshotStore.take_some he).2.1, AList.lookup_erase]
  · rw [SnapshotStore.take_snd, List.map_append]
    cases hentry : s.baseline row origin with
    | none => simpa using h.nodup
    | some entry =>
      refine List.nodup_append.2 ⟨h.nodup, by simp, ?_⟩
      intro a ha b hb
      obtain rfl : b = entry.sequence := by simpa using hb
      rintro rfl
      obtain ⟨e, he, heq⟩ := List.mem_map.1 ha
      have := (h.out e he).2
      rw [heq, h.indexed.lookup hentry] at this
      cases this

theorem clear (h : RunInv cap issued s taken) : RunInv cap issued s.clear taken := by
  refine ⟨⟨fun seq row origin => ?_, fun row baselines hrow => ?_⟩, h.capacity, ?_, h.next, ?_, fun e he => ⟨(h.out e he).1, rfl⟩,
    h.nodup⟩
  · simp [SnapshotStore.clear, SnapshotStore.baseline]
  · simp [SnapshotStore.clear] at hrow
  · simp [SnapshotStore.clear, AList.len]
  · intro seq p hseq
    simp [SnapshotStore.clear] at hseq

/-- An entry taken out before is put back. -/
theorem putBack (h : RunInv cap issued s taken) (row : RowKey) (origin : Origin) {i : ℕ} {e : SnapshotEntry V}
    (he : taken[i]? = some e) : RunInv cap issued (s.put row origin e) (taken.eraseIdx i) := by
  have hmem : e ∈ taken := List.mem_of_getElem? he
  refine (h.sublist (List.eraseIdx_sublist ..)).put row origin (h.out e hmem).1 (h.out e hmem).2 ?_
  intro hmem'
  obtain ⟨e', he', heq⟩ := List.mem_map.1 hmem'
  obtain ⟨j, hj, hje⟩ := List.mem_eraseIdx_iff_getElem?.1 he'
  have hsame : (taken.map SnapshotEntry.sequence)[j]? = (taken.map SnapshotEntry.sequence)[i]? := by
    simp [hje, he, heq]
  have hlt : j < (taken.map SnapshotEntry.sequence).length := by
    rw [List.length_map]
    exact (List.getElem?_eq_some_iff.1 hje).1
  exact hj ((List.getElem?_inj hlt h.nodup).1 hsame)

/-- A pool's baseline is taken out and dropped. -/
theorem discard (h : RunInv cap issued s taken) (row : RowKey) (origin : Origin) :
    RunInv cap issued (s.take row origin).1 taken :=
  (h.take row origin).sublist (List.sublist_append_left _ _)

end RunInv

section Run

variable [DecidableEq V]

theorem SnapshotRun.run_append (r : SnapshotRun V) (ops ops' : List (SnapshotOp V)) :
    r.run (ops ++ ops') = (r.run ops).run ops' := List.foldl_append

theorem SnapshotRun.run_singleton (r : SnapshotRun V) (op : SnapshotOp V) : r.run [op] = r.step op := rfl

/-- One operation uses one sequence at most. -/
theorem RunInv.step {cap issued : ℕ} {r : SnapshotRun V} (h : RunInv cap issued r.store r.taken) (hlimit : issued < sequenceLimit)
    (op : SnapshotOp V) : ∃ issued' ≤ issued + 1, RunInv cap issued' (r.step op).store (r.step op).taken := by
  cases op with
  | insert row origin values => exact ⟨_, Nat.le_refl _, h.insert hlimit row origin values⟩
  | put row origin i =>
    refine ⟨issued, Nat.le_succ _, ?_⟩
    simp only [SnapshotRun.step]
    cases he : r.taken[i]? with
    | none => exact h
    | some e => exact h.putBack row origin he
  | take row origin => exact ⟨issued, Nat.le_succ _, h.take row origin⟩
  | replace row origin values =>
    have htake := h.take row origin
    simp only [SnapshotRun.step, SnapshotStore.replace]
    split_ifs
    · exact ⟨_, Nat.le_refl _, htake.insert hlimit row origin values⟩
    · exact ⟨issued, Nat.le_succ _, htake⟩
  | restore row origin standing previous =>
    refine ⟨issued, Nat.le_succ _, ?_⟩
    cases previous with
    | none =>
      simp only [SnapshotRun.step, SnapshotStore.restore]
      split_ifs
      · exact h
      · exact h.discard row origin
    | some i =>
      simp only [SnapshotRun.step]
      cases he : r.taken[i]? with
      | none => exact h
      | some e =>
        simp only [SnapshotStore.restore]
        split_ifs
        · exact h.sublist (List.eraseIdx_sublist ..)
        · exact (h.discard row origin).putBack row origin he
  | clear => exact ⟨issued, Nat.le_succ _, h.clear⟩

theorem RunInv.run {ops : List (SnapshotOp V)} : ∀ {cap issued : ℕ} {r : SnapshotRun V}, RunInv cap issued r.store r.taken →
    issued + ops.length ≤ sequenceLimit → ∃ issued', RunInv cap issued' (r.run ops).store (r.run ops).taken := by
  induction ops with
  | nil => exact fun h _ => ⟨_, h⟩
  | cons op ops ih =>
    intro cap issued r h hlen
    rw [List.length_cons] at hlen
    obtain ⟨issued', hle, hstep⟩ := h.step (by omega) op
    exact ih hstep (by omega)

/-- In a run of at most `2 ^ 64` operations the order holds each baseline once, under its own
sequence, no row is without baselines, there are no more of them than the capacity, and a
baseline evicted leaves with every other pool's of its row. -/
theorem snapshot_store_in_step (capacity : ℕ) (ops : List (SnapshotOp V)) (h : ops.length ≤ sequenceLimit) :
    let s := ((SnapshotRun.new capacity).run ops).store
    (∀ seq row origin, s.order.lookup seq = some (row, origin) ↔
      ∃ entry, s.baseline row origin = some entry ∧ entry.sequence = seq) ∧
    s.order.len = s.entries.total AList.len ∧
    (∀ row baselines, s.entries.lookup row = some baselines → 0 < baselines.len) ∧
    s.entries.total AList.len ≤ max capacity 1 ∧
    ∀ row origin entry row' origin', (s.file row origin entry).baseline row' origin' ≠ none →
      (s.put row origin entry).baseline row' origin' = none →
      ∀ pool, (s.put row origin entry).baseline row' pool = none := by
  have hnew : RunInv (max capacity 1) 0 (SnapshotRun.new capacity : SnapshotRun V).store
      (SnapshotRun.new capacity : SnapshotRun V).taken := RunInv.new capacity
  obtain ⟨issued, hrun⟩ := hnew.run (by omega : 0 + ops.length ≤ sequenceLimit)
  have hcount := hrun.indexed.count
  refine ⟨hrun.indexed.order, hcount, hrun.indexed.full, ?_, fun row origin entry row' origin' hfiled hgone pool => ?_⟩
  · rw [← hcount, ← hrun.capacity]
    exact hrun.bounded
  · rcases SnapshotStore.put_rows ((SnapshotRun.new capacity).run ops).store row origin entry row' with hkept | hall
    · rw [hkept] at hgone
      exact absurd hgone hfiled
    · exact hall pool

/-- A row read through two pools, forgotten through one and put back. -/
theorem snapshot_store_two_pools :
    let ops : List (SnapshotOp ℕ) := [.replace (0, "1") (some 1) (some 7), .replace (0, "1") (some 2) (some 8),
      .take (0, "1") (some 1), .put (0, "1") (some 1) 0]
    ops.length ≤ sequenceLimit ∧
      ((SnapshotRun.new 2).run ops).store.order.len = ((SnapshotRun.new 2).run ops).store.entries.total AList.len := by
  intro ops
  have hlen : ops.length ≤ sequenceLimit := by simp [ops, sequenceLimit]
  exact ⟨hlen, (snapshot_store_in_step 2 ops hlen).2.1⟩

end Run

section Round

def firstRow : RowKey := (0, "1")

def secondRow : RowKey := (0, "2")

/-- One pool's baselines of a row. -/
def onlyPool (n : ℕ) : HashMap Origin (SnapshotEntry ℕ) := (∅ : HashMap Origin (SnapshotEntry ℕ)).insert none ⟨n, some 0⟩

/-- The first row's baseline under the sequence 0, the second's under `n`. -/
def twoRows (n : ℕ) : SnapshotStore ℕ where
  entries := ((∅ : HashMap RowKey (HashMap Origin (SnapshotEntry ℕ))).insert firstRow (onlyPool 0)).insert secondRow (onlyPool n)
  order := ((∅ : HashMap ℕ (RowKey × Origin)).insert 0 ((firstRow, none) : RowKey × Origin)).insert n
    ((secondRow, none) : RowKey × Origin)
  nextSequence := (n + 1) % sequenceLimit
  capacity := 2

theorem onlyPool_lookup (n : ℕ) : (onlyPool n).lookup none = some ⟨n, some 0⟩ := AList.lookup_insert _

theorem twoRows_lookup (n : ℕ) : (twoRows n).entries.lookup secondRow = some (onlyPool n) := AList.lookup_insert _

theorem twoRows_entries (n k : ℕ) :
    ((twoRows n).file secondRow none ⟨k, some 0⟩).entries = (twoRows k).entries := by
  simp [SnapshotStore.file, twoRows, onlyPool, AList.insert_insert]

theorem erase_entries {α : Type} {β : α → Type} [DecidableEq α] (a : α) (s : AList β) : (s.erase a).entries = s.entries.kerase a :=
  rfl

theorem twoRows_order (n k : ℕ) : ((twoRows n).file secondRow none ⟨k, some 0⟩).order =
    ((twoRows n).order.insert k ((secondRow, none) : RowKey × Origin)).erase n := by
  simp [SnapshotStore.file, twoRows_lookup, onlyPool_lookup]

/-- The second row's baseline is replaced under the next sequence. -/
theorem twoRows_insert {n : ℕ} (hn : n ≠ 0) (hlt : n + 1 < sequenceLimit) :
    ((twoRows n).insert secondRow none (some 0)).1 = twoRows (n + 1) := by
  have hnext : (twoRows n).nextSequence = n + 1 := Nat.mod_eq_of_lt hlt
  have horder : ((twoRows n).file secondRow none ⟨n + 1, some 0⟩).order = (twoRows (n + 1)).order := by
    rw [twoRows_order]
    apply AList.ext
    simp [twoRows, erase_entries, List.kerase, hn]
  have hfile : SnapshotStore.file { twoRows n with nextSequence := (n + 1 + 1) % sequenceLimit } secondRow none
      ⟨n + 1, some 0⟩ = twoRows (n + 1) := by
    change SnapshotStore.mk ((twoRows n).file secondRow none ⟨n + 1, some 0⟩).entries
      ((twoRows n).file secondRow none ⟨n + 1, some 0⟩).order _ 2 = _
    rw [twoRows_entries, horder]
    rfl
  have hlen : (twoRows (n + 1)).order.len = 2 := by simp [twoRows, AList.len, List.kerase]
  simp only [SnapshotStore.insert, SnapshotStore.put, hnext, hfile]
  exact SnapshotStore.evict_within hlen.le

/-- The sequences come round: the second row is filed under the one the first row has. -/
theorem twoRows_round : let s := ((twoRows (sequenceLimit - 1)).insert secondRow none (some 0)).1
    s.baseline firstRow none = some ⟨0, some 0⟩ ∧ s.order.lookup 0 = some (secondRow, none) := by
  have hn : sequenceLimit - 1 ≠ 0 := by simp [sequenceLimit]
  have hnext : (twoRows (sequenceLimit - 1)).nextSequence = 0 := by simp [twoRows, sequenceLimit]
  have horder : ((twoRows (sequenceLimit - 1)).file secondRow none ⟨0, some 0⟩).order.entries =
      [⟨0, (secondRow, none)⟩] := by
    rw [twoRows_order]
    generalize sequenceLimit - 1 = n at hn
    simp [twoRows, erase_entries, List.kerase, hn, hn.symm]
  have hlookup : ((twoRows (sequenceLimit - 1)).file secondRow none ⟨0, some 0⟩).order.lookup 0 = some (secondRow, none) := by
    rw [AList.lookup, horder]
    rfl
  have hbaseline : ((twoRows (sequenceLimit - 1)).file secondRow none ⟨0, some 0⟩).baseline firstRow none =
      some ⟨0, some 0⟩ := by
    rw [SnapshotStore.baseline, twoRows_entries]
    rfl
  simp only [SnapshotStore.insert, SnapshotStore.put, hnext]
  rw [SnapshotStore.evict_within]
  · exact ⟨hbaseline, hlookup⟩
  · show AList.len ((twoRows (sequenceLimit - 1)).file secondRow none ⟨0, some 0⟩).order ≤ 2
    rw [AList.len, horder]
    decide

theorem twoRows_run {n k : ℕ} (hn : n ≠ 0) (hlt : n + k < sequenceLimit) :
    ((⟨twoRows n, []⟩ : SnapshotRun ℕ).run (List.replicate k (.insert secondRow none (some 0)))).store =
      twoRows (n + k) := by
  induction k generalizing n with
  | zero => rfl
  | succ k ih =>
    rw [List.replicate_succ]
    have hstep : (⟨twoRows n, []⟩ : SnapshotRun ℕ).step (.insert secondRow none (some 0)) = ⟨twoRows (n + 1), []⟩ := by
      rw [SnapshotRun.step, twoRows_insert hn (by omega)]
    rw [SnapshotRun.run, List.foldl_cons, hstep, ← SnapshotRun.run, ih (by omega) (by omega)]
    congr 1
    omega

/-- A run in which the sequences come round: the first row's baseline has no place of its own
in the order. -/
theorem sequence_comes_round :
    let s := ((SnapshotRun.new 2 : SnapshotRun ℕ).run (.insert firstRow none (some 0) ::
      List.replicate sequenceLimit (.insert secondRow none (some 0)))).store
    s.baseline firstRow none = some ⟨0, some 0⟩ ∧ s.order.lookup 0 = some (secondRow, none) := by
  have hstart : (SnapshotRun.new 2 : SnapshotRun ℕ).run [.insert firstRow none (some 0), .insert secondRow none (some 0)] =
      ⟨twoRows 1, []⟩ := rfl
  have hsplit : (SnapshotOp.insert firstRow none (some 0) ::
      List.replicate sequenceLimit (.insert secondRow none (some 0)) : List (SnapshotOp ℕ)) =
      [.insert firstRow none (some 0), .insert secondRow none (some 0)] ++
        (List.replicate (sequenceLimit - 2) (.insert secondRow none (some 0)) ++ [.insert secondRow none (some 0)]) := by
    rw [← List.replicate_succ']
    have hlimit : sequenceLimit = (sequenceLimit - 2 + 1) + 1 := by simp [sequenceLimit]
    generalize sequenceLimit - 2 + 1 = k at hlimit ⊢
    rw [hlimit, List.replicate_succ]
    rfl
  have hrun := @twoRows_run 1 (sequenceLimit - 2) (by decide) (by simp [sequenceLimit])
  have hlast : 1 + (sequenceLimit - 2) = sequenceLimit - 1 := by simp [sequenceLimit]
  rw [hsplit, SnapshotRun.run_append, hstart, SnapshotRun.run_append]
  simp only [SnapshotRun.run_singleton, SnapshotRun.step]
  rw [hrun, hlast]
  exact twoRows_round

end Round


end TideOrm
