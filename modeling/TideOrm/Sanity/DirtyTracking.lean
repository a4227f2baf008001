import TideOrm.Spec.DirtyTracking

/-! What each operation of the baseline store leaves under every row and pool, and in the
order of the sequences. -/

namespace TideOrm.SnapshotStore

open Lib

variable {V : Type} (s : SnapshotStore V) (row : RowKey) (origin : Origin)

theorem baseline_file (entry : SnapshotEntry V) (row' : RowKey) (origin' : Origin) :
    (s.file row origin entry).baseline row' origin' =
      if row' = row ∧ origin' = origin then some entry else s.baseline row' origin' := by
  unfold baseline file
  dsimp only
  rw [AList.lookup_insert_cases]
  by_cases hrow : row' = row
  · subst hrow
    rw [if_pos rfl, Option.bind_some, AList.lookup_insert_cases]
    by_cases horigin : origin' = origin
    · rw [if_pos horigin, if_pos ⟨rfl, horigin⟩]
    · rw [if_neg horigin, if_neg fun h => horigin h.2]
      cases s.entries.lookup row' <;> rfl
  · rw [if_neg hrow, if_neg fun h => hrow h.1]

theorem order_file (entry : SnapshotEntry V) (seq : ℕ) :
    (s.file row origin entry).order.lookup seq =
      if (s.baseline row origin).any (fun previous => seq == previous.sequence) then none
      else if seq = entry.sequence then some (row, origin) else s.order.lookup seq := by
  have hbaseline : ((s.entries.lookup row).getD ∅).lookup origin = s.baseline row origin := by
    unfold baseline
    cases s.entries.lookup row <;> rfl
  unfold file
  dsimp only
  rw [hbaseline]
  cases s.baseline row origin with
  | none => simp [AList.lookup_insert_cases]
  | some previous => simp [AList.lookup_erase_cases, AList.lookup_insert_cases]

theorem take_none (h : s.baseline row origin = none) : s.take row origin = (s, none) := by
  unfold baseline at h
  unfold take
  cases hrow : s.entries.lookup row with
  | none => rfl
  | some baselines =>
    rw [hrow, Option.bind_some] at h
    simp [h]

variable {s row origin}

theorem take_some {entry : SnapshotEntry V} (h : s.baseline row origin = some entry) :
    (s.take row origin).2 = some entry ∧
      (s.take row origin).1.order = s.order.erase entry.sequence ∧
      (s.take row origin).1.nextSequence = s.nextSequence ∧
      (s.take row origin).1.capacity = s.capacity ∧
      ∀ row' origin', (s.take row origin).1.baseline row' origin' =
        if row' = row ∧ origin' = origin then none else s.baseline row' origin' := by
  unfold baseline at h
  cases hrow : s.entries.lookup row with
  | none => simp [hrow] at h
  | some baselines =>
    rw [hrow, Option.bind_some] at h
    simp only [take, hrow, h]
    refine ⟨trivial, trivial, trivial, trivial, fun row' origin' => ?_⟩
    unfold baseline
    dsimp only
    by_cases hrow' : row' = row
    · subst hrow'
      rw [hrow, Option.bind_some]
      by_cases hleft : (baselines.erase origin : HashMap Origin (SnapshotEntry V)).len = 0
      · have hnone : ∀ o, (baselines.erase origin).lookup o = none := by
          intro o
          by_contra hsome
          obtain ⟨e, he⟩ := Option.ne_none_iff_exists'.1 hsome
          exact absurd (AList.len_pos_iff.2 ⟨o, e, he⟩) (by omega)
        have hother := hnone origin'
        rw [AList.lookup_erase_cases] at hother
        rw [if_pos hleft, AList.lookup_erase_cases, if_pos rfl, Option.bind_none]
        by_cases horigin : origin' = origin
        · rw [if_pos ⟨rfl, horigin⟩]
        · rw [if_neg fun h => horigin h.2]
          rw [if_neg horigin] at hother
          exact hother.symm
      · rw [if_neg hleft, AList.lookup_insert_cases, if_pos rfl, Option.bind_some, AList.lookup_erase_cases]
        by_cases horigin : origin' = origin
        · rw [if_pos horigin, if_pos ⟨rfl, horigin⟩]
        · rw [if_neg horigin, if_neg fun h => horigin h.2]
    · have hother : ¬(row' = row ∧ origin' = origin) := fun h => hrow' h.1
      rw [if_neg hother]
      split_ifs
      · rw [AList.lookup_erase_cases, if_neg hrow']
      · rw [AList.lookup_insert_cases, if_neg hrow']

/-- What is under every row and pool once one pool's baseline is taken out. -/
theorem baseline_take (row' : RowKey) (origin' : Origin) : (s.take row origin).1.baseline row' origin' =
    if row' = row ∧ origin' = origin then none else s.baseline row' origin' := by
  cases h : s.baseline row origin with
  | none =>
    rw [take_none s row origin h]
    split_ifs with hsame
    · obtain ⟨rfl, rfl⟩ := hsame
      exact h
    · rfl
  | some entry => exact (take_some h).2.2.2.2 row' origin'

theorem take_snd : (s.take row origin).2 = s.baseline row origin := by
  cases h : s.baseline row origin with
  | none => rw [take_none s row origin h]
  | some entry => exact (take_some h).1

theorem nextSequence_take : (s.take row origin).1.nextSequence = s.nextSequence := by
  cases h : s.baseline row origin with
  | none => rw [take_none s row origin h]
  | some entry => exact (take_some h).2.2.1

theorem capacity_take : (s.take row origin).1.capacity = s.capacity := by
  cases h : s.baseline row origin with
  | none => rw [take_none s row origin h]
  | some entry => exact (take_some h).2.2.2.1

/-- The order and the entries are in step: each baseline is in the order under its own
sequence, and no row is without baselines. -/
structure Indexed (s : SnapshotStore V) : Prop where
  order : ∀ seq row origin, s.order.lookup seq = some (row, origin) ↔
    ∃ entry, s.baseline row origin = some entry ∧ entry.sequence = seq
  full : ∀ row baselines, s.entries.lookup row = some baselines → 0 < baselines.len

theorem indexed_new (capacity : ℕ) : (new capacity : SnapshotStore V).Indexed :=
  ⟨fun seq row origin => by simp [new, baseline], fun row baselines h => by simp [new] at h⟩

theorem Indexed.lookup (h : s.Indexed) {entry : SnapshotEntry V} (hentry : s.baseline row origin = some entry) :
    s.order.lookup entry.sequence = some (row, origin) := (h.order _ _ _).2 ⟨entry, hentry, rfl⟩

theorem Indexed.file (h : s.Indexed) (row : RowKey) (origin : Origin) {entry : SnapshotEntry V}
    (hfresh : s.order.lookup entry.sequence = none) : (s.file row origin entry).Indexed := by
  have hother : ∀ {row' origin' e}, s.baseline row' origin' = some e → e.sequence ≠ entry.sequence := by
    intro row' origin' e he heq
    rw [← heq, h.lookup he] at hfresh
    cases hfresh
  refine ⟨fun seq row' origin' => ?_, fun row' baselines hrow' => ?_⟩
  · have hback : ∀ {row' origin' e e'}, s.baseline row origin = some e → s.baseline row' origin' = some e' →
        e.sequence = e'.sequence → row' = row ∧ origin' = origin := by
      intro row' origin' e e' he he' heq
      have hsame := h.lookup he
      rw [heq, h.lookup he'] at hsame
      exact Prod.mk.inj (Option.some.inj hsame)
    rw [order_file, baseline_file]
    have horder := h.order seq row' origin'
    cases hprevious : s.baseline row origin with
    | none =>
      simp only [Option.any_none, Bool.false_eq_true, if_false]
      grind
    | some previous =>
      simp only [Option.any_some, beq_iff_eq]
      grind
  · simp only [SnapshotStore.file] at hrow'
    rw [AList.lookup_insert_cases] at hrow'
    split_ifs at hrow'
    · obtain rfl := Option.some.inj hrow'
      exact AList.len_pos_iff.2 ⟨origin, entry, AList.lookup_insert _⟩
    · exact h.full row' baselines hrow'

theorem Indexed.take (h : s.Indexed) (row : RowKey) (origin : Origin) : (s.take row origin).1.Indexed := by
  cases hentry : s.baseline row origin with
  | none =>
    rw [take_none s row origin hentry]
    exact h
  | some entry =>
    refine ⟨fun seq row' origin' => ?_, fun row' baselines hrow' => ?_⟩
    · have hback : ∀ {row' origin' e}, s.baseline row' origin' = some e → entry.sequence = e.sequence →
          row' = row ∧ origin' = origin := by
        intro row' origin' e he heq
        have hsame := h.lookup hentry
        rw [heq, h.lookup he] at hsame
        exact Prod.mk.inj (Option.some.inj hsame)
      rw [(take_some hentry).2.1, AList.lookup_erase_cases, baseline_take]
      have horder := h.order seq row' origin'
      grind
    · unfold baseline at hentry
      cases hrow : s.entries.lookup row with
      | none => simp [hrow] at hentry
      | some inner =>
        rw [hrow, Option.bind_some] at hentry
        simp only [SnapshotStore.take, hrow, hentry] at hrow'
        split_ifs at hrow' with hleft
        · rw [AList.lookup_erase_cases] at hrow'
          split_ifs at hrow'
          exact h.full row' baselines hrow'
        · rw [AList.lookup_insert_cases] at hrow'
          split_ifs at hrow'
          · obtain rfl := Option.some.inj hrow'
            exact Nat.pos_of_ne_zero hleft
          · exact h.full row' baselines hrow'

/-- One row leaves, with the sequences of its baselines. -/
def dropRow (s : SnapshotStore V) (row : RowKey) (order : HashMap ℕ (RowKey × Origin)) : SnapshotStore V :=
  { s with
    entries := s.entries.erase row
    order := ((s.entries.lookup row).getD ∅).entries.foldl (fun order e => order.erase e.2.sequence) order }

theorem baseline_dropRow (row : RowKey) (order : HashMap ℕ (RowKey × Origin)) (row' : RowKey) (origin' : Origin) :
    (s.dropRow row order).baseline row' origin' = if row' = row then none else s.baseline row' origin' := by
  unfold baseline dropRow
  dsimp only
  rw [AList.lookup_erase_cases]
  split_ifs <;> rfl

/-- The row of a sequence of the order leaves. -/
theorem Indexed.dropRow (h : s.Indexed) {seq : ℕ} (hseq : s.order.lookup seq = some (row, origin)) :
    (s.dropRow row (s.order.erase seq)).Indexed := by
  have hmem : ∀ seq', (∃ e ∈ ((s.entries.lookup row).getD ∅).entries, e.2.sequence = seq') ↔
      ∃ origin', s.order.lookup seq' = some (row, origin') := by
    intro seq'
    cases hrow : s.entries.lookup row with
    | none =>
      refine iff_of_false (by simp) ?_
      rintro ⟨origin', horigin'⟩
      obtain ⟨e, he, -⟩ := (h.order _ _ _).1 horigin'
      simp [baseline, hrow] at he
    | some baselines =>
      constructor
      · rintro ⟨⟨origin', e⟩, he, rfl⟩
        exact ⟨origin', h.lookup (by simpa [baseline, hrow] using AList.mem_entries_iff.1 he)⟩
      · rintro ⟨origin', horigin'⟩
        obtain ⟨e, he, hes⟩ := (h.order _ _ _).1 horigin'
        exact ⟨⟨origin', e⟩, AList.mem_entries_iff.2 (by simpa [baseline, hrow] using he), hes⟩
  refine ⟨fun seq' row' origin' => ?_, fun row' baselines hrow' => ?_⟩
  · rw [SnapshotStore.dropRow, AList.lookup_foldl_erase, ← SnapshotStore.dropRow, baseline_dropRow,
      AList.lookup_erase_cases]
    by_cases hin : ∃ origin'', s.order.lookup seq' = some (row, origin'')
    · rw [if_pos ((hmem seq').2 hin)]
      obtain ⟨origin'', horigin''⟩ := hin
      refine iff_of_false (by simp) ?_
      rintro ⟨e, he, rfl⟩
      split_ifs at he with hrow
      have hsame := h.lookup he
      rw [horigin''] at hsame
      exact hrow (Prod.mk.inj (Option.some.inj hsame)).1.symm
    · have hne : seq' ≠ seq := by
        rintro rfl
        exact hin ⟨origin, hseq⟩
      rw [if_neg fun hmem' => hin ((hmem seq').1 hmem'), if_neg hne]
      by_cases hrow : row' = row
      · subst hrow
        exact iff_of_false (fun heq => hin ⟨origin', heq⟩) (by simp)
      · simp only [if_neg hrow]
        exact h.order seq' row' origin'
  · simp only [SnapshotStore.dropRow] at hrow'
    rw [AList.lookup_erase_cases] at hrow'
    split_ifs at hrow'
    exact h.full row' baselines hrow'

/-- The rounds of an eviction. -/
theorem evict_round (fuel : ℕ) (s : SnapshotStore V) :
    evict (fuel + 1) s = s ∧ s.order.len ≤ s.capacity ∨
    ∃ seq row origin, s.order.lookup seq = some (row, origin) ∧
      evict (fuel + 1) s = evict fuel (s.dropRow row (s.order.erase seq)) := by
  rw [evict]
  split_ifs with hfull
  · cases hpop : s.order.popFirst with
    | none =>
      have := AList.popFirst_none hpop
      omega
    | some popped =>
      obtain ⟨⟨row, origin⟩, order⟩ := popped
      obtain ⟨seq, hseq, rfl⟩ := AList.popFirst_some hpop
      exact Or.inr ⟨seq, row, origin, hseq, rfl⟩
  · exact Or.inl ⟨rfl, by omega⟩

theorem len_dropRow {seq : ℕ} (hseq : s.order.lookup seq = some (row, origin)) :
    (s.dropRow row (s.order.erase seq)).order.len < s.order.len := by
  have hfold := AList.len_foldl_erase_le (fun e : (_ : Origin) × SnapshotEntry V => e.2.sequence)
    ((s.entries.lookup row).getD ∅).entries (s.order.erase seq)
  have herase := AList.len_erase hseq
  unfold dropRow
  dsimp only
  omega

theorem evict_within {fuel : ℕ} (h : s.order.len ≤ s.capacity) : s.evict fuel = s := by
  cases fuel with
  | zero => rfl
  | succ fuel => rw [evict, if_neg (by omega)]

theorem len_file (s : SnapshotStore V) (row : RowKey) (origin : Origin) (entry : SnapshotEntry V) :
    (s.file row origin entry).order.len ≤ s.order.len + 1 := by
  have hinsert := AList.len_insert_le s.order entry.sequence ((row, origin) : RowKey × Origin)
  unfold file
  dsimp only
  split
  · exact (AList.len_erase_le _ _).trans hinsert
  · exact hinsert

/-- Whole rows go in an eviction. -/
theorem evict_rows (fuel : ℕ) : ∀ s : SnapshotStore V,
    (evict fuel s).capacity = s.capacity ∧ (evict fuel s).nextSequence = s.nextSequence ∧
      ∀ row, (∀ origin, (evict fuel s).baseline row origin = s.baseline row origin) ∨
        ∀ origin, (evict fuel s).baseline row origin = none := by
  induction fuel with
  | zero => exact fun s => ⟨rfl, rfl, fun row => Or.inl fun _ => rfl⟩
  | succ fuel ih =>
    intro s
    rcases evict_round fuel s with ⟨heq, -⟩ | ⟨seq, row, origin, -, heq⟩
    · rw [heq]
      exact ⟨rfl, rfl, fun row => Or.inl fun _ => rfl⟩
    · obtain ⟨hcapacity, hnext, hrows⟩ := ih (s.dropRow row (s.order.erase seq))
      rw [heq]
      refine ⟨hcapacity, hnext, fun row' => ?_⟩
      rcases hrows row' with hkept | hgone
      · by_cases hrow : row' = row
        · exact Or.inr fun origin' => by rw [hkept, baseline_dropRow, if_pos hrow]
        · exact Or.inl fun origin' => by rw [hkept, baseline_dropRow, if_neg hrow]
      · exact Or.inr hgone

/-- No more baselines than the capacity stay. -/
theorem evict_indexed (fuel : ℕ) : ∀ s : SnapshotStore V, s.Indexed → s.order.len ≤ fuel →
    (evict fuel s).Indexed ∧ (evict fuel s).order.len ≤ s.capacity := by
  induction fuel with
  | zero => exact fun s h hlen => ⟨h, hlen.trans (Nat.zero_le _)⟩
  | succ fuel ih =>
    intro s h hlen
    rcases evict_round fuel s with ⟨heq, hle⟩ | ⟨seq, row, origin, hseq, heq⟩
    · rw [heq]
      exact ⟨h, hle⟩
    · have hless := len_dropRow hseq
      rw [heq]
      exact ih _ (h.dropRow hseq) (by omega)

theorem put_rows (s : SnapshotStore V) (row : RowKey) (origin : Origin) (entry : SnapshotEntry V) (row' : RowKey) :
    (∀ origin', (s.put row origin entry).baseline row' origin' = (s.file row origin entry).baseline row' origin') ∨
      ∀ origin', (s.put row origin entry).baseline row' origin' = none :=
  (evict_rows _ _).2.2 row'

@[simp] theorem capacity_put (s : SnapshotStore V) (row : RowKey) (origin : Origin) (entry : SnapshotEntry V) :
    (s.put row origin entry).capacity = s.capacity := (evict_rows _ _).1

@[simp] theorem nextSequence_put (s : SnapshotStore V) (row : RowKey) (origin : Origin) (entry : SnapshotEntry V) :
    (s.put row origin entry).nextSequence = s.nextSequence := (evict_rows _ _).2.1

theorem Indexed.put (h : s.Indexed) (row : RowKey) (origin : Origin) {entry : SnapshotEntry V}
    (hfresh : s.order.lookup entry.sequence = none) :
    (s.put row origin entry).Indexed ∧ (s.put row origin entry).order.len ≤ s.capacity :=
  evict_indexed _ _ (h.file row origin hfresh) (Nat.le_refl _)

/-- A baseline after a put is the one put or was there before. -/
theorem baseline_put {entry e : SnapshotEntry V} {row' : RowKey} {origin' : Origin}
    (h : (s.put row origin entry).baseline row' origin' = some e) :
    (row' = row ∧ origin' = origin ∧ e = entry) ∨
      (¬(row' = row ∧ origin' = origin) ∧ s.baseline row' origin' = some e) := by
  rcases put_rows s row origin entry row' with hkept | hgone
  · rw [hkept, baseline_file] at h
    split_ifs at h with hsame
    · exact Or.inl ⟨hsame.1, hsame.2, (Option.some.inj h).symm⟩
    · exact Or.inr ⟨hsame, h⟩
  · rw [hgone] at h
    cases h

theorem Indexed.order_put (h : s.Indexed) {entry : SnapshotEntry V} (hfresh : s.order.lookup entry.sequence = none)
    {seq : ℕ} {p : RowKey × Origin} (hseq : (s.put row origin entry).order.lookup seq = some p) :
    seq = entry.sequence ∨ ∃ p', s.order.lookup seq = some p' := by
  obtain ⟨e, he, rfl⟩ := ((h.put row origin hfresh).1.order seq p.1 p.2).1 hseq
  rcases baseline_put he with ⟨-, -, rfl⟩ | ⟨-, hold⟩
  · exact Or.inl rfl
  · exact Or.inr ⟨p, h.lookup hold⟩

theorem order_take {seq : ℕ} {p : RowKey × Origin} (h : (s.take row origin).1.order.lookup seq = some p) :
    s.order.lookup seq = some p := by
  cases hentry : s.baseline row origin with
  | none => rwa [take_none s row origin hentry] at h
  | some entry =>
    rw [(take_some hentry).2.1, AList.lookup_erase_cases] at h
    split_ifs at h
    exact h

theorem len_take (s : SnapshotStore V) (row : RowKey) (origin : Origin) :
    (s.take row origin).1.order.len ≤ s.order.len := by
  cases hentry : s.baseline row origin with
  | none => rw [take_none s row origin hentry]
  | some entry =>
    rw [(take_some hentry).2.1]
    exact AList.len_erase_le _ _

/-- With room, a new entry is filed and nothing leaves. -/
theorem insert_room (h : (s.take row origin).1.order.len < s.capacity) (values : Option V) (row' : RowKey) (origin' : Origin) :
    ((s.take row origin).1.insert row origin values).1.baseline row' origin' =
      if row' = row ∧ origin' = origin then some ⟨s.nextSequence, values⟩ else s.baseline row' origin' := by
  simp only [insert, put]
  rw [evict_within]
  · rw [baseline_file, nextSequence_take]
    split_ifs with hsame
    · rfl
    · exact (baseline_take row' origin').trans (if_neg hsame)
  · refine (len_file _ row origin _).trans ?_
    show (s.take row origin).1.order.len + 1 ≤ (s.take row origin).1.capacity
    rw [capacity_take]
    exact h

end TideOrm.SnapshotStore
