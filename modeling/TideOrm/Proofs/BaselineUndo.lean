import TideOrm.Proofs.Baselines

/-! A pending undo step knows its own change by the sequence of the entry it left, which no
other entry is ever given. -/

namespace TideOrm

open Lib

variable {V : Type}

namespace SnapshotStore

variable {s : SnapshotStore V} {row : RowKey} {origin : Origin}

/-- The change left this entry. -/
def Stands (s : SnapshotStore V) (c : BaselineChange V) : Prop :=
  (s.baseline c.row c.origin).map SnapshotEntry.sequence = c.standing

instance (s : SnapshotStore V) (c : BaselineChange V) : Decidable (s.Stands c) := inferInstanceAs (Decidable (_ = _))

/-- Undoing the change evicts nothing. -/
def Fits (s : SnapshotStore V) (c : BaselineChange V) : Prop :=
  c.standing ≠ none ∨ c.previous = none ∨ s.order.len < s.capacity

theorem undoChange_of_not_stands {c : BaselineChange V} (h : ¬s.Stands c) : s.undoChange c = s := if_pos h

theorem undoChange_of_stands {c : BaselineChange V} (h : s.Stands c) : s.undoChange c =
    match c.previous with
    | some previous => (s.take c.row c.origin).1.put c.row c.origin previous
    | none => (s.take c.row c.origin).1 := if_neg (not_not.2 h)

theorem len_take_lt (h : s.Indexed) {entry : SnapshotEntry V} (hentry : s.baseline row origin = some entry) :
    (s.take row origin).1.order.len < s.order.len := by
  have hlen := AList.len_erase (h.lookup hentry)
  rw [(take_some hentry).2.1]
  omega

/-- What undoing a change leaves under every row and pool. -/
theorem baseline_undoChange (h : s.Indexed) (hle : s.order.len ≤ s.capacity) {c : BaselineChange V} (hfits : s.Fits c)
    (row : RowKey) (origin : Origin) : (s.undoChange c).baseline row origin =
      if (row = c.row ∧ origin = c.origin) ∧ s.Stands c then c.previous else s.baseline row origin := by
  by_cases hstands : s.Stands c
  · rw [undoChange_of_stands hstands]
    simp only [hstands, and_true]
    cases hprevious : c.previous with
    | none => exact baseline_take row origin
    | some previous =>
      have hroom : (s.take c.row c.origin).1.order.len < s.capacity := by
        cases hentry : s.baseline c.row c.origin with
        | none =>
          rw [take_none s _ _ hentry]
          rw [Stands, hentry] at hstands
          rcases hfits with hsome | hnone | hroom
          · exact absurd hstands.symm hsome
          · rw [hprevious] at hnone
            cases hnone
          · exact hroom
        | some entry => exact (len_take_lt h hentry).trans_le hle
      dsimp only
      rw [put, evict_within, baseline_file, baseline_take]
      · split_ifs <;> rfl
      · refine (len_file _ c.row c.origin _).trans ?_
        show (s.take c.row c.origin).1.order.len + 1 ≤ (s.take c.row c.origin).1.capacity
        rw [capacity_take]
        exact hroom
  · rw [undoChange_of_not_stands hstands, if_neg fun h => hstands h.2]

/-- A baseline after a change is undone was there before or is the one put back. -/
theorem baseline_of_undoChange {c : BaselineChange V} {e : SnapshotEntry V}
    (h : (s.undoChange c).baseline row origin = some e) :
    s.baseline row origin = some e ∨ (c.row = row ∧ c.origin = origin ∧ c.previous = some e) := by
  by_cases hstands : s.Stands c
  · have htake : ∀ e, (s.take c.row c.origin).1.baseline row origin = some e → s.baseline row origin = some e := by
      intro e he
      rw [baseline_take] at he
      split_ifs at he
      exact he
    rw [undoChange_of_stands hstands] at h
    cases hprevious : c.previous with
    | none =>
      rw [hprevious] at h
      exact Or.inl (htake e h)
    | some previous =>
      rw [hprevious] at h
      rcases baseline_put h with ⟨hrow, horigin, rfl⟩ | ⟨-, hold⟩
      · exact Or.inr ⟨hrow.symm, horigin.symm, rfl⟩
      · exact Or.inl (htake e hold)
  · rw [undoChange_of_not_stands hstands] at h
    exact Or.inl h

theorem baseline_of_undoChanges (changes : List (BaselineChange V)) {e : SnapshotEntry V} : ∀ {s : SnapshotStore V},
    (changes.foldl undoChange s).baseline row origin = some e →
    s.baseline row origin = some e ∨ ∃ c ∈ changes, c.row = row ∧ c.origin = origin ∧ c.previous = some e := by
  induction changes with
  | nil => exact fun h => Or.inl h
  | cons c changes ih =>
    intro s h
    rcases ih h with hold | ⟨c', hc', hprevious⟩
    · rcases baseline_of_undoChange hold with hold | hprevious
      · exact Or.inl hold
      · exact Or.inr ⟨c, List.mem_cons_self, hprevious⟩
    · exact Or.inr ⟨c', List.mem_cons_of_mem _ hc', hprevious⟩

theorem baseline_of_dropTombstones (changes : List (BaselineChange V)) {e : SnapshotEntry V} : ∀ {s : SnapshotStore V},
    (changes.foldl dropTombstone s).baseline row origin = some e → s.baseline row origin = some e := by
  induction changes with
  | nil => exact fun h => h
  | cons c changes ih =>
    intro s h
    have hone := ih h
    unfold dropTombstone at hone
    split_ifs at hone
    · rw [baseline_take] at hone
      split_ifs at hone
      exact hone
    · exact hone

/-- What is under every row and pool once tombstones are in the place of some baselines. -/
structure Invalidated (s : SnapshotStore V) (issued : ℕ) (keys : List (RowKey × Origin)) (s' : SnapshotStore V)
    (changes : List (BaselineChange V)) : Prop where
  places : changes.map (fun c => (c.row, c.origin)) = keys
  previous : ∀ c ∈ changes, c.previous = s.baseline c.row c.origin
  standing : ∀ c ∈ changes, ∃ seq, c.standing = some seq ∧ s'.baseline c.row c.origin = some ⟨seq, none⟩
  fresh : ∀ c ∈ changes, ∀ seq, c.standing = some seq → issued ≤ seq ∧ seq < issued + keys.length
  others : ∀ row origin, (row, origin) ∉ keys → s'.baseline row origin = s.baseline row origin

theorem Invalidated.mem_places {s' : SnapshotStore V} {issued : ℕ} {keys : List (RowKey × Origin)}
    {changes : List (BaselineChange V)} (h : s.Invalidated issued keys s' changes) {c : BaselineChange V}
    (hc : c ∈ changes) : (c.row, c.origin) ∈ keys := by
  rw [← h.places]
  exact List.mem_map_of_mem hc

theorem length_invalidate (keys : List (RowKey × Origin)) : ∀ s : SnapshotStore V, (s.invalidate keys).2.length = keys.length := by
  induction keys with
  | nil => exact fun s => rfl
  | cons key keys ih => exact fun s => congrArg (· + 1) (ih _)

theorem invalidate_cons (s : SnapshotStore V) (row : RowKey) (origin : Origin) (keys : List (RowKey × Origin)) :
    let inserted := (s.take row origin).1.insert row origin none
    s.invalidate ((row, origin) :: keys) = ((inserted.1.invalidate keys).1,
      ⟨row, origin, some s.nextSequence, s.baseline row origin⟩ :: (inserted.1.invalidate keys).2) := by
  intro inserted
  have hseq : inserted.2 = s.nextSequence := nextSequence_take
  rw [← hseq, ← take_snd]
  rfl

end SnapshotStore

/-- The entries that undoing changes would put back. -/
def previousOf (changes : List (BaselineChange V)) : List (SnapshotEntry V) := changes.flatMap fun c => c.previous.toList

namespace RunInv

variable {cap issued : ℕ} {s : SnapshotStore V} {taken : List (SnapshotEntry V)}

theorem perm (h : RunInv cap issued s taken) {taken' : List (SnapshotEntry V)} (hperm : taken.Perm taken') :
    RunInv cap issued s taken' :=
  ⟨h.indexed, h.capacity, h.bounded, h.next, h.stored, fun e he => h.out e (hperm.mem_iff.2 he),
    (hperm.map _).nodup_iff.1 h.nodup⟩

theorem nextSequence_eq (h : RunInv cap issued s taken) (hlimit : issued < sequenceLimit) : s.nextSequence = issued := by
  rw [h.next, Nat.mod_eq_of_lt hlimit]

theorem invalidate {keys : List (RowKey × Origin)} : ∀ {issued : ℕ} {s : SnapshotStore V} {taken : List (SnapshotEntry V)},
    RunInv cap issued s taken → issued + keys.length ≤ sequenceLimit → keys.Nodup →
    (∀ row origin, (row, origin) ∈ keys → s.baseline row origin ≠ none) →
    s.Invalidated issued keys (s.invalidate keys).1 (s.invalidate keys).2 ∧
      RunInv cap (issued + keys.length) (s.invalidate keys).1 (taken ++ previousOf (s.invalidate keys).2) := by
  induction keys with
  | nil =>
    intro issued s taken h _ _ _
    refine ⟨⟨rfl, by simp [SnapshotStore.invalidate], by simp [SnapshotStore.invalidate],
      by simp [SnapshotStore.invalidate], fun _ _ _ => rfl⟩, ?_⟩
    simpa [SnapshotStore.invalidate, previousOf] using h
  | cons key keys ih =>
    obtain ⟨row, origin⟩ := key
    intro issued s taken h hlimit hnodup hpresent
    rw [List.length_cons] at hlimit
    obtain ⟨hnotin, hnodup⟩ := List.nodup_cons.1 hnodup
    obtain ⟨entry, hentry⟩ := Option.ne_none_iff_exists'.1 (hpresent row origin List.mem_cons_self)
    have hbaseline := SnapshotStore.insert_room ((SnapshotStore.len_take_lt h.indexed hentry).trans_le h.bounded) none
    have hrun := (h.take row origin).insert (by omega) row origin none
    have hother : ∀ {row' origin'}, (row', origin') ∈ keys → ¬(row' = row ∧ origin' = origin) := by
      rintro row' origin' hmem ⟨rfl, rfl⟩
      exact hnotin hmem
    obtain ⟨hinv, hend⟩ := ih hrun (by omega) hnodup (fun row' origin' hmem => by
      rw [hbaseline, if_neg (hother hmem)]
      exact hpresent row' origin' (List.mem_cons_of_mem _ hmem))
    have hseq := h.nextSequence_eq (by omega)
    rw [SnapshotStore.take_snd, hentry] at hrun hend
    rw [SnapshotStore.invalidate_cons, hentry, hseq]
    refine ⟨⟨?_, ?_, ?_, ?_, ?_⟩, ?_⟩
    · rw [List.map_cons, hinv.places]
    · intro c hc
      rcases List.mem_cons.1 hc with rfl | hc
      · exact hentry.symm
      · rw [hinv.previous c hc, hbaseline, if_neg (hother (hinv.mem_places hc))]
    · intro c hc
      rcases List.mem_cons.1 hc with rfl | hc
      · refine ⟨issued, rfl, ?_⟩
        rw [hinv.others row origin hnotin, hbaseline, if_pos ⟨rfl, rfl⟩, hseq]
      · exact hinv.standing c hc
    · intro c hc seq hstanding
      rw [List.length_cons]
      rcases List.mem_cons.1 hc with rfl | hc
      · obtain rfl := Option.some.inj hstanding
        omega
      · have := hinv.fresh c hc seq hstanding
        omega
    · intro row' origin' hmem
      rw [List.mem_cons, not_or] at hmem
      rw [hinv.others row' origin' hmem.2, hbaseline, if_neg fun hsame => hmem.1 (Prod.ext hsame.1 hsame.2)]
    · rw [List.length_cons]
      have hcount : issued + 1 + keys.length = issued + (keys.length + 1) := by omega
      rw [hcount, List.append_assoc] at hend
      exact hend

theorem undoChange {c : BaselineChange V} (h : RunInv cap issued s (c.previous.toList ++ taken)) :
    RunInv cap issued (s.undoChange c) taken := by
  by_cases hstands : s.Stands c
  · rw [SnapshotStore.undoChange_of_stands hstands]
    cases hprevious : c.previous with
    | none => exact (h.sublist (List.sublist_append_right _ _)).discard c.row c.origin
    | some previous =>
      rw [hprevious] at h
      exact (h.discard c.row c.origin).putBack c.row c.origin (i := 0) rfl
  · rw [SnapshotStore.undoChange_of_not_stands hstands]
    exact h.sublist (List.sublist_append_right _ _)

theorem undoChanges {changes : List (BaselineChange V)} : ∀ {s : SnapshotStore V},
    RunInv cap issued s (previousOf changes ++ taken) → RunInv cap issued (changes.foldl SnapshotStore.undoChange s) taken := by
  induction changes with
  | nil => exact fun h => h
  | cons c changes ih =>
    intro s h
    rw [previousOf, List.flatMap_cons, List.append_assoc] at h
    exact ih h.undoChange

theorem dropTombstones {changes : List (BaselineChange V)} : ∀ {s : SnapshotStore V},
    RunInv cap issued s taken → RunInv cap issued (changes.foldl SnapshotStore.dropTombstone s) taken := by
  induction changes with
  | nil => exact fun h => h
  | cons c changes ih =>
    intro s h
    refine ih ?_
    unfold SnapshotStore.dropTombstone
    split_ifs
    · exact h.discard c.row c.origin
    · exact h

/-- Changes of different rows or pools that each left an entry are undone one by one. -/
theorem baseline_undoChanges {changes : List (BaselineChange V)} : ∀ {s : SnapshotStore V},
    RunInv cap issued s (previousOf changes ++ taken) → (changes.map fun c => (c.row, c.origin)).Nodup →
    (∀ c ∈ changes, c.standing ≠ none) →
    (∀ c ∈ changes, (changes.foldl SnapshotStore.undoChange s).baseline c.row c.origin =
      if s.Stands c then c.previous else s.baseline c.row c.origin) ∧
    ∀ row origin, (row, origin) ∉ changes.map (fun c => (c.row, c.origin)) →
      (changes.foldl SnapshotStore.undoChange s).baseline row origin = s.baseline row origin := by
  induction changes with
  | nil => exact fun _ _ _ => ⟨by simp, fun _ _ _ => rfl⟩
  | cons c changes ih =>
    intro s h hnodup hstanding
    rw [List.map_cons] at hnodup
    obtain ⟨hnotin, hnodup⟩ := List.nodup_cons.1 hnodup
    have hundo := SnapshotStore.baseline_undoChange h.indexed h.bounded
      (Or.inl (hstanding c List.mem_cons_self) : s.Fits c)
    rw [previousOf, List.flatMap_cons, List.append_assoc] at h
    obtain ⟨hchanges, hothers⟩ := ih h.undoChange hnodup fun c' hc' => hstanding c' (List.mem_cons_of_mem _ hc')
    refine ⟨fun c' hc' => ?_, fun row origin hmem => ?_⟩
    · rw [List.foldl_cons]
      rcases List.mem_cons.1 hc' with rfl | hc'
      · rw [hothers _ _ hnotin, hundo]
        simp
      · have hother : ¬(c'.row = c.row ∧ c'.origin = c.origin) := by
          rintro ⟨hrow, horigin⟩
          exact hnotin (List.mem_map.2 ⟨c', hc', by rw [hrow, horigin]⟩)
        have hsame : (s.undoChange c).baseline c'.row c'.origin = s.baseline c'.row c'.origin := by
          rw [hundo, if_neg fun h => hother h.1]
        have hstands : (s.undoChange c).Stands c' ↔ s.Stands c' := by
          rw [SnapshotStore.Stands, hsame, SnapshotStore.Stands]
        rw [hchanges c' hc', hsame]
        simp only [hstands]
    · rw [List.map_cons, List.mem_cons, not_or] at hmem
      rw [List.foldl_cons, hothers row origin hmem.2, hundo,
        if_neg fun h => hmem.1 (Prod.ext h.1.1 h.1.2)]

end RunInv

theorem SnapshotStore.mem_keysOf {s : SnapshotStore V} {modelType : ℕ} {row : RowKey} {origin : Origin}
    (h : (row, origin) ∈ s.keysOf modelType) : s.baseline row origin ≠ none := by
  simp only [keysOf, List.mem_flatMap, List.mem_map, List.mem_filter] at h
  obtain ⟨⟨row', baselines⟩, ⟨hrow, -⟩, ⟨origin', entry⟩, hentry, heq⟩ := h
  obtain ⟨rfl, rfl⟩ := Prod.mk.inj heq
  rw [baseline, AList.mem_entries_iff.1 hrow, Option.bind_some, AList.mem_entries_iff.1 hentry]
  exact Option.some_ne_none _

theorem SnapshotStore.nodup_keysOf (s : SnapshotStore V) (modelType : ℕ) : (s.keysOf modelType).Nodup := by
  have hrows : (s.entries.entries.filter fun row => row.1.1 == modelType).NodupKeys :=
    s.entries.nodupKeys.sublist List.filter_sublist
  refine List.nodup_flatMap.2 ⟨?_, ?_⟩
  · rintro ⟨row, baselines⟩ -
    refine List.pairwise_map.2 (baselines.nodupKeys.pairwise_ne.imp ?_)
    intro e e' hne heq
    exact hne (Prod.mk.inj heq).2
  · refine hrows.pairwise_ne.imp ?_
    intro row row' hne key hkey hkey'
    obtain ⟨e, -, rfl⟩ := List.mem_map.1 hkey
    obtain ⟨e', -, heq⟩ := List.mem_map.1 hkey'
    exact hne (Prod.mk.inj heq).1.symm

namespace Tracking

variable {t t' : Tracking V} {cap : ℕ} {row : RowKey} {origin : Origin}

/-- The entries that pending steps would put back. -/
def outOf (steps : List (Option (BaselineUndo V))) : List (SnapshotEntry V) :=
  steps.flatMap fun step => previousOf (step.elim [] BaselineUndo.changes)

theorem pending_split {i : ℕ} {step : BaselineUndo V} (h : t.pending i = some step) :
    ∃ front back, t.steps = front ++ some step :: back ∧ front.length = i := by
  have hi : t.steps[i]? = some (some step) := Option.join_eq_some_iff.1 h
  obtain ⟨hlt, hget⟩ := List.getElem?_eq_some_iff.1 hi
  refine ⟨t.steps.take i, t.steps.drop (i + 1), ?_, by simp; omega⟩
  rw [← hget, List.getElem_cons_drop, List.take_append_drop]

theorem outOf_split {front back : List (Option (BaselineUndo V))} {step : BaselineUndo V} :
    (outOf (front ++ some step :: back)).Perm (previousOf step.changes ++ outOf (front ++ none :: back)) := by
  simp only [outOf, List.flatMap_append, List.flatMap_cons, Option.elim_some, Option.elim_none, previousOf,
    List.flatMap_nil, List.nil_append]
  rw [← List.append_assoc, ← List.append_assoc]
  exact List.perm_append_comm.append_right _

theorem set_split {front back : List (Option (BaselineUndo V))} {step : BaselineUndo V} :
    (front ++ some step :: back).set front.length none = front ++ none :: back := by
  simp [List.set_append_right]

/-- What a run keeps of the baselines and of the pending steps. -/
def Inv (cap : ℕ) (t : Tracking V) : Prop := RunInv cap t.issued t.store (outOf t.steps)

theorem inv_new (capacity : ℕ) : Inv (max capacity 1) (new capacity : Tracking V) := RunInv.new capacity

/-- A step was recorded with the change it undoes. -/
structure Recorded (t t' : Tracking V) (step : BaselineUndo V) : Prop where
  steps : t'.steps = t.steps ++ [some step]
  previous : ∀ c ∈ step.changes, c.previous = t.store.baseline c.row c.origin
  standing : ∀ c ∈ step.changes, ∀ seq, c.standing = some seq → t.issued ≤ seq ∧ seq < t'.issued
  left : ∀ c ∈ step.changes, t'.store.Stands c ∨ (c.standing ≠ none ∧ t'.store.baseline c.row c.origin = none ∧ c.previous = none)
  fresh : ∀ row origin e, t'.store.baseline row origin = some e → t.store.baseline row origin = some e ∨ t.issued ≤ e.sequence
  places : (step.changes.map fun c => (c.row, c.origin)).Nodup
  alone : (∀ c ∈ step.changes, c.standing ≠ none) ∨ ∃ c, step.changes = [c]

theorem pending_none {i : ℕ} (h : t.steps.length ≤ i) : t.pending i = none := by
  rw [pending, List.getElem?_eq_none h]
  rfl

theorem inv_done {i : ℕ} {step : BaselineUndo V} (h : Inv cap t) (hstep : t.pending i = some step) :
    RunInv cap t.issued t.store (previousOf step.changes ++ outOf (t.steps.set i none)) := by
  obtain ⟨front, back, hsteps, rfl⟩ := pending_split hstep
  rw [hsteps, set_split]
  rw [Inv, hsteps] at h
  exact h.perm outOf_split

/-- An entry is a row's baseline, or would be put back as it. -/
def Holds (t : Tracking V) (row : RowKey) (origin : Origin) (e : SnapshotEntry V) : Prop :=
  t.store.baseline row origin = some e ∨
    ∃ i step c, t.pending i = some step ∧ c ∈ step.changes ∧ c.row = row ∧ c.origin = origin ∧ c.previous = some e

theorem pending_append {i : ℕ} {step step' : BaselineUndo V} (hsteps : t'.steps = t.steps ++ [some step])
    (h : t'.pending i = some step') : t.pending i = some step' ∨ i = t.steps.length ∧ step' = step := by
  rw [pending, hsteps, List.getElem?_append] at h
  split_ifs at h with hlt
  · exact Or.inl h
  · have hi : i = t.steps.length := by
      by_contra hne
      rw [List.getElem?_eq_none (by simp only [List.length_singleton]; omega)] at h
      cases h
    rw [hi, Nat.sub_self] at h
    exact Or.inr ⟨hi, (Option.some.inj h).symm⟩

theorem pending_set {i j : ℕ} {step : BaselineUndo V} (hsteps : t'.steps = t.steps.set j none) (h : t'.pending i = some step) :
    t.pending i = some step := by
  rw [pending, hsteps, List.getElem?_set] at h
  split_ifs at h
  · cases h
  · cases h
  · exact h

theorem mem_outOf {i : ℕ} {step : BaselineUndo V} {c : BaselineChange V} {e : SnapshotEntry V} (hi : t.pending i = some step)
    (hc : c ∈ step.changes) (he : c.previous = some e) : e ∈ outOf t.steps := by
  refine List.mem_flatMap.2 ⟨some step, List.mem_of_getElem? (Option.join_eq_some_iff.1 hi), ?_⟩
  exact List.mem_flatMap.2 ⟨c, hc, by rw [he]; exact List.mem_singleton_self e⟩

theorem Holds.lt (h : Inv cap t) {e : SnapshotEntry V} (he : t.Holds row origin e) : e.sequence < t.issued := by
  rcases he with he | ⟨i, step, c, hi, hc, -, -, hprevious⟩
  · exact h.stored _ _ (h.indexed.lookup he)
  · exact (h.out e (mem_outOf hi hc hprevious)).1

theorem Recorded.holds {step : BaselineUndo V} (h : Recorded t t' step) {e : SnapshotEntry V} (he : t'.Holds row origin e) :
    t.Holds row origin e ∨ t.issued ≤ e.sequence := by
  rcases he with he | ⟨i, step', c, hi, hc, rfl, rfl, hprevious⟩
  · rcases h.fresh row origin e he with hold | hnew
    · exact Or.inl (Or.inl hold)
    · exact Or.inr hnew
  · rcases pending_append h.steps hi with hold | ⟨-, rfl⟩
    · exact Or.inl (Or.inr ⟨i, step', c, hold, hc, rfl, rfl, hprevious⟩)
    · exact Or.inl (Or.inl ((h.previous c hc).symm.trans hprevious))

section Step

variable [DecidableEq V]

theorem issued_step (t : Tracking V) (op : TrackingOp V) : t.issued ≤ (t.step op).issued := by
  cases op with
  | setBaseline row origin values => exact Nat.le_add_right _ _
  | invalidateModel modelType => exact Nat.le_add_right _ _
  | clearAll => exact Nat.le_refl _
  | undo i =>
    simp only [step]
    cases t.pending i with
    | none => exact Nat.le_refl _
    | some step => exact Nat.le_refl _
  | drop i =>
    simp only [step]
    cases t.pending i with
    | none => exact Nat.le_refl _
    | some step => exact Nat.le_refl _

theorem issued_run (ops : List (TrackingOp V)) : ∀ t : Tracking V, t.issued ≤ (t.run ops).issued := by
  induction ops with
  | nil => exact fun t => Nat.le_refl _
  | cons op ops ih => exact fun t => (issued_step t op).trans (ih (t.step op))

/-- Setting a baseline leaves an entry under a new sequence, or none. -/
theorem replace_cases (s : SnapshotStore V) (row : RowKey) (origin : Origin) (values : Option V) :
    (s.replace row origin values).2.1 = s.baseline row origin ∧
    (((s.replace row origin values).1 = ((s.take row origin).1.insert row origin values).1 ∧
        (s.replace row origin values).2.2 = some s.nextSequence ∧ (values = none → s.baseline row origin ≠ none)) ∨
      ((s.replace row origin values).1 = (s.take row origin).1 ∧ (s.replace row origin values).2.2 = none)) := by
  have hseq : ((s.take row origin).1.insert row origin values).2 = s.nextSequence := SnapshotStore.nextSequence_take
  simp only [SnapshotStore.replace]
  split_ifs with hstands
  · refine ⟨SnapshotStore.take_snd, Or.inl ⟨rfl, congrArg some hseq, ?_⟩⟩
    rintro rfl hnone
    rw [SnapshotStore.take_none s row origin hnone] at hstands
    simp at hstands
  · exact ⟨SnapshotStore.take_snd, Or.inr ⟨rfl, rfl⟩⟩

theorem recorded_setBaseline (h : Inv cap t) (row : RowKey) (origin : Origin) (values : Option V)
    (hlimit : (t.step (.setBaseline row origin values)).issued ≤ sequenceLimit) :
    (∃ step, Recorded t (t.step (.setBaseline row origin values)) step) ∧
      Inv cap (t.step (.setBaseline row origin values)) := by
  obtain ⟨hprevious, hcases⟩ := replace_cases t.store row origin values
  have htake := RunInv.take h row origin
  have houtOf : outOf (t.steps ++ [some (.baseline ⟨row, origin, (t.store.replace row origin values).2.2,
      (t.store.replace row origin values).2.1⟩)]) = outOf t.steps ++ (t.store.take row origin).2.toList := by
    rw [hprevious, SnapshotStore.take_snd]
    simp [outOf, previousOf, BaselineUndo.changes]
  simp only [step] at hlimit ⊢
  rcases hcases with ⟨hstore, hstanding, htomb⟩ | ⟨hstore, hstanding⟩
  · rw [hstanding] at hlimit
    have hlt : t.issued < sequenceLimit := hlimit
    have hseq := RunInv.nextSequence_eq h hlt
    refine ⟨⟨_, rfl, ?_, ?_, ?_, ?_, by simp [BaselineUndo.changes], Or.inr ⟨_, rfl⟩⟩, ?_⟩
    · intro c hc
      obtain rfl := List.mem_singleton.1 hc
      exact hprevious
    · intro c hc seq hc'
      obtain rfl := List.mem_singleton.1 hc
      dsimp only at hc' ⊢
      rw [hstanding, hseq] at hc'
      obtain rfl := Option.some.inj hc'
      simp [hstanding]
    · intro c hc
      obtain rfl := List.mem_singleton.1 hc
      simp only [SnapshotStore.Stands, hstanding, hstore, hprevious, hseq]
      by_cases hroom : (t.store.take row origin).1.order.len < t.store.capacity
      · refine Or.inl ?_
        rw [SnapshotStore.insert_room hroom, if_pos ⟨rfl, rfl⟩, Option.map_some, hseq]
      · -- the row may leave at once, but only with a baseline that was not there before
        have hnone : t.store.baseline row origin = none := by
          by_contra hsome
          obtain ⟨entry, hentry⟩ := Option.ne_none_iff_exists'.1 hsome
          exact hroom ((SnapshotStore.len_take_lt h.indexed hentry).trans_le h.bounded)
        cases hleft : ((t.store.take row origin).1.insert row origin values).1.baseline row origin with
        | none => exact Or.inr ⟨by simp, rfl, hnone⟩
        | some e =>
          rcases SnapshotStore.baseline_put hleft with ⟨-, -, rfl⟩ | ⟨hsame, -⟩
          · refine Or.inl ?_
            rw [Option.map_some, SnapshotStore.nextSequence_take, hseq]
          · exact absurd ⟨rfl, rfl⟩ hsame
    · intro row' origin' e he
      rw [hstore] at he
      rcases SnapshotStore.baseline_put he with ⟨-, -, rfl⟩ | ⟨-, hold⟩
      · refine Or.inr ?_
        rw [SnapshotStore.nextSequence_take, hseq]
      · change (t.store.take row origin).1.baseline row' origin' = some e at hold
        rw [SnapshotStore.baseline_take] at hold
        split_ifs at hold
        exact Or.inl hold
    · rw [Inv, houtOf, hstore, hstanding]
      exact htake.insert hlt row origin values
  · refine ⟨⟨_, rfl, ?_, ?_, ?_, ?_, by simp [BaselineUndo.changes], Or.inr ⟨_, rfl⟩⟩, ?_⟩
    · intro c hc
      obtain rfl := List.mem_singleton.1 hc
      exact hprevious
    · intro c hc seq hc'
      obtain rfl := List.mem_singleton.1 hc
      dsimp only at hc'
      rw [hstanding] at hc'
      cases hc'
    · intro c hc
      obtain rfl := List.mem_singleton.1 hc
      refine Or.inl ?_
      simp only [SnapshotStore.Stands, hstanding, hstore]
      rw [SnapshotStore.baseline_take, if_pos ⟨rfl, rfl⟩]
      rfl
    · intro row' origin' e he
      rw [hstore, SnapshotStore.baseline_take] at he
      split_ifs at he
      exact Or.inl he
    · rw [Inv, houtOf, hstore, hstanding]
      exact htake

theorem recorded_invalidateModel (h : Inv cap t) (modelType : ℕ)
    (hlimit : (t.step (.invalidateModel modelType)).issued ≤ sequenceLimit) :
    (∃ step, Recorded t (t.step (.invalidateModel modelType)) step) ∧ Inv cap (t.step (.invalidateModel modelType)) := by
  simp only [step] at hlimit ⊢
  rw [SnapshotStore.length_invalidate] at hlimit
  obtain ⟨hinv, hend⟩ := RunInv.invalidate h hlimit (t.store.nodup_keysOf modelType) fun row origin => SnapshotStore.mem_keysOf
  refine ⟨⟨_, rfl, hinv.previous, ?_, ?_, ?_, ?_, Or.inl ?_⟩, ?_⟩
  · intro c hc seq hstanding
    rw [SnapshotStore.length_invalidate]
    exact hinv.fresh c hc seq hstanding
  · intro c hc
    obtain ⟨seq, hstanding, hleft⟩ := hinv.standing c hc
    refine Or.inl ?_
    rw [SnapshotStore.Stands, hleft, hstanding]
    rfl
  · intro row origin e he
    by_cases hkey : (row, origin) ∈ t.store.keysOf modelType
    · rw [← hinv.places] at hkey
      obtain ⟨c, hc, heq⟩ := List.mem_map.1 hkey
      obtain ⟨rfl, rfl⟩ := Prod.mk.inj heq
      obtain ⟨seq, hstanding, hleft⟩ := hinv.standing c hc
      obtain rfl := Option.some.inj (he.symm.trans hleft)
      exact Or.inr (hinv.fresh c hc seq hstanding).1
    · rw [hinv.others row origin hkey] at he
      exact Or.inl he
  · rw [BaselineUndo.changes, hinv.places]
    exact t.store.nodup_keysOf modelType
  · intro c hc
    obtain ⟨seq, hstanding, -⟩ := hinv.standing c hc
    rw [hstanding]
    exact Option.some_ne_none seq
  · rw [Inv, SnapshotStore.length_invalidate]
    have houtOf : outOf (t.steps ++ [some (.invalidated (t.store.invalidate (t.store.keysOf modelType)).2)]) =
        outOf t.steps ++ previousOf (t.store.invalidate (t.store.keysOf modelType)).2 := by
      simp [outOf, BaselineUndo.changes]
    rw [houtOf]
    exact hend

theorem inv_step (h : Inv cap t) (op : TrackingOp V) (hlimit : (t.step op).issued ≤ sequenceLimit) : Inv cap (t.step op) := by
  cases op with
  | setBaseline row origin values => exact (recorded_setBaseline h row origin values hlimit).2
  | invalidateModel modelType => exact (recorded_invalidateModel h modelType hlimit).2
  | clearAll => exact RunInv.clear h
  | undo i =>
    simp only [step]
    cases hstep : t.pending i with
    | none => exact h
    | some step => exact (inv_done h hstep).undoChanges
  | drop i =>
    simp only [step]
    cases hstep : t.pending i with
    | none => exact h
    | some step =>
      have hdone := (inv_done h hstep).sublist (List.sublist_append_right _ _)
      cases step with
      | baseline c => exact hdone
      | invalidated changes => exact hdone.dropTombstones

theorem inv_run (ops : List (TrackingOp V)) : ∀ {t : Tracking V}, Inv cap t → (t.run ops).issued ≤ sequenceLimit →
    Inv cap (t.run ops) := by
  induction ops with
  | nil => exact fun h _ => h
  | cons op ops ih => exact fun h hlimit => ih (inv_step h op ((issued_run ops _).trans hlimit)) hlimit

/-- A step of the run makes no entry under a sequence used before. -/
theorem holds_step (h : Inv cap t) (op : TrackingOp V) (hlimit : (t.step op).issued ≤ sequenceLimit) {e : SnapshotEntry V}
    (he : (t.step op).Holds row origin e) : t.Holds row origin e ∨ t.issued ≤ e.sequence := by
  cases op with
  | setBaseline row origin values =>
    obtain ⟨⟨step, hrecorded⟩, -⟩ := recorded_setBaseline h row origin values hlimit
    exact hrecorded.holds he
  | invalidateModel modelType =>
    obtain ⟨⟨step, hrecorded⟩, -⟩ := recorded_invalidateModel h modelType hlimit
    exact hrecorded.holds he
  | clearAll =>
    rcases he with he | hpending
    · simp [step, SnapshotStore.clear, SnapshotStore.baseline] at he
    · exact Or.inl (Or.inr hpending)
  | undo i =>
    refine Or.inl ?_
    simp only [step] at he
    cases hstep : t.pending i with
    | none =>
      rw [hstep] at he
      exact he
    | some step =>
      rw [hstep] at he
      rcases he with he | ⟨j, step', c, hj, hc⟩
      · rcases SnapshotStore.baseline_of_undoChanges step.changes he with hold | ⟨c, hc, hprevious⟩
        · exact Or.inl hold
        · exact Or.inr ⟨i, step, c, hstep, hc, hprevious⟩
      · exact Or.inr ⟨j, step', c, pending_set rfl hj, hc⟩
  | drop i =>
    refine Or.inl ?_
    simp only [step] at he
    cases hstep : t.pending i with
    | none =>
      rw [hstep] at he
      exact he
    | some step =>
      rw [hstep] at he
      rcases he with he | ⟨j, step', c, hj, hc⟩
      · cases step with
        | baseline c => exact Or.inl he
        | invalidated changes => exact Or.inl (SnapshotStore.baseline_of_dropTombstones changes he)
      · exact Or.inr ⟨j, step', c, pending_set rfl hj, hc⟩

theorem holds_run (ops : List (TrackingOp V)) : ∀ {t : Tracking V}, Inv cap t → (t.run ops).issued ≤ sequenceLimit →
    ∀ {e : SnapshotEntry V}, (t.run ops).Holds row origin e → t.Holds row origin e ∨ t.issued ≤ e.sequence := by
  induction ops with
  | nil => exact fun _ _ _ he => Or.inl he
  | cons op ops ih =>
    intro t h hlimit e he
    have hstep : (t.step op).issued ≤ sequenceLimit := (issued_run ops _).trans hlimit
    rcases ih (inv_step h op hstep) hlimit he with hold | hnew
    · exact holds_step h op hstep hold
    · exact Or.inr ((issued_step t op).trans hnew)

/-- A step is recorded by a baseline that is set, or a model that is invalidated. -/
theorem recorded_of_pending (h : Inv cap t) (op : TrackingOp V) (hlimit : (t.step op).issued ≤ sequenceLimit)
    {step : BaselineUndo V} (hstep : (t.step op).pending t.steps.length = some step) : Recorded t (t.step op) step := by
  have hsame : ∀ {step'}, Recorded t (t.step op) step' → Recorded t (t.step op) step := by
    intro step' hrecorded
    rcases pending_append hrecorded.steps hstep with hold | ⟨-, rfl⟩
    · rw [pending_none (Nat.le_refl _)] at hold
      cases hold
    · exact hrecorded
  have hshort : (t.step op).steps.length = t.steps.length → Recorded t (t.step op) step := by
    intro hlen
    rw [pending_none hlen.le] at hstep
    cases hstep
  cases op with
  | setBaseline row origin values =>
    obtain ⟨⟨step', hrecorded⟩, -⟩ := recorded_setBaseline h row origin values hlimit
    exact hsame hrecorded
  | invalidateModel modelType =>
    obtain ⟨⟨step', hrecorded⟩, -⟩ := recorded_invalidateModel h modelType hlimit
    exact hsame hrecorded
  | clearAll => exact hshort rfl
  | undo i =>
    refine hshort ?_
    simp only [Tracking.step]
    cases t.pending i <;> simp
  | drop i =>
    refine hshort ?_
    simp only [Tracking.step]
    cases t.pending i <;> simp

/-- The entry a step left is known by its sequence ever after. -/
theorem Recorded.not_stands {t₀ t₁ : Tracking V} {step : BaselineUndo V} (h : Recorded t₀ t₁ step) (h₀ : Inv cap t₀)
    (h₁ : Inv cap t₁) {after : List (TrackingOp V)} (hlimit : (t₁.run after).issued ≤ sequenceLimit) {c : BaselineChange V}
    (hc : c ∈ step.changes)
    (hne : (t₁.run after).store.baseline c.row c.origin ≠ t₁.store.baseline c.row c.origin) :
    ¬(t₁.run after).store.Stands c := by
  intro hstands
  cases hnow : (t₁.run after).store.baseline c.row c.origin with
  | none =>
    rw [SnapshotStore.Stands, hnow, Option.map_none] at hstands
    rcases h.left c hc with hleft | ⟨hstanding, -⟩
    · rw [SnapshotStore.Stands, ← hstands, Option.map_eq_none_iff] at hleft
      exact hne (hnow.trans hleft.symm)
    · exact hstanding hstands.symm
  | some e =>
    rw [SnapshotStore.Stands, hnow, Option.map_some] at hstands
    obtain ⟨hle, hlt⟩ := h.standing c hc e.sequence hstands.symm
    rcases holds_run after h₁ hlimit (Or.inl hnow) with (hleft | ⟨i, step', c', hi, hc', hrow, horigin, hprevious⟩) | hnew
    · exact hne (hnow.trans hleft.symm)
    · have hold : t₀.Holds c.row c.origin e := by
        rcases pending_append h.steps hi with hold | ⟨-, rfl⟩
        · exact Or.inr ⟨i, step', c', hold, hc', hrow, horigin, hprevious⟩
        · rw [← hrow, ← horigin]
          exact Or.inl ((h.previous c' hc').symm.trans hprevious)
      exact absurd (hold.lt h₀) (by omega)
    · omega

/-- What running a step leaves. -/
theorem Recorded.undone {t₀ t₁ t₂ : Tracking V} {step : BaselineUndo V} (h : Recorded t₀ t₁ step) (h₂ : Inv cap t₂) {i : ℕ}
    (hi : t₂.pending i = some step) :
    (∀ c ∈ step.changes, ¬t₂.store.Stands c →
      (t₂.step (.undo i)).store.baseline c.row c.origin = t₂.store.baseline c.row c.origin) ∧
    (∀ c ∈ step.changes, t₂.store.Fits c → t₂.store.Stands c →
      (t₂.step (.undo i)).store.baseline c.row c.origin = c.previous) ∧
    ((∀ c ∈ step.changes, t₂.store.Fits c) → ∀ row origin, (∀ c ∈ step.changes, ¬(row = c.row ∧ origin = c.origin)) →
      (t₂.step (.undo i)).store.baseline row origin = t₂.store.baseline row origin) := by
  have hrun := inv_done h₂ hi
  simp only [Tracking.step, hi]
  rcases h.alone with hstanding | ⟨c, hchanges⟩
  · obtain ⟨hundone, hothers⟩ := hrun.baseline_undoChanges h.places hstanding
    refine ⟨fun c hc hstands => ?_, fun c hc _ hstands => ?_, fun _ row origin hother => ?_⟩
    · rw [hundone c hc, if_neg hstands]
    · rw [hundone c hc, if_pos hstands]
    · refine hothers row origin fun hmem => ?_
      obtain ⟨c, hc, heq⟩ := List.mem_map.1 hmem
      exact hother c hc ⟨(Prod.mk.inj heq).1.symm, (Prod.mk.inj heq).2.symm⟩
  · simp only [hchanges, List.mem_singleton, forall_eq, List.foldl_cons, List.foldl_nil]
    refine ⟨fun hstands => ?_, fun hfits hstands => ?_, fun hfits row origin hother => ?_⟩
    · rw [SnapshotStore.undoChange_of_not_stands hstands]
    · rw [SnapshotStore.baseline_undoChange hrun.indexed hrun.bounded hfits, if_pos ⟨⟨rfl, rfl⟩, hstands⟩]
    · rw [SnapshotStore.baseline_undoChange hrun.indexed hrun.bounded hfits, if_neg fun h => hother h.1]

theorem run_append (t : Tracking V) (ops ops' : List (TrackingOp V)) : t.run (ops ++ ops') = (t.run ops).run ops' :=
  List.foldl_append

end Step

end Tracking

section Rollback

variable [DecidableEq V]

/-- In a run that gives out no sequence twice, let `op` record a step that is still pending
after the run. The step puts back what `op` replaced when the entry is the one `op` left, if
`op` left none because none was there ever since, and there is room for it; it leaves the entry
as it is when that is another than `op` left, and every other entry. A baseline that `op`
drops with all others does not come back. -/
theorem rollback_undoes_its_change (capacity : ℕ) (before after : List (TrackingOp V)) (op : TrackingOp V)
    (hlimit : ((Tracking.new capacity).run (before ++ op :: after)).issued ≤ sequenceLimit) :
    let t₀ := (Tracking.new capacity).run before
    let t₁ := t₀.step op
    let t₂ := t₁.run after
    let t₃ := t₂.step (.undo t₀.steps.length)
    (∀ step, t₁.pending t₀.steps.length = some step → t₂.pending t₀.steps.length = some step →
      (∀ c ∈ step.changes,
        let left := t₁.store.baseline c.row c.origin
        let now := t₂.store.baseline c.row c.origin
        let previous := t₀.store.baseline c.row c.origin
        (now ≠ left → t₃.store.baseline c.row c.origin = now) ∧
        (now = left →
          (left = none → (∀ mid, mid <+: after → (t₁.run mid).store.baseline c.row c.origin = none) ∧
            (previous = none ∨ t₂.store.order.len < t₂.store.capacity)) →
          t₃.store.baseline c.row c.origin = previous)) ∧
      ((∀ c ∈ step.changes, t₁.store.baseline c.row c.origin = none →
          t₀.store.baseline c.row c.origin = none ∨ t₂.store.order.len < t₂.store.capacity) →
        ∀ row origin, (∀ c ∈ step.changes, ¬(row = c.row ∧ origin = c.origin)) →
          t₃.store.baseline row origin = t₂.store.baseline row origin)) ∧
    (op = .clearAll → ∀ row origin entry, t₀.store.baseline row origin = some entry →
      ∀ row' origin', t₂.store.baseline row' origin' ≠ some entry) := by
  intro t₀ t₁ t₂ t₃
  have hrun : (Tracking.new capacity).run (before ++ op :: after) = t₂ := Tracking.run_append _ _ _
  rw [hrun] at hlimit
  have hlimit₁ : t₁.issued ≤ sequenceLimit := (Tracking.issued_run after t₁).trans hlimit
  have hlimit₀ : t₀.issued ≤ sequenceLimit := (Tracking.issued_step t₀ op).trans hlimit₁
  have h₀ : t₀.Inv (max capacity 1) := Tracking.inv_run before (Tracking.inv_new capacity) hlimit₀
  have h₁ : t₁.Inv (max capacity 1) := Tracking.inv_step h₀ op hlimit₁
  have h₂ : t₂.Inv (max capacity 1) := Tracking.inv_run after h₁ hlimit
  refine ⟨fun step hstep₁ hstep₂ => ?_, ?_⟩
  · have hrecorded := Tracking.recorded_of_pending h₀ op hlimit₁ hstep₁
    obtain ⟨hkept, hundone, hothers⟩ := hrecorded.undone h₂ hstep₂
    -- a step that left an entry finds room for the one it puts back
    have hfits : ∀ c ∈ step.changes, (t₁.store.baseline c.row c.origin = none →
        t₀.store.baseline c.row c.origin = none ∨ t₂.store.order.len < t₂.store.capacity) → t₂.store.Fits c := by
      intro c hc hroom
      cases hstanding : c.standing with
      | some seq => exact Or.inl (by rw [hstanding]; exact Option.some_ne_none seq)
      | none =>
        rcases hrecorded.left c hc with hleft | ⟨hsome, -⟩
        · rw [SnapshotStore.Stands, hstanding, Option.map_eq_none_iff] at hleft
          rcases hroom hleft with hnone | hless
          · exact Or.inr (Or.inl ((hrecorded.previous c hc).trans hnone))
          · exact Or.inr (Or.inr hless)
        · exact absurd hstanding hsome
    refine ⟨fun c hc => ?_, fun hroom => hothers fun c hc => hfits c hc (hroom c hc)⟩
    intro left now previous
    refine ⟨fun hne => hkept c hc (hrecorded.not_stands h₀ h₁ hlimit hc hne), fun heq huntouched => ?_⟩
    have hprevious : c.previous = previous := hrecorded.previous c hc
    have hstands : t₁.store.Stands c → t₂.store.Stands c := fun h => (congrArg (Option.map _) heq).trans h
    rcases hrecorded.left c hc with hleft | ⟨hsome, hnone, hempty⟩
    · rw [← hprevious]
      exact hundone c hc (hfits c hc fun hnone => (huntouched hnone).2) (hstands hleft)
    · -- the row left the store as it was remembered
      have hgone : now = none := heq.trans hnone
      rw [← hprevious, hempty, ← hgone]
      refine hkept c hc fun hstands => hsome ?_
      rw [← hstands, Option.map_eq_none_iff]
      exact hgone
  · rintro rfl row origin entry hentry row' origin' hback
    have hlt : entry.sequence < t₀.issued := Tracking.Holds.lt h₀ (Or.inl hentry)
    rcases Tracking.holds_run after h₁ hlimit (Or.inl hback) with (hcleared | ⟨i, step, c, hi, hc, -, -, hprevious⟩) | hnew
    · simp [t₁, Tracking.step, SnapshotStore.clear, SnapshotStore.baseline] at hcleared
    · have hout := (h₀.out entry (Tracking.mem_outOf (t := t₀) hi hc hprevious)).2
      rw [h₀.indexed.lookup hentry] at hout
      cases hout
    · exact absurd hlt (Nat.not_lt.2 hnew)

/-- A remembered row is read again in a transaction, and so is another row; the first read is undone. -/
theorem rollback_second_read :
    let t₂ : Tracking ℕ := (Tracking.new 10).run ([.setBaseline firstRow none (some 7)] ++
      .setBaseline firstRow none (some 8) :: [.setBaseline secondRow none (some 9)])
    t₂.issued ≤ sequenceLimit ∧ (t₂.step (.undo 1)).store.baseline firstRow none = some ⟨0, some 7⟩ := by
  intro t₂
  have hlimit : t₂.issued ≤ sequenceLimit := by
    show 3 ≤ sequenceLimit
    simp [sequenceLimit]
  refine ⟨hlimit, ?_⟩
  obtain ⟨hsteps, -⟩ := rollback_undoes_its_change 10 [.setBaseline firstRow none (some 7)]
    [.setBaseline secondRow none (some 9)] (.setBaseline firstRow none (some 8)) hlimit
  have hchange := (hsteps (.baseline ⟨firstRow, none, some 1, some ⟨0, some 7⟩⟩) rfl rfl).1 _ (List.mem_singleton_self _)
  exact hchange.2 rfl fun hnone => by cases hnone

/-- With one place, a row is forgotten in a transaction and another remembered: the row that is
put back is the oldest and leaves at once, though nothing changed its entry since. -/
theorem rollback_without_room :
    let t₁ : Tracking ℕ := (Tracking.new 1).run [.setBaseline firstRow none (some 7), .setBaseline firstRow none none]
    let t₂ := t₁.step (.setBaseline secondRow none (some 8))
    t₁.pending 1 = some (.baseline ⟨firstRow, none, none, some ⟨0, some 7⟩⟩) ∧ t₂.pending 1 = t₁.pending 1 ∧
      t₁.store.baseline firstRow none = none ∧ t₂.store.baseline firstRow none = none ∧
      (t₂.step (.undo 1)).store.baseline firstRow none = none := ⟨rfl, rfl, rfl, rfl, rfl⟩

end Rollback

end TideOrm
