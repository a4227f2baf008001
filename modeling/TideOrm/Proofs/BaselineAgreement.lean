import TideOrm.Sanity.DirtyTracking
import Mathlib.Data.List.Induction

/-! Whose values a row's baseline is. A pool that forgets its baseline leaves a tombstone
only while another pool holds a different one, so what it remembered is lost to the row
when the pools agree at that moment. -/

namespace TideOrm

open Lib

variable {V : Type} [DecidableEq V] {s : SnapshotStore V} {row : RowKey}

namespace SnapshotStore

omit [DecidableEq V] in
theorem mem_baselines {baselines : HashMap Origin (SnapshotEntry V)} (hrow : s.entries.lookup row = some baselines)
    {origin : Origin} {entry : SnapshotEntry V} :
    (⟨origin, entry⟩ : (_ : Origin) × SnapshotEntry V) ∈ baselines.entries ↔ s.baseline row origin = some entry := by
  rw [AList.mem_entries_iff, baseline, hrow, Option.bind_some]

/-- A row has a baseline when every pool holds the same values. -/
theorem get_eq_some {values : V} : s.get row = some values ↔
    (∃ origin entry, s.baseline row origin = some entry) ∧
      ∀ origin entry, s.baseline row origin = some entry → entry.values = some values := by
  cases hrow : s.entries.lookup row with
  | none =>
    refine iff_of_false (by simp [get, hrow]) ?_
    rintro ⟨⟨origin, entry, hentry⟩, -⟩
    simp [baseline, hrow] at hentry
  | some baselines =>
    have hall : (∀ origin entry, s.baseline row origin = some entry → entry.values = some values) ↔
        ∀ x ∈ baselines.entries.map fun e => e.2.values, x = some values := by
      constructor
      · intro h x hx
        obtain ⟨⟨origin, entry⟩, hentry, rfl⟩ := List.mem_map.1 hx
        exact h origin entry ((mem_baselines hrow).1 hentry)
      · intro h origin entry hentry
        exact h entry.values (List.mem_map.2 ⟨⟨origin, entry⟩, (mem_baselines hrow).2 hentry, rfl⟩)
    have hsome : (∃ origin entry, s.baseline row origin = some entry) ↔
        (baselines.entries.map fun e => e.2.values) ≠ [] := by
      constructor
      · rintro ⟨origin, entry, hentry⟩
        exact List.ne_nil_of_mem (List.mem_map.2 ⟨⟨origin, entry⟩, (mem_baselines hrow).2 hentry, rfl⟩)
      · intro hne
        obtain ⟨x, hx⟩ := List.exists_mem_of_ne_nil _ hne
        obtain ⟨⟨origin, entry⟩, hentry, -⟩ := List.mem_map.1 hx
        exact ⟨origin, entry, (mem_baselines hrow).1 hentry⟩
    rw [hall, hsome]
    simp only [get, hrow]
    cases hlist : baselines.entries.map fun e => e.2.values with
    | nil => simp
    | cons first others =>
      cases first with
      | none => simp
      | some first =>
        simp only [ne_eq, reduceCtorEq, not_false_eq_true, true_and, List.mem_cons, forall_eq_or_imp,
          Option.some.injEq, Option.ite_none_right_eq_some, List.all_eq_true, beq_iff_eq]
        constructor
        · rintro ⟨hothers, rfl⟩
          exact ⟨rfl, hothers⟩
        · rintro ⟨rfl, hothers⟩
          exact ⟨hothers, rfl⟩

/-- Setting a pool's baseline of the row evicts nothing: there is room for the entry it leaves, if any. -/
def Room (s : SnapshotStore V) (row : RowKey) (origin : Origin) (values : Option V) : Prop :=
  (s.replace row origin values).2.2.isSome = true → (s.take row origin).1.order.len < s.capacity

/-- What remembering a row's values leaves. -/
theorem replace_some {origin : Origin} {values : V} (h : s.Room row origin (some values)) (origin' : Origin) :
    (s.replace row origin (some values)).1.baseline row origin' =
      if origin' = origin then some ⟨s.nextSequence, some values⟩ else s.baseline row origin' := by
  have hinsert := insert_room (h (by simp [replace])) (some values) row origin'
  simp only [true_and] at hinsert
  simp only [replace, Option.isSome_some, Bool.true_or, if_true]
  exact hinsert

/-- A pool's baseline of the row is not the one another pool holds. -/
def Disagrees (s : SnapshotStore V) (row : RowKey) (origin : Origin) (entry : SnapshotEntry V) : Prop :=
  ∃ origin' other, origin' ≠ origin ∧ s.baseline row origin' = some other ∧
    (entry.values = none ∨ other.values ≠ entry.values)

theorem disagrees_iff {origin : Origin} {entry : SnapshotEntry V} (hentry : s.baseline row origin = some entry) :
    (((s.take row origin).2.any fun previous => ((s.take row origin).1.entries.lookup row).any fun others =>
      others.entries.any fun other => previous.values.isNone || other.2.values != previous.values) = true) ↔
      s.Disagrees row origin entry := by
  rw [take_snd, hentry, Option.any_some]
  have hother : ∀ origin' other, (s.take row origin).1.baseline row origin' = some other ↔
      origin' ≠ origin ∧ s.baseline row origin' = some other := by
    intro origin' other
    rw [baseline_take]
    by_cases hsame : origin' = origin
    · simp [hsame]
    · simp [hsame]
  cases hrow : (s.take row origin).1.entries.lookup row with
  | none =>
    refine iff_of_false (by simp) ?_
    rintro ⟨origin', other, hne, hbaseline, -⟩
    have := (hother origin' other).2 ⟨hne, hbaseline⟩
    simp [baseline, hrow] at this
  | some others =>
    rw [Option.any_some, List.any_eq_true]
    constructor
    · rintro ⟨⟨origin', other⟩, hmem, hdiffers⟩
      obtain ⟨hne, hbaseline⟩ := (hother origin' other).1 ((mem_baselines hrow).1 hmem)
      exact ⟨origin', other, hne, hbaseline, by simpa using hdiffers⟩
    · rintro ⟨origin', other, hne, hbaseline, hdiffers⟩
      exact ⟨⟨origin', other⟩, (mem_baselines hrow).2 ((hother origin' other).2 ⟨hne, hbaseline⟩), by simpa using hdiffers⟩

/-- What forgetting a pool's baseline leaves: a tombstone while another pool's differs. -/
theorem replace_none {origin : Origin} (h : s.Room row origin none) (origin' : Origin) :
    (s.baseline row origin = none ∧ (s.replace row origin none).1.baseline row origin' = s.baseline row origin') ∨
    (∃ entry, s.baseline row origin = some entry ∧ s.Disagrees row origin entry ∧
      (s.replace row origin none).1.baseline row origin' =
        if origin' = origin then some ⟨s.nextSequence, none⟩ else s.baseline row origin') ∨
    ∃ entry, s.baseline row origin = some entry ∧ ¬s.Disagrees row origin entry ∧
      (s.replace row origin none).1.baseline row origin' =
        if origin' = origin then none else s.baseline row origin' := by
  cases hentry : s.baseline row origin with
  | none =>
    refine Or.inl ⟨rfl, ?_⟩
    simp only [replace, take_none s row origin hentry, Option.any_none, Option.isSome_none, Bool.or_self,
      Bool.false_eq_true, if_false]
  | some entry =>
    refine Or.inr ?_
    by_cases hdiffers : s.Disagrees row origin entry
    · refine Or.inl ⟨entry, rfl, hdiffers, ?_⟩
      have hroom := h (by simp only [replace, (disagrees_iff hentry).2 hdiffers, Bool.or_true, if_true, Option.isSome_some])
      have hinsert := insert_room hroom none row origin'
      simp only [true_and] at hinsert
      simp only [replace, (disagrees_iff hentry).2 hdiffers, Bool.or_true, if_true]
      exact hinsert
    · refine Or.inr ⟨entry, rfl, hdiffers, ?_⟩
      have hagrees := mt (disagrees_iff hentry).1 hdiffers
      simp only [replace, Bool.not_eq_true _ ▸ hagrees, Option.isSome_none, Bool.or_self, Bool.false_eq_true, if_false]
      rw [baseline_take]
      simp

end SnapshotStore

section Pools

/-- The baseline of the row is what every pool that remembered it remembered last. -/
def PoolsAgree (s : SnapshotStore V) (row : RowKey) (last : Origin → Option V) : Prop :=
  ∀ values, s.get row = some values → ∀ origin value, last origin = some value → value = values

/-- A pool remembers what all other baselines of the row hold, while a pool without one
remembered something else. -/
def Conflicts (s : SnapshotStore V) (row : RowKey) (last : Origin → Option V) : PoolOp V → Prop
  | .remember origin values =>
    (∀ other entry, other ≠ origin → s.baseline row other = some entry → entry.values = some values) ∧
      ∃ other value, other ≠ origin ∧ s.baseline row other = none ∧ last other = some value ∧ value ≠ values
  | .forget _ => False

/-- A baseline holds what its pool remembered last. -/
def HoldsLast (s : SnapshotStore V) (row : RowKey) (last : Origin → Option V) : Prop :=
  ∀ origin entry values, s.baseline row origin = some entry → entry.values = some values → last origin = some values

variable {last : Origin → Option V}

theorem holdsLast_apply (h : HoldsLast s row last) (op : PoolOp V) (hroom : s.Room row op.origin op.values) :
    HoldsLast (op.apply row s) row (op.noteLast last) := by
  intro origin' entry' values' hentry' hvalues'
  cases op with
  | remember origin values =>
    simp only [PoolOp.apply, PoolOp.origin, PoolOp.values, PoolOp.noteLast] at hentry' hroom ⊢
    rw [SnapshotStore.replace_some hroom] at hentry'
    split_ifs at hentry' with hsame
    · obtain rfl := Option.some.inj hentry'
      obtain rfl := Option.some.inj hvalues'
      rw [hsame, Function.update_self]
    · rw [Function.update_of_ne hsame]
      exact h origin' entry' values' hentry' hvalues'
  | forget origin =>
    simp only [PoolOp.apply, PoolOp.origin, PoolOp.values, PoolOp.noteLast] at hentry' hroom ⊢
    rcases SnapshotStore.replace_none hroom origin' with ⟨-, hsame⟩ | ⟨entry, -, -, htomb⟩ | ⟨entry, -, -, hgone⟩
    · rw [hsame] at hentry'
      exact h origin' entry' values' hentry' hvalues'
    · rw [htomb] at hentry'
      split_ifs at hentry'
      · obtain rfl := Option.some.inj hentry'
        cases hvalues'
      · exact h origin' entry' values' hentry' hvalues'
    · rw [hgone] at hentry'
      split_ifs at hentry'
      exact h origin' entry' values' hentry' hvalues'

/-- A step keeps the pools in agreement unless it conflicts. -/
theorem poolsAgree_apply (h : HoldsLast s row last) (hagrees : PoolsAgree s row last) {op : PoolOp V}
    (hroom : s.Room row op.origin op.values) (hop : ¬Conflicts s row last op) : PoolsAgree (op.apply row s) row (op.noteLast last) := by
  intro values' hget origin' value hlast
  obtain ⟨⟨some_origin, some_entry, hsome⟩, hall⟩ := SnapshotStore.get_eq_some.1 hget
  cases op with
  | remember origin values =>
    simp only [PoolOp.apply, PoolOp.origin, PoolOp.values, PoolOp.noteLast] at hall hroom hlast
    simp only [SnapshotStore.replace_some hroom] at hall
    obtain rfl : values = values' := by
      have := hall origin _ (if_pos rfl)
      simpa using this
    have hothers : ∀ other entry, other ≠ origin → s.baseline row other = some entry → entry.values = some values :=
      fun other entry hne hentry => hall other entry ((if_neg hne).trans hentry)
    by_cases hsame : origin' = origin
    · rw [hsame, Function.update_self] at hlast
      exact (Option.some.inj hlast).symm
    · rw [Function.update_of_ne hsame] at hlast
      cases hentry : s.baseline row origin' with
      | none =>
        by_contra hne
        exact hop ⟨hothers, origin', value, hsame, hentry, hlast, hne⟩
      | some entry =>
        have := h origin' entry values hentry (hothers origin' entry hsame hentry)
        exact Option.some.inj (hlast.symm.trans this)
  | forget origin =>
    simp only [PoolOp.apply, PoolOp.origin, PoolOp.values, PoolOp.noteLast] at hall hroom hlast hsome
    refine hagrees values' (SnapshotStore.get_eq_some.2 ?_) origin' value hlast
    rcases SnapshotStore.replace_none hroom origin with ⟨hnone, -⟩ | ⟨entry, -, -, htomb⟩ | ⟨entry, hentry, hsame, -⟩
    · -- nothing was forgotten
      have hkept : ∀ other, (s.replace row origin none).1.baseline row other = s.baseline row other := by
        intro other
        rcases SnapshotStore.replace_none hroom other with ⟨-, hkept⟩ | ⟨entry, hentry, -⟩ | ⟨entry, hentry, -⟩
        · exact hkept
        · rw [hnone] at hentry
          cases hentry
        · rw [hnone] at hentry
          cases hentry
      simp only [hkept] at hall hsome
      exact ⟨⟨some_origin, some_entry, hsome⟩, hall⟩
    · -- a tombstone is no one's baseline
      rw [if_pos rfl] at htomb
      have := hall origin _ htomb
      cases this
    · -- the pools that are left agree with the one that forgot
      have hkept : ∀ other, (s.replace row origin none).1.baseline row other =
          if other = origin then none else s.baseline row other := by
        intro other
        rcases SnapshotStore.replace_none hroom other with ⟨hnone, -⟩ | ⟨entry', hentry', hdiffers, -⟩ | ⟨_, -, -, hgone⟩
        · rw [hnone] at hentry
          cases hentry
        · obtain rfl := Option.some.inj (hentry.symm.trans hentry')
          exact absurd hdiffers hsame
        · exact hgone
      simp only [hkept] at hall hsome
      split_ifs at hsome with horigin
      have hvalues := hall some_origin some_entry ((if_neg horigin).trans hsome)
      have hown : entry.values = some values' := by
        by_contra hne
        exact hsame ⟨some_origin, some_entry, horigin, hsome, Or.inr fun heq => hne (heq.symm.trans hvalues)⟩
      refine ⟨⟨origin, entry, hentry⟩, fun other other_entry hother => ?_⟩
      by_cases hother' : other = origin
      · rw [hother', hentry] at hother
        obtain rfl := Option.some.inj hother
        exact hown
      · exact hall other other_entry ((if_neg hother').trans hother)

/-- A step that conflicts leaves the row with a baseline that another pool did not remember. -/
theorem not_poolsAgree_of_conflicts {op : PoolOp V} (hroom : s.Room row op.origin op.values) (hop : Conflicts s row last op) :
    ¬PoolsAgree (op.apply row s) row (op.noteLast last) := by
  cases op with
  | forget origin => exact hop.elim
  | remember origin values =>
    obtain ⟨hothers, other, value, hne, -, hlast, hvalue⟩ := hop
    intro hagrees
    simp only [PoolOp.origin, PoolOp.values] at hroom
    have hget : (PoolOp.apply row s (.remember origin values)).get row = some values := by
      refine SnapshotStore.get_eq_some.2 ⟨⟨origin, ⟨s.nextSequence, some values⟩, ?_⟩, fun origin' entry hentry => ?_⟩
      · exact (SnapshotStore.replace_some hroom origin).trans (if_pos rfl)
      · rw [PoolOp.apply, PoolOp.origin, PoolOp.values, SnapshotStore.replace_some hroom] at hentry
        split_ifs at hentry with hsame
        · obtain rfl := Option.some.inj hentry
          rfl
        · exact hothers origin' entry hsame hentry
    refine hvalue (hagrees values hget other value ?_)
    rw [PoolOp.noteLast, Function.update_of_ne hne]
    exact hlast

/-- Every step of the run finds room. -/
def Roomy (row : RowKey) (s : SnapshotStore V) (ops : List (PoolOp V)) : Prop :=
  ∀ before op after, ops = before ++ op :: after → (PoolOp.run row s before).Room row op.origin op.values

theorem Roomy.tail {op : PoolOp V} {ops : List (PoolOp V)} (h : Roomy row s (op :: ops)) :
    Roomy row (op.apply row s) ops := fun before op' after heq => h (op :: before) op' after (by rw [heq]; rfl)

theorem roomy_cons {op : PoolOp V} {ops : List (PoolOp V)} (hroom : s.Room row op.origin op.values)
    (h : Roomy row (op.apply row s) ops) : Roomy row s (op :: ops) := by
  intro before op' after heq
  cases before with
  | nil =>
    obtain ⟨rfl, rfl⟩ := List.cons.inj heq
    exact hroom
  | cons first before =>
    obtain ⟨rfl, rfl⟩ := List.cons.inj heq
    exact h before op' after rfl

theorem roomy_nil : Roomy row s [] := by
  intro before op after heq
  simp at heq

theorem poolsAgree_iff {ops : List (PoolOp V)} : ∀ {s : SnapshotStore V} {last : Origin → Option V}, HoldsLast s row last →
    PoolsAgree s row last → Roomy row s ops →
    ((∀ before, before <+: ops → PoolsAgree (PoolOp.run row s before) row (before.foldl PoolOp.noteLast last)) ↔
      ∀ before op after, ops = before ++ op :: after →
        ¬Conflicts (PoolOp.run row s before) row (before.foldl PoolOp.noteLast last) op) := by
  induction ops with
  | nil =>
    intro s last _ hagrees _
    refine iff_of_true (fun before hbefore => ?_) (by simp)
    obtain rfl := List.prefix_nil.1 hbefore
    exact hagrees
  | cons op ops ih =>
    intro s last h hagrees hroomy
    have hroom : s.Room row op.origin op.values := hroomy [] op ops rfl
    constructor
    · intro hall before op' after heq
      cases before with
      | nil =>
        obtain ⟨rfl, rfl⟩ := List.cons.inj heq
        intro hop
        exact not_poolsAgree_of_conflicts hroom hop (hall [op] ⟨ops, rfl⟩)
      | cons first before =>
        obtain ⟨rfl, rfl⟩ := List.cons.inj heq
        have hfirst : PoolsAgree (op.apply row s) row (op.noteLast last) := hall [op] ⟨_, rfl⟩
        exact (ih (holdsLast_apply h op hroom) hfirst hroomy.tail).1
          (fun before' hbefore' => hall (op :: before') (List.prefix_cons_inj op |>.2 hbefore')) before op' after rfl
    · intro hall before hbefore
      cases before with
      | nil => exact hagrees
      | cons first before =>
        obtain ⟨rfl, hrest⟩ := List.cons_prefix_cons.1 hbefore
        have hfirst := poolsAgree_apply h hagrees hroom (hall [] first ops rfl)
        exact (ih (holdsLast_apply h first hroom) hfirst hroomy.tail).2
          (fun before' op' after heq => hall (first :: before') op' after (by rw [heq]; rfl)) before hrest

/-- In a run without evictions, the baseline of the row is at every time what each pool that
has remembered it remembered last, exactly when no step conflicts. -/
theorem baseline_of_every_pool (capacity : ℕ) (row : RowKey) (ops : List (PoolOp V))
    (hroomy : Roomy row (SnapshotStore.new capacity) ops) :
    (∀ before, before <+: ops →
      PoolsAgree (PoolOp.run row (SnapshotStore.new capacity) before) row (PoolOp.lastRemembered before)) ↔
    ∀ before op after, ops = before ++ op :: after →
      ¬Conflicts (PoolOp.run row (SnapshotStore.new capacity) before) row (PoolOp.lastRemembered before) op := by
  refine poolsAgree_iff ?_ ?_ hroomy
  · intro origin entry values hentry
    simp [SnapshotStore.new, SnapshotStore.baseline] at hentry
  · intro values hget
    simp [SnapshotStore.new, SnapshotStore.get] at hget

omit [DecidableEq V] in
theorem mem_of_lastRemembered {ops : List (PoolOp V)} {origin : Origin} {value : V}
    (h : PoolOp.lastRemembered ops origin = some value) : .remember origin value ∈ ops := by
  induction ops using List.reverseRecOn with
  | nil => cases h
  | append_singleton ops op ih =>
    simp only [PoolOp.lastRemembered, List.foldl_append, List.foldl_cons, List.foldl_nil] at h ih
    cases op with
    | forget _ => exact List.mem_append_left _ (ih h)
    | remember origin' values =>
      by_cases hsame : origin = origin'
      · rw [PoolOp.noteLast, hsame, Function.update_self] at h
        obtain rfl := Option.some.inj h
        simp [hsame]
      · rw [PoolOp.noteLast, Function.update_of_ne hsame] at h
        exact List.mem_append_left _ (ih h)

/-- The first pool forgets while both agree, which leaves nothing of it behind. -/
def agreedThenForgot : List (PoolOp ℕ) :=
  [.remember (some 1) 7, .remember (some 2) 7, .forget (some 1)]

theorem agreedThenForgot_roomy (op : PoolOp ℕ) (hop : op.origin = some 2) :
    Roomy (0, "1") (SnapshotStore.new 10000) (agreedThenForgot ++ [op]) := by
  refine roomy_cons (fun _ => by decide) (roomy_cons (fun _ => by decide) (roomy_cons (fun _ => by decide)
    (roomy_cons (fun _ => ?_) roomy_nil)))
  rw [hop]
  decide

theorem baseline_of_agreeing_pools :
    Roomy (0, "1") (SnapshotStore.new 10000) (agreedThenForgot ++ [.remember (some 2) 7]) ∧
    PoolsAgree (PoolOp.run (0, "1") (SnapshotStore.new 10000) (agreedThenForgot ++ [.remember (some 2) 7])) (0, "1")
      (PoolOp.lastRemembered (agreedThenForgot ++ [.remember (some 2) 7])) := by
  have hroomy := agreedThenForgot_roomy (.remember (some 2) 7) rfl
  refine ⟨hroomy, (baseline_of_every_pool 10000 (0, "1") _ hroomy).2 ?_ _ (List.prefix_refl _)⟩
  intro before op after heq
  cases op with
  | forget _ => exact id
  | remember origin values =>
    rintro ⟨-, other, value, -, -, hvalue, hne⟩
    -- every pool remembers the same values
    have hseven : ∀ origin values, .remember origin values ∈ agreedThenForgot ++ [.remember (some 2) 7] → values = 7 := by
      intro origin values
      simp only [agreedThenForgot, List.cons_append, List.nil_append, List.mem_cons, PoolOp.remember.injEq, reduceCtorEq,
        List.not_mem_nil, or_false, false_or]
      omega
    rw [heq] at hseven
    have hother := hseven other value (List.mem_append_left _ (mem_of_lastRemembered hvalue))
    exact hne (hother.trans (hseven origin values (by simp)).symm)

/-- The second pool then remembers a newer row, and its values become the key's. -/
theorem baseline_of_another_pool :
    Roomy (0, "1") (SnapshotStore.new 10000) (agreedThenForgot ++ [.remember (some 2) 8]) ∧
    ¬PoolsAgree (PoolOp.run (0, "1") (SnapshotStore.new 10000) (agreedThenForgot ++ [.remember (some 2) 8])) (0, "1")
      (PoolOp.lastRemembered (agreedThenForgot ++ [.remember (some 2) 8])) := by
  refine ⟨agreedThenForgot_roomy _ rfl, fun h => ?_⟩
  have := h 8 (by decide) (some 1) 7 (by decide)
  cases this

end Pools

end TideOrm
