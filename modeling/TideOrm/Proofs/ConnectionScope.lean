import TideOrm.Spec.ConnectionScope

/-! A pool's identity is its own for good, though addresses are used again; and a statement runs in the scopes its code is written in,
whichever threads poll it and whatever else they poll. -/

namespace TideOrm

open Lib

namespace PoolRegistry

variable {r : PoolRegistry} {skip : ℕ}

/-- What is tracked is true of the pools there are. `skip` is a pool that is yet to be given the identity it shares. -/
structure Tracked (r : PoolRegistry) (skip : ℕ) : Prop where
  pool_lt : ∀ a p, r.pools.lookup a = some p → p < r.opened
  pool_once : ∀ a b p, r.pools.lookup a = some p → r.pools.lookup b = some p → a = b
  original_new : ∀ p, r.opened ≤ p → r.original p = p
  original_lt : ∀ p < r.opened, r.original p < r.opened
  original_original : ∀ p, r.original (r.original p) = r.original p
  answer_lt : ∀ p id, (p, id) ∈ r.answers → p < r.opened ∧ id ≤ r.identities.lastId
  same : ∀ p id q id', (p, id) ∈ r.answers → (q, id') ∈ r.answers → (id = id' ↔ r.original p = r.original q)
  assigned_answered : ∀ a e, r.identities.assigned.lookup a = some e → (e.pool, e.id) ∈ r.answers ∧ r.original e.pool = e.pool
  assigned_at : ∀ a e, r.identities.assigned.lookup a = some e → ∀ p, r.pools.lookup a = some p → p = e.pool
  assigned_place : ∀ a e, r.identities.assigned.lookup a = some e → ∀ b, r.pools.lookup b = some e.pool → b = a
  alias_answered : ∀ a e, r.identities.aliases.lookup a = some e →
    e.pool < r.opened ∧ ∃ q, (q, e.id) ∈ r.answers ∧ r.original q = r.original e.pool
  alias_at : ∀ a e, r.identities.aliases.lookup a = some e → ∀ p, r.pools.lookup a = some p → p = e.pool
  assigned_live : ∀ a p, r.pools.lookup a = some p → ∀ q id, (q, id) ∈ r.answers → r.original q = p →
    ∃ e, r.identities.assigned.lookup a = some e
  alias_live : ∀ a p, r.pools.lookup a = some p → r.original p ≠ p → p ≠ skip → ∃ e, r.identities.aliases.lookup a = some e

theorem tracked_new : Tracked new skip where
  pool_lt _ _ h := by cases h
  pool_once _ _ _ h := by cases h
  original_new _ _ := rfl
  original_lt _ h := absurd h (Nat.not_lt_zero _)
  original_original _ := rfl
  answer_lt _ _ h := absurd h List.not_mem_nil
  same _ _ _ _ h := absurd h List.not_mem_nil
  assigned_answered _ _ h := by cases h
  assigned_at _ _ h := by cases h
  assigned_place _ _ h := by cases h
  alias_answered _ _ h := by cases h
  alias_at _ _ h := by cases h
  assigned_live _ _ h := by cases h
  alias_live _ _ h := by cases h

theorem free_iff {address : ℕ} : r.free address = true ↔ r.pools.lookup address = none ∧
    r.identities.assigned.lookup address = none ∧ r.identities.aliases.lookup address = none := by
  rw [free, Bool.and_eq_true, Bool.and_eq_true, Option.isNone_iff_eq_none, Option.isNone_iff_eq_none, Option.isNone_iff_eq_none, and_assoc]

theorem Tracked.skip_other (h : r.Tracked skip) (hskip : r.original skip = skip) (other : ℕ) : r.Tracked other :=
  { h with alias_live := fun a p hp hshares _ => h.alias_live a p hp hshares fun heq => hshares (heq ▸ hskip) }

/-- A pool is allocated where nothing is, with its own identity or the one of `original`. -/
theorem tracked_opened (h : r.Tracked r.opened) {address : ℕ} (hfree : r.free address = true) {original : ℕ}
    (horiginal : original = r.opened ∨ original < r.opened ∧ r.original original = original) :
    Tracked { r with
      pools := r.pools.insert address r.opened
      opened := r.opened + 1
      original := Function.update r.original r.opened original } r.opened := by
  obtain ⟨hpools, hassigned, haliases⟩ := free_iff.1 hfree
  have hlookup (a p : ℕ) (hp : (r.pools.insert address r.opened).lookup a = some p) :
      a = address ∧ p = r.opened ∨ a ≠ address ∧ r.pools.lookup a = some p := by
    rw [AList.lookup_insert_cases] at hp
    split_ifs at hp with ha
    · exact .inl ⟨ha, (Option.some.inj hp).symm⟩
    · exact .inr ⟨ha, hp⟩
  have hold (p : ℕ) (hp : p ≠ r.opened) : Function.update r.original r.opened original p = r.original p := Function.update_of_ne hp _ _
  have hnew : Function.update r.original r.opened original r.opened = original := Function.update_self ..
  refine
    { pool_lt := fun a p hp => ?_
      pool_once := fun a b p ha hb => ?_
      original_new := fun p hp => ?_
      original_lt := fun p hp => ?_
      original_original := fun p => ?_
      answer_lt := fun p id hanswer => ?_
      same := fun p id q id' hp hq => ?_
      assigned_answered := fun a e he => ?_
      assigned_at := fun a e he p hp => ?_
      assigned_place := fun a e he b hb => ?_
      alias_answered := fun a e he => ?_
      alias_at := fun a e he p hp => ?_
      assigned_live := fun a p hp q id hanswer hq => ?_
      alias_live := fun a p hp hshares hskip => ?_ } <;> dsimp only at *
  · rcases hlookup a p hp with ⟨-, rfl⟩ | ⟨-, hp⟩
    · exact Nat.lt_succ_self _
    · exact Nat.lt_succ_of_lt (h.pool_lt a p hp)
  · rcases hlookup a p ha with ⟨rfl, rfl⟩ | ⟨-, ha⟩
    · rcases hlookup b _ hb with ⟨rfl, -⟩ | ⟨-, hb⟩
      · rfl
      · exact absurd (h.pool_lt b _ hb) (lt_irrefl _)
    · rcases hlookup b p hb with ⟨-, heq⟩ | ⟨-, hb⟩
      · exact absurd (h.pool_lt a p ha) (heq ▸ lt_irrefl _)
      · exact h.pool_once a b p ha hb
  · exact (hold p (Nat.ne_of_gt hp)).trans (h.original_new p (Nat.le_of_succ_le hp))
  · rcases Nat.lt_succ_iff_lt_or_eq.1 hp with hp | rfl
    · rw [hold p (Nat.ne_of_lt hp)]
      exact Nat.lt_succ_of_lt (h.original_lt p hp)
    · rw [hnew]
      exact horiginal.elim (fun heq => heq ▸ Nat.lt_succ_self _) fun hlt => Nat.lt_succ_of_lt hlt.1
  · rcases lt_trichotomy p r.opened with hp | rfl | hp
    · rw [hold p (Nat.ne_of_lt hp), hold _ (Nat.ne_of_lt (h.original_lt p hp)), h.original_original]
    · rw [hnew]
      rcases horiginal with rfl | ⟨hlt, hself⟩
      · exact hnew
      · exact (hold original (Nat.ne_of_lt hlt)).trans hself
    · rw [hold p (Nat.ne_of_gt hp), h.original_new p hp.le, hold p (Nat.ne_of_gt hp), h.original_new p hp.le]
  · obtain ⟨hlt, hle⟩ := h.answer_lt p id hanswer
    exact ⟨Nat.lt_succ_of_lt hlt, hle⟩
  · rw [hold p (Nat.ne_of_lt (h.answer_lt p id hp).1), hold q (Nat.ne_of_lt (h.answer_lt q id' hq).1)]
    exact h.same p id q id' hp hq
  · obtain ⟨hanswer, hself⟩ := h.assigned_answered a e he
    exact ⟨hanswer, (hold e.pool (Nat.ne_of_lt (h.answer_lt _ _ hanswer).1)).trans hself⟩
  · rcases hlookup a p hp with ⟨rfl, -⟩ | ⟨-, hp⟩
    · exact absurd (hassigned.symm.trans he) (Option.some_ne_none e).symm
    · exact h.assigned_at a e he p hp
  · rcases hlookup b _ hb with ⟨-, heq⟩ | ⟨-, hb⟩
    · exact absurd (h.answer_lt _ _ (h.assigned_answered a e he).1).1 (heq ▸ lt_irrefl _)
    · exact h.assigned_place a e he b hb
  · obtain ⟨hlt, q, hanswer, hq⟩ := h.alias_answered a e he
    refine ⟨Nat.lt_succ_of_lt hlt, q, hanswer, ?_⟩
    rw [hold q (Nat.ne_of_lt (h.answer_lt _ _ hanswer).1), hold e.pool (Nat.ne_of_lt hlt), hq]
  · rcases hlookup a p hp with ⟨rfl, -⟩ | ⟨-, hp⟩
    · exact absurd (haliases.symm.trans he) (Option.some_ne_none e).symm
    · exact h.alias_at a e he p hp
  · have hlt := (h.answer_lt q id hanswer).1
    have hq' : r.original q = p := (hold q (Nat.ne_of_lt hlt)).symm.trans hq
    rcases hlookup a p hp with ⟨-, rfl⟩ | ⟨-, hp⟩
    · exact absurd (h.original_lt q hlt) (hq' ▸ lt_irrefl _)
    · exact h.assigned_live a p hp q id hanswer hq'
  · rcases hlookup a p hp with ⟨-, rfl⟩ | ⟨-, hp⟩
    · exact absurd rfl hskip
    · exact h.alias_live a p hp (fun heq => hshares ((hold p hskip).trans heq)) hskip

theorem mem_answered {answers : List (ℕ × ℕ)} {p id q i : ℕ} (h : (q, i) ∈ answers ++ [(p, id)]) : (q, i) ∈ answers ∨ q = p ∧ i = id := by
  rcases List.mem_append.1 h with h | h
  · exact .inl h
  · exact .inr (Prod.mk.inj (List.mem_singleton.1 h))

/-- An identity is answered once more, for a pool that shares it. -/
theorem tracked_repeated (h : r.Tracked skip) {p id : ℕ} (hlt : p < r.opened) (hknown : ∃ q, (q, id) ∈ r.answers ∧ r.original q = r.original p) :
    Tracked { r with answers := r.answers ++ [(p, id)] } skip := by
  obtain ⟨known, hanswered, horiginal⟩ := hknown
  -- each answer is of the identity of one answered before
  have hsame (q i : ℕ) (hq : (q, i) ∈ r.answers ++ [(p, id)]) : ∃ q', (q', i) ∈ r.answers ∧ r.original q' = r.original q := by
    rcases mem_answered hq with hq | ⟨rfl, rfl⟩
    · exact ⟨q, hq, rfl⟩
    · exact ⟨known, hanswered, horiginal⟩
  refine { h with
    answer_lt := fun q i hq => ?_
    same := fun q i q' i' hq hq' => ?_
    assigned_answered := fun a e he => ?_
    alias_answered := fun a e he => ?_
    assigned_live := fun a live hlive q i hq horigin => ?_ }
  · rcases mem_answered hq with hq | ⟨rfl, rfl⟩
    · exact h.answer_lt q i hq
    · exact ⟨hlt, (h.answer_lt _ _ hanswered).2⟩
  · obtain ⟨q₁, hq₁, h₁⟩ := hsame q i hq
    obtain ⟨q₂, hq₂, h₂⟩ := hsame q' i' hq'
    exact (h.same q₁ i q₂ i' hq₁ hq₂).trans (by rw [h₁, h₂])
  · obtain ⟨hmem, hself⟩ := h.assigned_answered a e he
    exact ⟨List.mem_append_left _ hmem, hself⟩
  · obtain ⟨hpool, q, hmem, hq⟩ := h.alias_answered a e he
    exact ⟨hpool, q, List.mem_append_left _ hmem, hq⟩
  · obtain ⟨q', hmem, hq'⟩ := hsame q i hq
    exact h.assigned_live a live hlive q' i hmem (hq'.trans horigin)

theorem lookup_retained {tracked : HashMap ℕ TrackedPool} {pools : HashMap ℕ ℕ} {a : ℕ} {e : TrackedPool} :
    (ConnectionIdentities.retained tracked pools).lookup a = some e ↔ tracked.lookup a = some e ∧ pools.lookup a = some e.pool := by
  rw [ConnectionIdentities.retained, AList.lookup_retain, beq_iff_eq]

/-- What is tracked once a pool is added was tracked before, or is of that pool. -/
theorem of_lookup_tracked {tracked : HashMap ℕ TrackedPool} {pools : HashMap ℕ ℕ} {a b : ℕ} {added e : TrackedPool}
    (h : ((ConnectionIdentities.retained tracked pools).insert a added).lookup b = some e) :
    b = a ∧ e = added ∨ tracked.lookup b = some e := by
  rw [AList.lookup_insert_cases] at h
  split_ifs at h with hb
  · exact .inl ⟨hb, (Option.some.inj h).symm⟩
  · exact .inr (lookup_retained.1 h).1

/-- A live pool without an identity is given one that no other pool ever had. -/
theorem tracked_issued (h : r.Tracked skip) {a p : ℕ} (hp : r.pools.lookup a = some p) (hskip : p ≠ skip)
    (hassigned : r.identities.assigned.lookup a = none) (haliases : r.identities.aliases.lookup a = none) :
    Tracked { r with
      identities := ⟨r.identities.lastId + 1,
        (ConnectionIdentities.retained r.identities.assigned r.pools).insert a ⟨p, r.identities.lastId + 1⟩,
        ConnectionIdentities.retained r.identities.aliases r.pools⟩
      answers := r.answers ++ [(p, r.identities.lastId + 1)] } skip := by
  have hself : r.original p = p := by
    by_contra hshares
    obtain ⟨e, he⟩ := h.alias_live a p hp hshares hskip
    exact absurd (haliases.symm.trans he) (Option.some_ne_none e).symm
  have hfresh (q id : ℕ) (hq : (q, id) ∈ r.answers) : id ≠ r.identities.lastId + 1 ∧ r.original q ≠ p := by
    refine ⟨Nat.ne_of_lt (Nat.lt_succ_of_le (h.answer_lt q id hq).2), fun horigin => ?_⟩
    obtain ⟨e, he⟩ := h.assigned_live a p hp q id hq horigin
    exact absurd (hassigned.symm.trans he) (Option.some_ne_none e).symm
  refine { h with
    answer_lt := fun q i hq => ?_
    same := fun q i q' i' hq hq' => ?_
    assigned_answered := fun b e he => ?_
    assigned_at := fun b e he q hq => ?_
    assigned_place := fun b e he c hc => ?_
    alias_answered := fun b e he => ?_
    alias_at := fun b e he q hq => ?_
    assigned_live := fun b live hlive q i hq horigin => ?_
    alias_live := fun b live hlive hshares hlast => ?_ }
  · rcases mem_answered hq with hq | ⟨rfl, rfl⟩
    · exact ⟨(h.answer_lt q i hq).1, Nat.le_succ_of_le (h.answer_lt q i hq).2⟩
    · exact ⟨h.pool_lt a q hp, le_rfl⟩
  · rcases mem_answered hq with hmem | ⟨rfl, rfl⟩ <;> rcases mem_answered hq' with hmem' | ⟨rfl, rfl⟩
    · exact h.same q i q' i' hmem hmem'
    · exact iff_of_false (hfresh q i hmem).1 fun heq => (hfresh q i hmem).2 (heq.trans hself)
    · exact iff_of_false (hfresh q' i' hmem').1.symm fun heq => (hfresh q' i' hmem').2 (heq.symm.trans hself)
    · exact iff_of_true rfl rfl
  · rcases of_lookup_tracked he with ⟨-, rfl⟩ | he
    · exact ⟨List.mem_append_right _ (List.mem_singleton_self _), hself⟩
    · exact ⟨List.mem_append_left _ (h.assigned_answered b e he).1, (h.assigned_answered b e he).2⟩
  · rcases of_lookup_tracked he with ⟨rfl, rfl⟩ | he
    · exact Option.some.inj (hq.symm.trans hp)
    · exact h.assigned_at b e he q hq
  · rcases of_lookup_tracked he with ⟨rfl, rfl⟩ | he
    · exact h.pool_once c b p hc hp
    · exact h.assigned_place b e he c hc
  · obtain ⟨hlt, q, hmem, hq⟩ := h.alias_answered b e (lookup_retained.1 he).1
    exact ⟨hlt, q, List.mem_append_left _ hmem, hq⟩
  · exact h.alias_at b e (lookup_retained.1 he).1 q hq
  · rw [AList.lookup_insert_cases]
    by_cases hb : b = a
    · exact ⟨_, if_pos hb⟩
    · have hother : live ≠ p := fun heq => hb (h.pool_once b a p (heq ▸ hlive) hp)
      rcases mem_answered hq with hq | ⟨rfl, -⟩
      · obtain ⟨e, he⟩ := h.assigned_live b live hlive q i hq horigin
        refine ⟨e, (if_neg hb).trans (lookup_retained.2 ⟨he, ?_⟩)⟩
        rw [hlive, h.assigned_at b e he live hlive]
      · exact absurd (horigin.symm.trans hself) hother
  · obtain ⟨e, he⟩ := h.alias_live b live hlive hshares hlast
    refine ⟨e, lookup_retained.2 ⟨he, ?_⟩⟩
    rw [hlive, h.alias_at b e he live hlive]

theorem tracked_identify (h : r.Tracked skip) {a p : ℕ} (hp : r.pools.lookup a = some p) (hskip : p ≠ skip) :
    Tracked { r with
      identities := (r.identities.identify r.pools a p).2
      answers := r.answers ++ [(p, (r.identities.identify r.pools a p).1)] } skip := by
  have hlt := h.pool_lt a p hp
  rw [ConnectionIdentities.identify]
  cases hassigned : r.identities.assigned.lookup a with
  | some e =>
    obtain ⟨hmem, -⟩ := h.assigned_answered a e hassigned
    exact tracked_repeated h hlt ⟨e.pool, hmem, by rw [h.assigned_at a e hassigned p hp]⟩
  | none =>
    cases haliases : r.identities.aliases.lookup a with
    | some e =>
      obtain ⟨-, q, hmem, hq⟩ := h.alias_answered a e haliases
      exact tracked_repeated h hlt ⟨q, hmem, by rw [hq, h.alias_at a e haliases p hp]⟩
    | none => exact tracked_issued h hp hskip hassigned haliases

/-- The pool that was left out is given an identity that is answered for the pool it shares with. -/
theorem tracked_aliased (h : r.Tracked skip) {a q id : ℕ} (hp : r.pools.lookup a = some skip) (hmem : (q, id) ∈ r.answers)
    (hq : r.original q = r.original skip) (other : ℕ) :
    Tracked { r with identities := { r.identities with
      aliases := (ConnectionIdentities.retained r.identities.aliases r.pools).insert a ⟨skip, id⟩ } } other := by
  refine { h with
    alias_answered := fun b e he => ?_
    alias_at := fun b e he p hlive => ?_
    alias_live := fun b p hlive hshares _ => ?_ }
  · rcases of_lookup_tracked he with ⟨-, rfl⟩ | he
    · exact ⟨h.pool_lt a skip hp, q, hmem, hq⟩
    · exact h.alias_answered b e he
  · rcases of_lookup_tracked he with ⟨rfl, rfl⟩ | he
    · exact Option.some.inj (hlive.symm.trans hp)
    · exact h.alias_at b e he p hlive
  · rw [AList.lookup_insert_cases]
    by_cases hb : b = a
    · exact ⟨_, if_pos hb⟩
    · obtain ⟨e, he⟩ := h.alias_live b p hlive hshares fun heq => hb (h.pool_once b a skip (heq ▸ hlive) hp)
      refine ⟨e, (if_neg hb).trans (lookup_retained.2 ⟨he, ?_⟩)⟩
      rw [hlive, h.alias_at b e he p hlive]

theorem tracked_dropped (h : r.Tracked skip) (address : ℕ) : Tracked { r with pools := r.pools.erase address } skip := by
  have hlookup (a p : ℕ) (hp : (r.pools.erase address).lookup a = some p) : r.pools.lookup a = some p := by
    rw [AList.lookup_erase_cases] at hp
    split_ifs at hp
    exact hp
  exact { h with
    pool_lt := fun a p hp => h.pool_lt a p (hlookup a p hp)
    pool_once := fun a b p ha hb => h.pool_once a b p (hlookup a p ha) (hlookup b p hb)
    assigned_at := fun a e he p hp => h.assigned_at a e he p (hlookup a p hp)
    assigned_place := fun a e he b hb => h.assigned_place a e he b (hlookup b _ hb)
    alias_at := fun a e he p hp => h.alias_at a e he p (hlookup a p hp)
    assigned_live := fun a p hp => h.assigned_live a p (hlookup a p hp)
    alias_live := fun a p hp => h.alias_live a p (hlookup a p hp) }

theorem tracked_step (h : r.Tracked r.opened) (step : PoolStep) : (r.step step).Tracked (r.step step).opened := by
  cases step with
  | opens address =>
    rw [PoolRegistry.step]
    split_ifs with hfree
    · have hself : Function.update r.original r.opened r.opened = r.original := by
        rw [Function.update_eq_self_iff, h.original_new _ le_rfl]
      have hopened := tracked_opened h hfree (.inl rfl)
      rw [hself] at hopened
      exact hopened.skip_other (h.original_new _ le_rfl) _
    · exact h
  | shares address original =>
    rw [PoolRegistry.step]
    cases hpool : r.pools.lookup original with
    | none => exact h
    | some pool =>
      dsimp only
      split_ifs with hfree
      · have hlt := h.pool_lt original pool hpool
        have hopened := tracked_opened h hfree (.inr ⟨h.original_lt pool hlt, h.original_original pool⟩)
        have hthere : (r.pools.insert address r.opened).lookup original = some pool := by
          have hne : original ≠ address := fun heq => Option.some_ne_none pool (hpool.symm.trans (heq ▸ (free_iff.1 hfree).1))
          rw [AList.lookup_insert_cases, if_neg hne, hpool]
        have hidentified := tracked_identify hopened hthere (Nat.ne_of_lt hlt)
        refine tracked_aliased hidentified (AList.lookup_insert _) (List.mem_append_right _ (List.mem_singleton_self _)) ?_ _
        dsimp only
        rw [Function.update_self, Function.update_of_ne (Nat.ne_of_lt hlt)]
      · exact h
  | drops address => exact tracked_dropped h address
  | identifies address =>
    rw [PoolRegistry.step]
    cases hpool : r.pools.lookup address with
    | none => exact h
    | some pool => exact tracked_identify h hpool (Nat.ne_of_lt (h.pool_lt address pool hpool))

theorem tracked_run (steps : List PoolStep) : (run steps).Tracked (run steps).opened := by
  have hfold (r : PoolRegistry) (h : r.Tracked r.opened) : (steps.foldl step r).Tracked (steps.foldl step r).opened := by
    induction steps generalizing r with
    | nil => exact h
    | cons s steps ih => exact ih _ (tracked_step h s)
  exact hfold new tracked_new

/-- Two pools are told the same identity just if one shares the other's, whenever they are asked and whatever was dropped and
allocated at whichever addresses before, between and after. -/
theorem identity_of_run (steps : List PoolStep) {p q id id' : ℕ} (hp : (p, id) ∈ (run steps).answers) (hq : (q, id') ∈ (run steps).answers) :
    id = id' ↔ (run steps).original p = (run steps).original q :=
  (tracked_run steps).same p id q id' hp hq

/-- A pool at the address of one that is gone. -/
theorem identity_of_run_reused : (1 : ℕ) = 3 ↔
    (run [.opens 7, .identifies 7, .drops 7, .opens 9, .identifies 9, .opens 7, .identifies 7]).original 0 =
      (run [.opens 7, .identifies 7, .drops 7, .opens 9, .identifies 9, .opens 7, .identifies 7]).original 2 :=
  identity_of_run [.opens 7, .identifies 7, .drops 7, .opens 9, .identifies 9, .opens 7, .identifies 7] (by decide) (by decide)

/-- A transaction's identity leads back to the pool that it was first given to, as long as that pool lives. -/
theorem loadingPool_of_run (steps : List PoolStep) {p id : ℕ} (hp : (p, id) ∈ (run steps).answers) (q : ℕ) :
    (run steps).loadingPool id = some q ↔ q = (run steps).original p ∧ ∃ address, (run steps).pools.lookup address = some q := by
  have h := tracked_run steps
  have hfound (q : ℕ) (hq : (run steps).loadingPool id = some q) :
      q = (run steps).original p ∧ ∃ address, (run steps).pools.lookup address = some q := by
    obtain ⟨entry, hentry, hsome⟩ := List.exists_of_findSome?_eq_some hq
    split_ifs at hsome with hlive
    obtain rfl := Option.some.inj hsome
    obtain ⟨hmem, hself⟩ := h.assigned_answered entry.1 entry.2 (AList.mem_entries_iff.1 hentry)
    exact ⟨hself.symm.trans ((h.same _ _ p id hmem hp).1 hlive.1), entry.1, hlive.2⟩
  refine ⟨hfound q, ?_⟩
  rintro ⟨rfl, address, hlive⟩
  obtain ⟨e, he⟩ := h.assigned_live address _ hlive p id hp rfl
  obtain ⟨hmem, -⟩ := h.assigned_answered address e he
  have hpool := h.assigned_at address e he _ hlive
  have hid : e.id = id := (h.same _ _ p id hmem hp).2 (by rw [← hpool, h.original_original])
  cases hloading : (run steps).loadingPool id with
  | some q => rw [(hfound q hloading).1]
  | none =>
    have hnone := List.findSome?_eq_none_iff.1 hloading ⟨address, e⟩ (AList.mem_entries_iff.2 he)
    rw [if_pos ⟨hid, hpool ▸ hlive⟩] at hnone
    exact absurd hnone (Option.some_ne_none _)

/-- A transaction that was begun on the second of two pools sharing one identity. -/
theorem loadingPool_of_run_shared : (run [.opens 7, .shares 9 7, .identifies 9]).loadingPool 1 = some 0 ↔
    0 = (run [.opens 7, .shares 9 7, .identifies 9]).original 1 ∧
      ∃ address, (run [.opens 7, .shares 9 7, .identifies 9]).pools.lookup address = some 0 :=
  loadingPool_of_run [.opens 7, .shares 9 7, .identifies 9] (by decide) 0

end PoolRegistry

section Scopes

variable {identity : ℕ → ℕ}

/-- A transaction on the pool's database. -/
def ConnectionScope.isTransactionOf (own : ℕ) (scope : ConnectionScope) : Bool :=
  scope.connection.isTransaction && joinsOrigin (some own) scope.origin

/-- Scopes that handles have opened: one on a pool is in no transaction of the pool's database. -/
def Rooted (identity : ℕ → ℕ) : List ConnectionScope → Prop
  | [] => True
  | scope :: enclosing => (∀ pool, scope.connection = .database pool → scope.origin = some (identity pool) ∧
      ∀ outer ∈ enclosing, outer.isTransactionOf (identity pool) = false) ∧ Rooted identity enclosing

/-- A request is answered by the scopes that its code is written in. -/
structure Lexical (identity : ℕ → ℕ) (request : Request) : Prop where
  answered : request.answer = connectionThrough identity request.global request.around request.through
  rooted : Rooted identity request.around

/-- A future that waits in a scope has it in the scopes that the future is written in. -/
def WellScoped (identity : ℕ → ℕ) : List ConnectionScope → Future → Prop
  | around, .within scope enclosing future _ =>
    enclosing = around ∧ Rooted identity (scope :: around) ∧ WellScoped identity (scope :: around) future
  | around, .both left right _ => WellScoped identity around left ∧ WellScoped identity around right
  | _, _ => True

/-- Where only transactions of other databases lie between, the enclosing transaction is the innermost one of its own. -/
theorem enclosingTransaction_of_rooted {scopes : List ConnectionScope} (h : Rooted identity scopes) (own : ℕ) :
    enclosingTransaction (some own) scopes = (scopes.find? (ConnectionScope.isTransactionOf own)).map ConnectionScope.connection := by
  induction scopes with
  | nil => rfl
  | cons scope enclosing ih =>
    obtain ⟨hpool, hrest⟩ := h
    rw [enclosingTransaction, List.find?_cons, ConnectionScope.isTransactionOf]
    cases hjoins : joinsOrigin (some own) scope.origin with
    | false =>
      rw [Bool.and_false]
      exact ih hrest
    | true =>
      rw [Bool.and_true, if_pos rfl]
      cases hconnection : scope.connection with
      | transaction tx origin => exact congrArg some hconnection.symm
      | database pool =>
        obtain ⟨horigin, hnone⟩ := hpool pool hconnection
        rw [horigin, joinsOrigin, beq_iff_eq] at hjoins
        subst hjoins
        have hmissing : enclosing.find? (ConnectionScope.isTransactionOf (identity pool)) = none :=
          List.find?_eq_none.2 fun outer houter => Bool.eq_false_iff.1 (hnone outer houter)
        dsimp only [ConnectionRef.isTransaction]
        rw [hmissing]
        rfl

theorem isTransaction_of_enclosing {own : Option ℕ} {scopes : List ConnectionScope} {connection : ConnectionRef}
    (h : enclosingTransaction own scopes = some connection) : connection.isTransaction = true := by
  induction scopes with
  | nil => cases h
  | cons scope enclosing ih =>
    rw [enclosingTransaction] at h
    split_ifs at h with hjoins htransaction
    · exact Option.some.inj h ▸ htransaction
    · exact ih h

/-- A scope on what a handle answers is one more that a handle has opened. -/
theorem rooted_getConnection {scopes : List ConnectionScope} (h : Rooted identity scopes) {global : Option ℕ} {handle : DatabaseHandle}
    {connection : ConnectionRef} (hanswer : handle.getConnection identity global scopes = some connection) :
    Rooted identity (⟨connection, connection.origin identity⟩ :: scopes) := by
  refine ⟨fun pool hpool => ?_, h⟩
  obtain rfl : connection = .database pool := hpool
  refine ⟨rfl, fun outer houter => ?_⟩
  rw [DatabaseHandle.getConnection, Option.or_eq_some_iff] at hanswer
  rcases hanswer with hjoined | ⟨hnone, hown⟩
  · exact absurd (isTransaction_of_enclosing hjoined) Bool.false_ne_true
  · rw [hown] at hnone
    dsimp only at hnone
    rw [enclosingTransaction_of_rooted h, Option.map_eq_none_iff, List.find?_eq_none] at hnone
    exact eq_false_of_ne_true (hnone outer houter)

/-- A poll that starts in the scopes its code is written in. -/
structure PollsIn (identity : ℕ → ℕ) (around : List ConnectionScope) (s : PollState) : Prop where
  override : s.override = around
  requests : ∀ request ∈ s.requests, Lexical identity request
  rooted : Rooted identity around

/-- What such a poll comes to: it leaves the thread as it found it, and what is left to poll in those scopes. -/
structure Polls (identity : ℕ → ℕ) (around : List ConnectionScope) (polled : Polled × PollState) : Prop extends
    PollsIn identity around polled.2 where
  future : WellScoped identity around polled.1.future

variable {around : List ConnectionScope} {s : PollState}

theorem PollsIn.ask (h : PollsIn identity around s) (through : Option DatabaseHandle) :
    PollsIn identity around (s.ask identity around through).2 := by
  refine ⟨h.override, List.forall_mem_append.2 ⟨h.requests, List.forall_mem_singleton.2 ⟨?_, h.rooted⟩⟩, h.rooted⟩
  rw [h.override]

/-- A scope is entered and left again. -/
theorem polls_leaveScope (h : PollsIn identity around s) {scope : ConnectionScope} (hscope : Rooted identity (scope :: around))
    {enclosing : List ConnectionScope} (henclosing : enclosing = around) {rest : Bool → Routine} {next : PollState → Polled × PollState} (hnext : ∀ s, PollsIn identity around s → Polls identity around (next s))
    {polled : Polled × PollState} (hpolled : Polls identity (scope :: around) polled) :
    Polls identity around (leaveScope s.override scope enclosing rest next polled) := by
  have hleft : PollsIn identity around (polled.2.install s.override) := ⟨h.override, hpolled.requests, h.rooted⟩
  rw [leaveScope]
  cases hresult : polled.1 with
  | ready => exact hnext _ hleft
  | pending future =>
    have hfuture := hpolled.future
    rw [hresult] at hfuture
    exact ⟨hleft, henclosing, hscope, hfuture⟩
  | panicked => exact ⟨hleft, trivial⟩

theorem polls_joinFutures {rest : Routine} {right next : PollState → Polled × PollState}
    (hright : ∀ s, PollsIn identity around s → Polls identity around (right s))
    (hnext : ∀ s, PollsIn identity around s → Polls identity around (next s)) {left : Polled × PollState}
    (hleft : Polls identity around left) : Polls identity around (joinFutures rest right next left) := by
  have hsecond := hright left.2 hleft.toPollsIn
  have hboth (first second : Future) (hfirst : WellScoped identity around first) (hother : WellScoped identity around second) :
      Polls identity around (.pending (.both first second rest), (right left.2).2) := ⟨hsecond.toPollsIn, hfirst, hother⟩
  have hwaits := hleft.future
  have hothers := hsecond.future
  rw [joinFutures]
  cases hresult : left.1 with
  | panicked => exact hleft
  | ready =>
    dsimp only
    cases hother : (right left.2).1 with
    | panicked => exact hsecond
    | ready => exact hnext _ hsecond.toPollsIn
    | pending future => exact hboth .finished future trivial (by rwa [hother] at hothers)
  | pending waiting =>
    rw [hresult] at hwaits
    dsimp only
    cases hother : (right left.2).1 with
    | panicked => exact hsecond
    | ready => exact hboth waiting .finished hwaits trivial
    | pending future => exact hboth waiting future hwaits (by rwa [hother] at hothers)

theorem polls_advance (routine : Routine) (h : PollsIn identity around s) : Polls identity around (routine.advance identity around s) := by
  induction routine generalizing around s with
  | done => exact ⟨h, trivial⟩
  | panics => exact ⟨h, trivial⟩
  | awaits rest => exact ⟨h, trivial⟩
  | statement through rest ih => exact ih _ (h.ask through)
  | transaction handle body rest ihbody ihrest =>
    rw [Routine.advance]
    cases (s.ask identity around (some handle)).1 with
    | none => exact ihrest false (h.ask _)
    | some connection => exact ⟨h.ask _, trivial⟩
  | inScope handle body rest ihbody ihrest =>
    rw [Routine.advance]
    cases hanswer : (s.ask identity around (some handle)).1 with
    | none => exact ihrest false (h.ask _)
    | some connection =>
      have hconnection : handle.getConnection identity s.global around = some connection := by
        rw [← h.override]
        exact hanswer
      have hscope := rooted_getConnection h.rooted hconnection
      refine polls_leaveScope h hscope h.override (fun _ => ihrest true) (ihbody ⟨?_, (h.ask _).requests, hscope⟩)
      exact congrArg (_ :: ·) h.override
  | joins left right rest ihleft ihright ihrest => exact polls_joinFutures (fun _ => ihright) (fun _ => ihrest) (ihleft h)

theorem polls_poll (future : Future) (answers : List Bool → ℕ) (h : PollsIn identity around s) (hscoped : WellScoped identity around future) :
    Polls identity around (future.poll identity answers around s) := by
  induction future generalizing around s answers with
  | finished => exact ⟨h, trivial⟩
  | waiting rest => exact polls_advance _ h
  | beginning connection body rest =>
    rw [Future.poll]
    split_ifs
    · exact polls_advance _ h
    · have hscope : Rooted identity
          (⟨.transaction s.nextTx (connection.origin identity), connection.origin identity⟩ :: around) :=
        ⟨fun pool hpool => (by cases hpool), h.rooted⟩
      refine polls_leaveScope h hscope h.override (fun _ => polls_advance _) (polls_advance _ ⟨?_, h.requests, hscope⟩)
      exact congrArg (_ :: ·) h.override
  | within scope enclosing future rest ih =>
    obtain ⟨rfl, hscope, hfuture⟩ := hscoped
    exact polls_leaveScope h hscope rfl (fun _ => polls_advance _) (ih answers ⟨rfl, h.requests, hscope⟩ hfuture)
  | both left right rest ihleft ihright =>
    obtain ⟨hleft, hright⟩ := hscoped
    exact polls_joinFutures (fun _ hs => ihright _ hs hright) (fun _ => polls_advance _) (ihleft _ h hleft)

namespace Runtime

/-- Between polls no thread has a scope, and what waits waits in the scopes it is written in. -/
structure Settled (identity : ℕ → ℕ) (r : Runtime) : Prop where
  overrides : ∀ thread, r.overrides thread = []
  requests : ∀ request ∈ r.requests, Lexical identity request
  tasks : ∀ task, WellScoped identity [] (r.tasks task)

theorem settled_step {r : Runtime} (h : r.Settled identity) (step : RuntimeStep) : (r.step identity step).Settled identity := by
  cases step with
  | poll thread task answers =>
    have hstart : PollsIn identity [] ⟨r.overrides thread, r.global, r.nextTx, r.requests⟩ := ⟨h.overrides thread, h.requests, trivial⟩
    have hpolled := polls_poll (r.tasks task) answers hstart (h.tasks task)
    refine ⟨fun other => ?_, hpolled.requests, fun other => ?_⟩
    · by_cases hother : other = thread
      · rw [hother]
        exact (Function.update_self ..).trans hpolled.override
      · exact (Function.update_of_ne hother ..).trans (h.overrides other)
    · by_cases hother : other = task
      · rw [hother, Runtime.step]
        dsimp only
        rw [Function.update_self]
        exact hpolled.future
      · rw [Runtime.step]
        dsimp only
        rw [Function.update_of_ne hother]
        exact h.tasks other
  | cancel task =>
    refine ⟨h.overrides, h.requests, fun other => ?_⟩
    by_cases hother : other = task
    · rw [hother, Runtime.step]
      dsimp only
      rw [Function.update_self]
      trivial
    · rw [Runtime.step]
      dsimp only
      rw [Function.update_of_ne hother]
      exact h.tasks other
  | setGlobal pool => exact ⟨h.overrides, h.requests, h.tasks⟩

theorem settled_run (tasks : ℕ → Routine) (steps : List RuntimeStep) : ((new tasks).run identity steps).Settled identity := by
  have hfold (r : Runtime) (h : r.Settled identity) : (r.run identity steps).Settled identity := by
    induction steps generalizing r with
    | nil => exact h
    | cons step steps ih => exact ih _ (settled_step h step)
  exact hfold (new tasks) ⟨fun _ => rfl, List.forall_mem_nil _, fun _ => trivial⟩

/-- Every connection that a task asks for is the one of the scopes its code is written in, whichever threads poll it and whatever
they poll before, between and after; and no scope is left on a thread. -/
theorem lexical_of_run (identity : ℕ → ℕ) (tasks : ℕ → Routine) (steps : List RuntimeStep) :
    (∀ thread, ((new tasks).run identity steps).overrides thread = []) ∧
      ∀ request ∈ ((new tasks).run identity steps).requests,
        request.answer = connectionThrough identity request.global request.around request.through :=
  ⟨(settled_run tasks steps).overrides, fun request hrequest => ((settled_run tasks steps).requests request hrequest).answered⟩

/-- A task that uses another pool inside a transaction, and tasks that have none. -/
def oneTransaction : ℕ → Routine
  | 0 => .transaction (.handle (.database 0)) (fun _ => .awaits fun _ => .inScope (.handle (.database 1))
      (.statement (some (.handle (.database 0))) fun _ => .done) fun _ => .done) fun _ => .done
  | _ => .statement (some (.handle (.database 0))) fun _ => .done

/-- The thread that polls the transaction polls another task before another thread goes on with it. -/
theorem lexical_of_run_threads :
    ((new oneTransaction).run id [.poll 0 0 fun _ => 0, .poll 0 0 fun _ => 1, .poll 0 1 fun _ => 0, .poll 1 0 fun _ => 0]).overrides 0 = [] ∧
      some (.database 0) = connectionThrough id none [] (some (.handle (.database 0))) := by
  obtain ⟨hthreads, hrequests⟩ :=
    lexical_of_run id oneTransaction [.poll 0 0 fun _ => 0, .poll 0 0 fun _ => 1, .poll 0 1 fun _ => 0, .poll 1 0 fun _ => 0]
  exact ⟨hthreads 0, hrequests ⟨[], some (.handle (.database 0)), none, some (.database 0)⟩ (by decide)⟩

/-- What runs through a handle on a pool runs in the innermost transaction of the pool's database among the scopes it is written in,
and on the pool itself just if there is none. -/
theorem transaction_of_run (identity : ℕ → ℕ) (tasks : ℕ → Routine) (steps : List RuntimeStep) {request : Request}
    (hrequest : request ∈ ((new tasks).run identity steps).requests) {handle : DatabaseHandle} (hthrough : request.through = some handle)
    {pool : ℕ} (hpool : handle.ownHandle request.global = some (.database pool)) :
    request.answer = some (((request.around.find? (ConnectionScope.isTransactionOf (identity pool))).map
      ConnectionScope.connection).getD (.database pool)) := by
  obtain ⟨hanswer, hrooted⟩ := (settled_run tasks steps).requests request hrequest
  rw [hanswer, hthrough, connectionThrough, DatabaseHandle.getConnection, hpool]
  dsimp only
  rw [enclosingTransaction_of_rooted hrooted]
  cases request.around.find? (ConnectionScope.isTransactionOf (identity pool)) with
  | none => rfl
  | some scope => rfl

/-- The scope on the other pool is looked through. -/
theorem transaction_of_run_within : some (.transaction 0 (some 0)) =
    some ((([⟨.database 1, some 1⟩, ⟨.transaction 0 (some 0), some 0⟩].find? (ConnectionScope.isTransactionOf 0)).map
      ConnectionScope.connection).getD (.database 0)) := by
  have hasked : (⟨[⟨.database 1, some 1⟩, ⟨.transaction 0 (some 0), some 0⟩], some (.handle (.database 0)), none,
      some (.transaction 0 (some 0))⟩ : Request) ∈ ((new oneTransaction).run id
        [.poll 0 0 fun _ => 0, .poll 0 0 fun _ => 1, .poll 0 1 fun _ => 0, .poll 1 0 fun _ => 0]).requests := by decide
  exact transaction_of_run id oneTransaction _ hasked rfl rfl

end Runtime

end Scopes

end TideOrm
