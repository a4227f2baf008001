import TideOrm.Sanity.FlushOrder

/-! The planned order respects the dependencies. The sort key groups the inserts
and the deletes of each table, so reordering the rows of each run leaves the kinds
and the tables as the sort placed them; inside a run the rows come out of the
topological order of their references. -/

namespace TideOrm

open Lib

section Plan

variable {entries : List FlushEntry}

theorem sortKey_congr {order : FlushOrder} {a b : FlushEntry} (hs : b.currentState = a.currentState)
    (ht : b.tableName = a.tableName) : flushSortKey order a = flushSortKey order b := by
  simp only [flushSortKey, hs, ht]

theorem flushOrderRank_inj {a b : EntityState} (h : flushOrderRank a = flushOrderRank b) : a = b := by
  cases a <;> cases b <;> first | rfl | cases h

/-- Inserts, and deletes, tie in the sort only inside one table. -/
theorem sortKey_inRun {state : EntityState} {table : String} (hstate : state = .new ∨ state = .removed)
    {a b : FlushEntry} (ha : a ∈ entries) (hb : b ∈ entries) (hrun : inRun state table a = true) :
    toLex (flushSortKey (planFlushOrder entries) a) = toLex (flushSortKey (planFlushOrder entries) b) ↔
      inRun state table b = true := by
  obtain ⟨hs, ht⟩ := inRun_iff.1 hrun
  have hat := mem_flushTables.2 ⟨a, ha, rfl⟩
  have hbt := mem_flushTables.2 ⟨b, hb, rfl⟩
  rw [toLex_inj, inRun_iff]
  constructor
  · intro h
    obtain ⟨hrank, hwithin⟩ := Prod.mk.inj h
    have hsb : b.currentState = a.currentState := (flushOrderRank_inj hrank).symm
    have hla := rank_lt_len hat
    have hlb := rank_lt_len hbt
    have heq : (planFlushOrder entries).rank a.tableName = (planFlushOrder entries).rank b.tableName := by
      rw [hsb] at hwithin
      rcases hstate with rfl | rfl
      · simpa [hs] using hwithin
      · simp only [hs] at hwithin
        omega
    exact ⟨hsb.trans hs, (rank_inj hat hbt heq).symm.trans ht⟩
  · rintro ⟨hsb, htb⟩
    exact sortKey_congr (hsb.trans hs.symm) (htb.trans ht.symm)

theorem flushPlan_perm : (flushPlan entries).Perm entries :=
  (orderRuns_perm _ _).trans (List.perm_insertionSort _ _)

section Sorted

variable (entries)

/-- The order the entries are sorted in. -/
def SortedBefore (a b : FlushEntry) : Prop :=
  toLex (flushSortKey (planFlushOrder entries) a) ≤ toLex (flushSortKey (planFlushOrder entries) b)

instance : DecidableRel (SortedBefore entries) := fun a b =>
  inferInstanceAs (Decidable (toLex (flushSortKey (planFlushOrder entries) a) ≤
    toLex (flushSortKey (planFlushOrder entries) b)))

instance : IsTrans FlushEntry (SortedBefore entries) := ⟨fun _ _ _ => le_trans⟩

instance : Std.Total (SortedBefore entries) := ⟨fun _ _ => le_total _ _⟩

theorem flushPlan_eq : flushPlan entries =
    orderSelfReferences (entries.insertionSort (SortedBefore entries)) := rfl

end Sorted

theorem flushPlan_sorted : (flushPlan entries).Pairwise (SortedBefore entries) :=
  orderRuns_pairwise (fun _ _ hs ht => (congrArg toLex (sortKey_congr hs ht)).le) _ _
    (List.pairwise_insertionSort _ _)

theorem flushPlan_filter {state : EntityState} (hstate : state = .new ∨ state = .removed) (table : String) :
    (flushPlan entries).filter (inRun state table) =
      orderRows (entries.filter (inRun state table)) (decide (state = .removed)) := by
  rw [flushPlan_eq, orderSelfReferences,
    orderRuns_filter (fun e => toLex (flushSortKey (planFlushOrder entries) e)) hstate _ _ le_rfl
      (List.pairwise_insertionSort (SortedBefore entries) _)]
  · rw [filter_insertionSort]
    intro a b ha hb
    obtain ⟨hsa, hta⟩ := inRun_iff.1 ha
    obtain ⟨hsb, htb⟩ := inRun_iff.1 hb
    exact (congrArg toLex (sortKey_congr (hsb.trans hsa.symm) (htb.trans hta.symm))).le
  · intro a ha b hb
    exact sortKey_inRun hstate (List.mem_insertionSort _ |>.1 ha) (List.mem_insertionSort _ |>.1 hb)

theorem flushPlan_filter_state {state : EntityState} (hstate : ¬ (state = .new ∨ state = .removed)) :
    (flushPlan entries).filter (fun e => decide (e.currentState = state)) =
      entries.filter fun e => decide (e.currentState = state) := by
  rw [flushPlan_eq, orderSelfReferences, orderRuns_filter_state hstate, filter_insertionSort]
  intro a b ha hb
  rw [decide_eq_true_eq] at ha hb
  refine (congrArg toLex ?_).le
  simp only [flushSortKey, ha, hb]
  cases state with
  | new => exact absurd (Or.inl rfl) hstate
  | removed => exact absurd (Or.inr rfl) hstate
  | managed => rfl
  | detached => rfl

/-- `a` refers to another row `b` of the same kind and table. -/
def Refers (entries : List FlushEntry) (state : EntityState) (table : String) (a b : FlushEntry) : Prop :=
  a ∈ entries.filter (inRun state table) ∧ b ∈ entries.filter (inRun state table) ∧ a ≠ b ∧ a.RefersTo b

/-- Nothing between two entries keeps the first from staying before the second:
both are updates, or rows of one table of which the second waits for all the
first waits for. -/
def StaysBefore (entries : List FlushEntry) (a b : FlushEntry) : Prop :=
  a.currentState = b.currentState ∧
    match a.currentState with
    | .managed | .detached => True
    | .new => a.tableName = b.tableName ∧
        ∀ c ∈ entries.filter (inRun .new a.tableName), a.WaitsFor false c → b.WaitsFor false c
    | .removed => a.tableName = b.tableName ∧
        ∀ c ∈ entries.filter (inRun .removed a.tableName), a.WaitsFor true c → b.WaitsFor true c

theorem plan_of_sortKey_lt {a b : FlushEntry} (ha : a ∈ entries) (hb : b ∈ entries)
    (h : toLex (flushSortKey (planFlushOrder entries) a) <
      toLex (flushSortKey (planFlushOrder entries) b)) : Precedes (flushPlan entries) a b := by
  refine precedes_of_pairwise flushPlan_sorted (flushPlan_perm.mem_iff.2 ha) (flushPlan_perm.mem_iff.2 hb)
    ?_ (not_le.2 h)
  rintro rfl
  exact lt_irrefl _ h

theorem plan_parent_insert (hacyclic : ∀ t, ¬ Relation.TransGen (ParentOf entries) t t)
    {a b : FlushEntry} (ha : a ∈ entries) (hb : b ∈ entries) (hsa : a.currentState = .new)
    (hsb : b.currentState = .new) (h : ParentOf entries a.tableName b.tableName) :
    Precedes (flushPlan entries) a b := by
  apply plan_of_sortKey_lt ha hb
  have hlt := rank_parent_lt hacyclic h
  simp only [flushSortKey, hsa, hsb, Prod.Lex.toLex_lt_toLex]
  exact Or.inr ⟨trivial, hlt⟩

theorem plan_child_delete (hacyclic : ∀ t, ¬ Relation.TransGen (ParentOf entries) t t)
    {a b : FlushEntry} (ha : a ∈ entries) (hb : b ∈ entries) (hsa : a.currentState = .removed)
    (hsb : b.currentState = .removed) (h : ParentOf entries b.tableName a.tableName) :
    Precedes (flushPlan entries) a b := by
  apply plan_of_sortKey_lt ha hb
  have hlt := rank_parent_lt hacyclic h
  have hla := rank_lt_len (mem_flushTables.2 ⟨a, ha, rfl⟩)
  simp only [flushSortKey, hsa, hsb, Prod.Lex.toLex_lt_toLex]
  refine Or.inr ⟨trivial, ?_⟩
  omega

theorem plan_of_run {state : EntityState} (hstate : state = .new ∨ state = .removed) {table : String}
    {a b : FlushEntry} (h : Precedes (orderRows (entries.filter (inRun state table))
      (decide (state = .removed))) a b) : Precedes (flushPlan entries) a b := by
  rw [← flushPlan_filter hstate] at h
  exact precedes_of_filter h

theorem plan_row_insert (hn : entries.Nodup) {table : String}
    (hacyclic : ∀ x, ¬ Relation.TransGen (Refers entries .new table) x x) {a b : FlushEntry}
    (h : Refers entries .new table a b) : Precedes (flushPlan entries) b a := by
  apply plan_of_run (Or.inl rfl)
  refine orderRows_waits (hn.filter _) ?_ h.2.1 h.1 ⟨h.2.2.1, h.2.2.2⟩
  intro x hx
  refine hacyclic x (Relation.transGen_swap.1 (Relation.TransGen.mono ?_ x x hx))
  rintro c d ⟨hc, hd, hne, href⟩
  exact ⟨hd, hc, hne, href⟩

theorem plan_row_delete (hn : entries.Nodup) {table : String}
    (hacyclic : ∀ x, ¬ Relation.TransGen (Refers entries .removed table) x x) {a b : FlushEntry}
    (h : Refers entries .removed table a b) : Precedes (flushPlan entries) a b := by
  apply plan_of_run (Or.inr rfl)
  refine orderRows_waits (hn.filter _) ?_ h.1 h.2.1 ⟨h.2.2.1.symm, h.2.2.2⟩
  intro x hx
  refine hacyclic x (Relation.TransGen.mono ?_ x x hx)
  rintro c d ⟨hc, hd, hne, href⟩
  exact ⟨hc, hd, hne.symm, href⟩

theorem plan_keeps (hn : entries.Nodup) {a b : FlushEntry} (h : Precedes entries a b)
    (hstay : StaysBefore entries a b) : Precedes (flushPlan entries) a b := by
  obtain ⟨hs, hstay⟩ := hstay
  have hstate : ∀ state, ¬ (state = .new ∨ state = .removed) → a.currentState = state →
      Precedes (flushPlan entries) a b := by
    intro state hne hsa
    apply precedes_of_filter (p := fun e => decide (e.currentState = state))
    rw [flushPlan_filter_state hne]
    exact precedes_filter h (by simp [hsa]) (by simp [← hs, hsa])
  have hrows : ∀ state, (state = .new ∨ state = .removed) → a.currentState = state →
      a.tableName = b.tableName →
      (∀ c ∈ entries.filter (inRun state a.tableName),
        a.WaitsFor (decide (state = .removed)) c → b.WaitsFor (decide (state = .removed)) c) →
      Precedes (flushPlan entries) a b := by
    intro state hne hsa ht hw
    apply plan_of_run hne
    refine orderRows_keeps (hn.filter _) (precedes_filter h ?_ ?_) hw
    · exact inRun_iff.2 ⟨hsa, rfl⟩
    · exact inRun_iff.2 ⟨hs ▸ hsa, ht.symm⟩
  cases hsa : a.currentState with
  | new =>
    rw [hsa] at hstay
    exact hrows .new (Or.inl rfl) hsa hstay.1 hstay.2
  | removed =>
    rw [hsa] at hstay
    exact hrows .removed (Or.inr rfl) hsa hstay.1 hstay.2
  | managed => exact hstate .managed (by simp) hsa
  | detached => exact hstate .detached (by simp) hsa

/-- One pass of a flush writes its entries once each: inserts, updates, deletes;
parent tables before child tables and deletes the other way round; a referenced
row before the rows that refer to it and deletes the other way round; and entries
free to stay in the order they were registered in. -/
theorem flush_order (entries : List FlushEntry) (hregistered : (entries.map FlushEntry.address).Nodup)
    (hacyclic : ∀ t, ¬ Relation.TransGen (ParentOf entries) t t) :
    (flushPlan entries).Perm entries ∧
    (∀ a ∈ entries, ∀ b ∈ entries, flushOrderRank a.currentState < flushOrderRank b.currentState →
      Precedes (flushPlan entries) a b) ∧
    (∀ a ∈ entries, ∀ b ∈ entries, ParentOf entries a.tableName b.tableName →
      (a.currentState = .new → b.currentState = .new → Precedes (flushPlan entries) a b) ∧
      (a.currentState = .removed → b.currentState = .removed → Precedes (flushPlan entries) b a)) ∧
    (∀ table, (∀ x, ¬ Relation.TransGen (Refers entries .new table) x x) →
      ∀ a b, Refers entries .new table a b → Precedes (flushPlan entries) b a) ∧
    (∀ table, (∀ x, ¬ Relation.TransGen (Refers entries .removed table) x x) →
      ∀ a b, Refers entries .removed table a b → Precedes (flushPlan entries) a b) ∧
    ∀ a b, Precedes entries a b → StaysBefore entries a b → Precedes (flushPlan entries) a b := by
  have hn : entries.Nodup := hregistered.of_map
  refine ⟨flushPlan_perm, ?_, ?_, ?_, ?_, ?_⟩
  · intro a ha b hb hlt
    apply plan_of_sortKey_lt ha hb
    exact Prod.Lex.toLex_lt_toLex.2 (Or.inl hlt)
  · intro a ha b hb h
    exact ⟨fun hsa hsb => plan_parent_insert hacyclic ha hb hsa hsb h,
      fun hsa hsb => plan_child_delete hacyclic hb ha hsb hsa h⟩
  · exact fun table hrows a b h => plan_row_insert hn hrows h
  · exact fun table hrows a b h => plan_row_delete hn hrows h
  · exact fun a b h hstay => plan_keeps hn h hstay

/-- A row of a table without relations. -/
def looseEntry (address : ℕ) (tableName : String) (currentState : EntityState) : FlushEntry :=
  { address, currentState, tableName, parentTables := [], childTables := [], rowReferences := [],
    pkIsNew := false, primaryKeyNames := [], fields := [] }

/-- A post, whose table belongs to `users`, registered before the user it needs. -/
theorem flush_order_users_posts :
    let post := { looseEntry 0 "posts" .new with parentTables := ["users"] }
    let user := looseEntry 1 "users" .new
    ParentOf [post, user] "users" "posts" ∧ Precedes (flushPlan [post, user]) user post := by
  intro post user
  have hdeclared : ParentOf [post, user] "users" "posts" :=
    ⟨by decide, ⟨user, by simp, rfl⟩, ⟨post, by simp, rfl⟩, post, by simp, Or.inl ⟨rfl, by simp [post]⟩⟩
  have honly : ∀ p c, ParentOf [post, user] p c → p = "users" ∧ c = "posts" := by
    rintro p c ⟨-, -, -, e, he, hd⟩
    rcases List.mem_pair.1 he with rfl | rfl
    · simpa [FlushEntry.Declares, post, looseEntry, and_comm] using hd
    · simp [FlushEntry.Declares, user, looseEntry] at hd
  have hacyclic : ∀ t, ¬ Relation.TransGen (ParentOf [post, user]) t t := by
    intro t h
    obtain ⟨c, hc, -⟩ := Relation.TransGen.head'_iff.1 h
    obtain ⟨p, -, hp⟩ := Relation.TransGen.tail'_iff.1 h
    exact absurd ((honly t c hc).1.symm.trans (honly p t hp).2) (by decide)
  exact ⟨hdeclared, ((flush_order [post, user] (by decide) hacyclic).2.2.1 user (by simp) post (by simp)
    hdeclared).1 rfl rfl⟩

/-- Without any relation, the rows of one table are still written together, ahead
of a row of another table registered between them. -/
theorem flush_order_groups_tables :
    let users := looseEntry 0 "users" .new
    let tags := looseEntry 1 "tags" .new
    let users' := looseEntry 2 "users" .new
    (∀ parent child, ¬ ParentOf [users, tags, users'] parent child) ∧
      (∀ a ∈ [users, tags, users'], ∀ b, ¬ a.RefersTo b) ∧
      Precedes [users, tags, users'] tags users' ∧
      ¬ Precedes (flushPlan [users, tags, users']) tags users' := by
  intro users tags users'
  refine ⟨?_, ?_, ?_, ?_⟩
  · rintro parent child ⟨-, -, -, e, he, hd⟩
    simp only [List.mem_cons, List.not_mem_nil, or_false] at he
    rcases he with rfl | rfl | rfl <;> simp [FlushEntry.Declares, users, tags, users', looseEntry] at hd
  · rintro a ha b ⟨_, _, _, hr, -⟩
    simp only [List.mem_cons, List.not_mem_nil, or_false] at ha
    rcases ha with rfl | rfl | rfl <;> cases hr
  · exact List.sublist_cons_self _ _
  · have hplan : flushPlan [users, tags, users'] = [users, users', tags] := by decide
    rw [hplan]
    unfold Precedes
    decide

end Plan

end TideOrm
