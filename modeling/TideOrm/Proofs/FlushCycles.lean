import TideOrm.Proofs.FlushOrder

/-! Which tables a flush plan reports as unordered, and what their ranks are: everything on a
cycle of the declared relations or behind one, in the order of registration. -/

namespace TideOrm

open Lib

section Cycles

variable {entries : List FlushEntry}

def OnCycle (entries : List FlushEntry) (table : String) : Prop := Relation.TransGen (ParentOf entries) table table

def OnCommonCycle (entries : List FlushEntry) (a b : String) : Prop :=
  Relation.TransGen (ParentOf entries) a b ∧ Relation.TransGen (ParentOf entries) b a

/-- On a cycle, or reached from one. -/
def BehindCycle (entries : List FlushEntry) (table : String) : Prop :=
  ∃ c, OnCycle entries c ∧ Relation.ReflTransGen (ParentOf entries) c table

def RegisteredBefore (entries : List FlushEntry) (a b : String) : Prop :=
  (flushTables entries).idxOf a < (flushTables entries).idxOf b

theorem OnCycle.behind {table : String} (h : OnCycle entries table) : BehindCycle entries table :=
  ⟨table, h, Relation.ReflTransGen.refl⟩

theorem BehindCycle.child {parent child : String} (h : BehindCycle entries parent) (hchild : ParentOf entries parent child) :
    BehindCycle entries child := by
  obtain ⟨c, hcycle, hreach⟩ := h
  exact ⟨c, hcycle, hreach.tail hchild⟩

theorem OnCycle.table {table : String} (h : OnCycle entries table) : table ∈ flushTables entries := by
  obtain ⟨_, _, hparent⟩ := Relation.TransGen.tail'_iff.1 h
  exact mem_flushTables.2 hparent.2.2.1

theorem BehindCycle.table {table : String} (h : BehindCycle entries table) : table ∈ flushTables entries := by
  obtain ⟨c, hcycle, hreach⟩ := h
  cases hreach with
  | refl => exact hcycle.table
  | tail _ hparent => exact mem_flushTables.2 hparent.2.2.1

/-- The table at an index. -/
def tableAt (entries : List FlushEntry) (index : ℕ) : String := (flushTables entries).getD index ""

theorem tableAt_idxOf {table : String} (h : table ∈ flushTables entries) :
    tableAt entries ((flushTables entries).idxOf table) = table := by
  rw [tableAt, List.getD_eq_getElem?_getD, List.getElem?_idxOf h, Option.getD_some]

theorem parentOf_tableAt {x y : ℕ} (h : (x, y) ∈ tableEdges entries) :
    ParentOf entries (tableAt entries x) (tableAt entries y) := by
  obtain ⟨parent, child, hparent, rfl, rfl⟩ := mem_tableEdges.1 h
  rw [tableAt_idxOf (mem_flushTables.2 hparent.2.1), tableAt_idxOf (mem_flushTables.2 hparent.2.2.1)]
  exact hparent

theorem edge_idxOf {parent child : String} (h : ParentOf entries parent child) :
    ((flushTables entries).idxOf parent, (flushTables entries).idxOf child) ∈ tableEdges entries :=
  mem_tableEdges.2 ⟨parent, child, h, rfl, rfl⟩

/-- Cycles of tables are cycles of their indices. -/
theorem behindCycle_iff {table : String} (htable : table ∈ flushTables entries) : BehindCycle entries table ↔
    ∃ c, Relation.TransGen (fun x y => (x, y) ∈ tableEdges entries) c c ∧
      Relation.ReflTransGen (fun x y => (x, y) ∈ tableEdges entries) c ((flushTables entries).idxOf table) := by
  have hindex : ∀ parent child, ParentOf entries parent child →
      ((flushTables entries).idxOf parent, (flushTables entries).idxOf child) ∈ tableEdges entries :=
    fun _ _ => edge_idxOf
  have hname : ∀ x y, (x, y) ∈ tableEdges entries → ParentOf entries (tableAt entries x) (tableAt entries y) :=
    fun _ _ => parentOf_tableAt
  constructor
  · rintro ⟨c, hcycle, hreach⟩
    exact ⟨(flushTables entries).idxOf c, Relation.TransGen.lift (flushTables entries).idxOf hindex c c hcycle,
      Relation.ReflTransGen.lift (flushTables entries).idxOf hindex c table hreach⟩
  · rintro ⟨c, hcycle, hreach⟩
    have hlift := Relation.ReflTransGen.lift (tableAt entries) hname c _ hreach
    have hat := tableAt_idxOf htable
    change Relation.ReflTransGen (ParentOf entries) (tableAt entries c) (tableAt entries ((flushTables entries).idxOf table)) at hlift
    rw [hat] at hlift
    exact ⟨tableAt entries c, Relation.TransGen.lift (tableAt entries) hname c c hcycle, hlift⟩

theorem idxOf_mem_leftOver {table : String} (htable : table ∈ flushTables entries) :
    (flushTables entries).idxOf table ∈
        (topologicalOrder (flushTables entries).length (tableEdges entries) id).2 ↔ BehindCycle entries table := by
  rw [mem_leftOver id tableEdges_bound, behindCycle_iff htable]
  exact and_iff_right (idxOf_lt_of_table htable)

/-- The tables reported are those on a cycle or behind one. -/
theorem mem_unordered {table : String} : table ∈ (planFlushOrder entries).unordered ↔ BehindCycle entries table := by
  have hunordered : (planFlushOrder entries).unordered =
      (topologicalOrder (flushTables entries).length (tableEdges entries) id).2.filterMap
        fun index => (flushTables entries)[index]? := rfl
  rw [hunordered, List.mem_filterMap]
  constructor
  · rintro ⟨index, hindex, htable⟩
    have hidx := idxOf_eq_of_getElem? (nodup_flushTables entries) htable
    rw [← hidx] at hindex
    exact (idxOf_mem_leftOver (List.mem_of_getElem? htable)).1 hindex
  · intro h
    exact ⟨_, (idxOf_mem_leftOver h.table).2 h, List.getElem?_idxOf h.table⟩

end Cycles

section Ranks

variable {entries : List FlushEntry} {parent child : String}

/-- A table that no cycle is before comes before its children. -/
theorem rank_of_not_behind (h : ParentOf entries parent child) (hfree : ¬ BehindCycle entries parent) :
    (planFlushOrder entries).rank parent < (planFlushOrder entries).rank child := by
  have hp := mem_flushTables.2 h.2.1
  have hc := mem_flushTables.2 h.2.2.1
  obtain ⟨hperm, hgreedy, -⟩ := topologicalOrder_spec (id : ℕ → ℕ) (@tableEdges_bound entries)
  have hordered : ∀ {table : String}, table ∈ flushTables entries → ¬ BehindCycle entries table →
      (flushTables entries).idxOf table ∈
        (topologicalOrder (flushTables entries).length (tableEdges entries) id).1 := by
    intro table htable hnot
    refine (List.mem_append.1 (idxOf_mem_tableOrder htable)).resolve_right fun hleft => hnot ?_
    exact (idxOf_mem_leftOver htable).1 hleft
  rw [planFlushOrder_ranks.1 parent hp, planFlushOrder_ranks.1 child hc, tableOrder,
    List.idxOf_append_of_mem (hordered hp hfree)]
  by_cases hbehind : BehindCycle entries child
  · -- the child is left over, after all that is ordered
    have hnot : (flushTables entries).idxOf child ∉
        (topologicalOrder (flushTables entries).length (tableEdges entries) id).1 := by
      intro hmem
      exact (List.nodup_append.1 (hperm.nodup_iff.2 List.nodup_range)).2.2 _ hmem _ ((idxOf_mem_leftOver hc).2 hbehind) rfl
    have hlt := List.idxOf_lt_length_of_mem (hordered hp hfree)
    rw [List.idxOf_append_of_notMem hnot]
    omega
  · rw [List.idxOf_append_of_mem (hordered hc hbehind)]
    exact hgreedy.idxOf_lt (hordered hc hbehind) (edge_idxOf h)

/-- What is left over keeps the order of registration. -/
theorem rank_of_behind {a b : String} (ha : BehindCycle entries a) (hb : BehindCycle entries b) :
    (planFlushOrder entries).rank a < (planFlushOrder entries).rank b ↔ RegisteredBefore entries a b := by
  obtain ⟨hperm, -, -⟩ := topologicalOrder_spec (id : ℕ → ℕ) (@tableEdges_bound entries)
  obtain ⟨-, -, hdisjoint⟩ := List.nodup_append.1 (hperm.nodup_iff.2 List.nodup_range)
  have hleft := fun {table : String} (h : BehindCycle entries table) => (idxOf_mem_leftOver h.table).2 h
  have hnot : ∀ {table : String}, BehindCycle entries table → (flushTables entries).idxOf table ∉
      (topologicalOrder (flushTables entries).length (tableEdges entries) id).1 :=
    fun h hmem => hdisjoint _ hmem _ (hleft h) rfl
  have hsorted : (topologicalOrder (flushTables entries).length (tableEdges entries) id).2.Pairwise
      fun x y => ¬ y < x := by
    have hrange := (List.pairwise_lt_range (n := (flushTables entries).length)).imp
      fun {x y} (hlt : x < y) => hlt.not_gt
    exact hrange.filter _
  have hforward : ∀ {x y : String}, BehindCycle entries x → BehindCycle entries y → RegisteredBefore entries x y →
      (topologicalOrder (flushTables entries).length (tableEdges entries) id).2.idxOf ((flushTables entries).idxOf x) <
        (topologicalOrder (flushTables entries).length (tableEdges entries) id).2.idxOf ((flushTables entries).idxOf y) :=
    fun hx hy hlt => idxOf_lt_idxOf (r := (· < ·)) hsorted (hleft hx) (hleft hy) hlt.ne hlt
  rw [planFlushOrder_ranks.1 a ha.table, planFlushOrder_ranks.1 b hb.table, tableOrder,
    List.idxOf_append_of_notMem (hnot ha), List.idxOf_append_of_notMem (hnot hb), Nat.add_lt_add_iff_left]
  constructor
  · intro hlt
    rcases Nat.lt_trichotomy ((flushTables entries).idxOf a) ((flushTables entries).idxOf b) with hab | heq | hba
    · exact hab
    · rw [heq] at hlt
      exact absurd hlt (lt_irrefl _)
    · exact absurd (hforward hb ha hba) hlt.not_gt
  · exact hforward ha hb

end Ranks

/-- A flush plan reports the tables on cycles, and ranks every other parent before its child,
exactly when every table behind a cycle is on one, and whatever depends on such a table outside a
common cycle was registered after it. -/
theorem unordered_cycles (entries : List FlushEntry) :
    ((∀ table, table ∈ (planFlushOrder entries).unordered ↔ OnCycle entries table) ∧
      ∀ parent child, ParentOf entries parent child → ¬ OnCommonCycle entries parent child →
        (planFlushOrder entries).rank parent < (planFlushOrder entries).rank child) ↔
      (∀ table, BehindCycle entries table → OnCycle entries table) ∧
        ∀ parent child, ParentOf entries parent child → OnCycle entries parent →
          ¬ OnCommonCycle entries parent child → RegisteredBefore entries parent child := by
  constructor
  · rintro ⟨hreported, hranked⟩
    refine ⟨fun table h => (hreported table).1 (mem_unordered.2 h), fun parent child h hcycle hcommon => ?_⟩
    exact (rank_of_behind hcycle.behind (hcycle.behind.child h)).1 (hranked parent child h hcommon)
  · rintro ⟨hcycles, hregistered⟩
    refine ⟨fun table => mem_unordered.trans ⟨hcycles table, OnCycle.behind⟩, fun parent child h hcommon => ?_⟩
    by_cases hbehind : BehindCycle entries parent
    · exact (rank_of_behind hbehind (hbehind.child h)).2 (hregistered parent child h (hcycles parent hbehind) hcommon)
    · exact rank_of_not_behind h hbehind

/-- `invoices` belongs to `orders`, which is on a cycle with `customers`, and was registered first. -/
theorem unordered_behind_cycle :
    let invoice := { looseEntry 0 "invoices" .new with parentTables := ["orders"] }
    let order := { looseEntry 1 "orders" .new with parentTables := ["customers"] }
    let customer := { looseEntry 2 "customers" .new with parentTables := ["orders"] }
    let entries := [invoice, order, customer]
    "invoices" ∈ (planFlushOrder entries).unordered ∧ ¬ OnCycle entries "invoices" ∧
      ParentOf entries "orders" "invoices" ∧ ¬ OnCommonCycle entries "orders" "invoices" ∧
      ¬ (planFlushOrder entries).rank "orders" < (planFlushOrder entries).rank "invoices" := by
  intro invoice order customer entries
  have hleaf : ∀ child, ¬ ParentOf entries "invoices" child := by
    rintro child ⟨-, -, -, e, he, hdeclares⟩
    simp only [entries, List.mem_cons, List.not_mem_nil, or_false] at he
    rcases he with rfl | rfl | rfl <;>
      simp [FlushEntry.Declares, invoice, order, customer, looseEntry] at hdeclares
  have hnone : ∀ table, ¬ Relation.TransGen (ParentOf entries) "invoices" table := by
    intro table h
    obtain ⟨child, hchild, -⟩ := Relation.TransGen.head'_iff.1 h
    exact hleaf child hchild
  have hparent : ParentOf entries "orders" "invoices" :=
    ⟨by decide, ⟨order, by simp [entries], rfl⟩, ⟨invoice, by simp [entries], rfl⟩, invoice, by simp [entries],
      Or.inl ⟨rfl, by simp [invoice]⟩⟩
  exact ⟨by decide +kernel, hnone _, hparent, fun h => hnone _ h.2, by decide +kernel⟩

end TideOrm
