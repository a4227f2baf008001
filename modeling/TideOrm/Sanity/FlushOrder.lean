import TideOrm.Spec.FlushOrder
import TideOrm.Proofs.Topology
import Mathlib.Data.List.TakeWhile

/-! The parts of a flush plan: the tables of a pass and their ranks, the order of
the rows of one table, and the runs these are reordered in. -/

namespace TideOrm

open Lib

section Tables

/-- The relation is declared on either side of it. -/
def FlushEntry.Declares (e : FlushEntry) (parent child : String) : Prop :=
  (child = e.tableName ∧ parent ∈ e.parentTables) ∨ (parent = e.tableName ∧ child ∈ e.childTables)

/-- A declared dependency between two tables of the pass. -/
def ParentOf (entries : List FlushEntry) (parent child : String) : Prop :=
  parent ≠ child ∧ (∃ e ∈ entries, e.tableName = parent) ∧ (∃ e ∈ entries, e.tableName = child) ∧
    ∃ e ∈ entries, e.Declares parent child

theorem flushTables_foldl (entries : List FlushEntry) (tables : List String) (hn : tables.Nodup) :
    (entries.foldl (fun tables entry =>
        if entry.tableName ∈ tables then tables else tables ++ [entry.tableName]) tables).Nodup ∧
      ∀ t, t ∈ entries.foldl (fun tables entry =>
        if entry.tableName ∈ tables then tables else tables ++ [entry.tableName]) tables ↔
          t ∈ tables ∨ ∃ e ∈ entries, e.tableName = t := by
  induction entries generalizing tables with
  | nil => exact ⟨hn, by simp⟩
  | cons e rest ih =>
    simp only [List.foldl_cons]
    split_ifs with hmem
    · obtain ⟨h1, h2⟩ := ih tables hn
      refine ⟨h1, fun t => ?_⟩
      rw [h2 t]
      constructor
      · rintro (h | ⟨e', he', rfl⟩)
        · exact Or.inl h
        · exact Or.inr ⟨e', List.mem_cons_of_mem _ he', rfl⟩
      · rintro (h | ⟨e', he', rfl⟩)
        · exact Or.inl h
        · rcases List.mem_cons.1 he' with rfl | he'
          · exact Or.inl hmem
          · exact Or.inr ⟨e', he', rfl⟩
    · have hn' : (tables ++ [e.tableName]).Nodup := by
        rw [List.nodup_append]
        refine ⟨hn, List.nodup_singleton _, ?_⟩
        rintro x hx y hy rfl
        exact hmem (List.mem_singleton.1 hy ▸ hx)
      obtain ⟨h1, h2⟩ := ih _ hn'
      refine ⟨h1, fun t => ?_⟩
      rw [h2 t, List.mem_append, List.mem_singleton]
      constructor
      · rintro ((h | rfl) | ⟨e', he', rfl⟩)
        · exact Or.inl h
        · exact Or.inr ⟨e, List.mem_cons_self, rfl⟩
        · exact Or.inr ⟨e', List.mem_cons_of_mem _ he', rfl⟩
      · rintro (h | ⟨e', he', rfl⟩)
        · exact Or.inl (Or.inl h)
        · rcases List.mem_cons.1 he' with rfl | he'
          · exact Or.inl (Or.inr rfl)
          · exact Or.inr ⟨e', he', rfl⟩

theorem nodup_flushTables (entries : List FlushEntry) : (flushTables entries).Nodup :=
  (flushTables_foldl entries [] List.nodup_nil).1

theorem mem_flushTables {entries : List FlushEntry} {t : String} :
    t ∈ flushTables entries ↔ ∃ e ∈ entries, e.tableName = t := by
  rw [flushTables, (flushTables_foldl entries [] List.nodup_nil).2 t]
  simp

theorem mem_addDependencyEdge {tables : List String} {edges : List (String × String)}
    {parent child p c : String} :
    (p, c) ∈ addDependencyEdge tables edges parent child ↔
      (p, c) ∈ edges ∨ (parent ≠ child ∧ parent ∈ tables ∧ child ∈ tables ∧ p = parent ∧ c = child) := by
  unfold addDependencyEdge
  split_ifs with hout hin
  · tauto
  · constructor
    · exact Or.inl
    · rintro (h | ⟨-, -, -, rfl, rfl⟩)
      · exact h
      · exact hin
  · simp only [List.mem_append, List.mem_singleton, Prod.mk.injEq]
    tauto

theorem mem_foldl_addDependencyEdge {tables : List String} {p c : String} (f : String → String × String)
    (names : List String) (edges : List (String × String)) :
    (p, c) ∈ names.foldl (fun edges name => addDependencyEdge tables edges (f name).1 (f name).2) edges ↔
      (p, c) ∈ edges ∨ (p ≠ c ∧ p ∈ tables ∧ c ∈ tables ∧ ∃ name ∈ names, f name = (p, c)) := by
  induction names generalizing edges with
  | nil => simp
  | cons name rest ih =>
    rw [List.foldl_cons, ih, mem_addDependencyEdge]
    constructor
    · rintro ((h | ⟨h1, h2, h3, rfl, rfl⟩) | ⟨h1, h2, h3, n, hn, hf⟩)
      · exact Or.inl h
      · exact Or.inr ⟨h1, h2, h3, name, List.mem_cons_self, rfl⟩
      · exact Or.inr ⟨h1, h2, h3, n, List.mem_cons_of_mem _ hn, hf⟩
    · rintro (h | ⟨h1, h2, h3, n, hn, hf⟩)
      · exact Or.inl (Or.inl h)
      · rcases List.mem_cons.1 hn with rfl | hn
        · refine Or.inl (Or.inr ?_)
          rw [hf]
          exact ⟨h1, h2, h3, rfl, rfl⟩
        · exact Or.inr ⟨h1, h2, h3, n, hn, hf⟩

theorem mem_dependencyEdges {entries : List FlushEntry} {p c : String} :
    (p, c) ∈ dependencyEdges (flushTables entries) entries ↔ ParentOf entries p c := by
  have hfold : ∀ (tables : List String) (es : List FlushEntry) (edges : List (String × String)),
      (p, c) ∈ es.foldl (fun edges entry =>
        let edges := entry.parentTables.foldl (fun edges parent =>
          addDependencyEdge tables edges parent entry.tableName) edges
        entry.childTables.foldl (fun edges child =>
          addDependencyEdge tables edges entry.tableName child) edges) edges ↔
      (p, c) ∈ edges ∨ (p ≠ c ∧ p ∈ tables ∧ c ∈ tables ∧ ∃ e ∈ es, e.Declares p c) := by
    intro tables es
    induction es with
    | nil => simp
    | cons e rest ih =>
      intro edges
      simp only [List.foldl_cons]
      rw [ih, mem_foldl_addDependencyEdge (fun child => (e.tableName, child)),
        mem_foldl_addDependencyEdge (fun parent => (parent, e.tableName))]
      simp only [Prod.mk.injEq, List.mem_cons, exists_eq_or_imp, FlushEntry.Declares]
      grind
  rw [dependencyEdges, hfold, ParentOf, mem_flushTables, mem_flushTables]
  simp

end Tables

section Ranks

theorem idxOf_eq_of_getElem? {l : List String} (hn : l.Nodup) {i : ℕ} {t : String}
    (h : l[i]? = some t) : l.idxOf t = i := by
  obtain ⟨hi, rfl⟩ := List.getElem?_eq_some_iff.1 h
  exact hn.idxOf_getElem i hi

theorem ranks_foldl {tables : List String} (htn : tables.Nodup) (l : List ℕ) (k : ℕ)
    (m : HashMap String ℕ) (hl : l.Nodup) (hb : ∀ i ∈ l, i < tables.length)
    (hfresh : ∀ i ∈ l, ∀ t, tables[i]? = some t → m.lookup t = none) :
    ∀ r, r = (l.zipIdx k).foldl (fun ranks (index, rank) =>
        match tables[index]? with
        | some table => ranks.insert table rank
        | none => ranks) m →
      (∀ t ∈ tables, tables.idxOf t ∈ l → r.lookup t = some (k + l.idxOf (tables.idxOf t))) ∧
      (∀ t, tables.idxOf t ∉ l → r.lookup t = m.lookup t) ∧ r.len = m.len + l.length := by
  induction l generalizing k m with
  | nil => rintro r rfl; simp
  | cons i rest ih =>
    rintro r rfl
    obtain ⟨hi, hrest⟩ := List.nodup_cons.1 hl
    have hilt := hb i List.mem_cons_self
    have hget : tables[i]? = some tables[i] := List.getElem?_eq_getElem hilt
    have hidx : tables.idxOf tables[i] = i := idxOf_eq_of_getElem? htn hget
    have hnone := hfresh i List.mem_cons_self _ hget
    simp only [List.zipIdx_cons, List.foldl_cons, hget]
    obtain ⟨h1, h2, h3⟩ := ih (k + 1) (m.insert tables[i] k) hrest
      (fun j hj => hb j (List.mem_cons_of_mem _ hj))
      (fun j hj t ht => by
        have hne : t ≠ tables[i] := by
          rintro rfl
          rw [idxOf_eq_of_getElem? htn ht] at hidx
          exact hi (hidx ▸ hj)
        rw [AList.lookup_insert_ne hne]
        exact hfresh j (List.mem_cons_of_mem _ hj) t ht) _ rfl
    refine ⟨?_, ?_, ?_⟩
    · intro t ht hmem
      rcases List.mem_cons.1 hmem with heq | hmem
      · have hteq : t = tables[i] := by
          rw [← List.getElem_idxOf (List.idxOf_lt_length_of_mem ht)]
          simp only [heq]
        rw [h2 t (heq ▸ hi), hteq, AList.lookup_insert, hidx, List.idxOf_cons_self, Nat.add_zero]
      · have hne : i ≠ tables.idxOf t := fun heq => hi (heq ▸ hmem)
        rw [h1 t ht hmem, List.idxOf_cons_ne _ hne]
        congr 1
        omega
    · intro t hmem
      have hnr : tables.idxOf t ∉ rest := fun h => hmem (List.mem_cons_of_mem _ h)
      have hne : t ≠ tables[i] := by
        rintro rfl
        rw [hidx] at hmem
        exact hmem List.mem_cons_self
      rw [h2 t hnr, AList.lookup_insert_ne hne]
    · rw [h3, AList.len_insert_of_none k hnone, List.length_cons]
      omega

variable (entries : List FlushEntry)

/-- The dependencies between the tables of the pass, by index. -/
def tableEdges : List (ℕ × ℕ) :=
  (dependencyEdges (flushTables entries) entries).map
    fun (parent, child) => ((flushTables entries).idxOf parent, (flushTables entries).idxOf child)

/-- The tables, by index, in the order of their ranks. -/
def tableOrder : List ℕ :=
  (topologicalOrder (flushTables entries).length (tableEdges entries) id).1 ++
    (topologicalOrder (flushTables entries).length (tableEdges entries) id).2

variable {entries}

theorem mem_tableEdges {x y : ℕ} : (x, y) ∈ tableEdges entries ↔ ∃ parent child,
    ParentOf entries parent child ∧ (flushTables entries).idxOf parent = x ∧
      (flushTables entries).idxOf child = y := by
  rw [tableEdges, List.mem_map]
  constructor
  · rintro ⟨⟨parent, child⟩, he, heq⟩
    obtain ⟨hx, hy⟩ := Prod.mk.inj heq
    exact ⟨parent, child, mem_dependencyEdges.1 he, hx, hy⟩
  · rintro ⟨parent, child, h, rfl, rfl⟩
    exact ⟨(parent, child), mem_dependencyEdges.2 h, rfl⟩

theorem idxOf_lt_of_table {t : String} (ht : t ∈ flushTables entries) :
    (flushTables entries).idxOf t < (flushTables entries).length :=
  List.idxOf_lt_length_of_mem ht

theorem tableEdges_bound : ∀ edge ∈ tableEdges entries,
    edge.1 < (flushTables entries).length ∧ edge.2 < (flushTables entries).length := by
  rintro ⟨x, y⟩ h
  obtain ⟨parent, child, ⟨-, hp, hc, -⟩, rfl, rfl⟩ := mem_tableEdges.1 h
  exact ⟨idxOf_lt_of_table (mem_flushTables.2 hp), idxOf_lt_of_table (mem_flushTables.2 hc)⟩

theorem tableEdges_acyclic (h : ∀ t, ¬ Relation.TransGen (ParentOf entries) t t) (x : ℕ) :
    ¬ Relation.TransGen (fun a b => (a, b) ∈ tableEdges entries) x x := by
  intro hx
  refine h _ (Relation.TransGen.lift (fun i => (flushTables entries).getD i "") ?_ x x hx)
  intro a b hab
  obtain ⟨parent, child, hpc, rfl, rfl⟩ := mem_tableEdges.1 hab
  have hname : ∀ t, (∃ e ∈ entries, e.tableName = t) →
      (flushTables entries).getD ((flushTables entries).idxOf t) "" = t := by
    intro t ht
    rw [List.getD_eq_getElem?_getD, List.getElem?_idxOf (mem_flushTables.2 ht), Option.getD_some]
  show ParentOf entries ((flushTables entries).getD ((flushTables entries).idxOf parent) "")
    ((flushTables entries).getD ((flushTables entries).idxOf child) "")
  rw [hname parent hpc.2.1, hname child hpc.2.2.1]
  exact hpc

theorem tableOrder_perm : (tableOrder entries).Perm (List.range (flushTables entries).length) :=
  (topologicalOrder_spec id tableEdges_bound).1

theorem idxOf_mem_tableOrder {t : String} (ht : t ∈ flushTables entries) :
    (flushTables entries).idxOf t ∈ tableOrder entries :=
  tableOrder_perm.mem_iff.2 (List.mem_range.2 (idxOf_lt_of_table ht))

theorem planFlushOrder_ranks :
    (∀ t ∈ flushTables entries, (planFlushOrder entries).rank t =
      (tableOrder entries).idxOf ((flushTables entries).idxOf t)) ∧
    (planFlushOrder entries).ranks.len = (tableOrder entries).length := by
  obtain ⟨hrank, -, hlen⟩ := ranks_foldl (nodup_flushTables entries) (tableOrder entries) 0 ∅
    (tableOrder_perm.nodup_iff.2 List.nodup_range)
    (fun i hi => List.mem_range.1 (tableOrder_perm.mem_iff.1 hi)) (fun _ _ _ _ => rfl)
    (planFlushOrder entries).ranks rfl
  constructor
  · intro t ht
    rw [FlushOrder.rank, hrank t ht (idxOf_mem_tableOrder ht), Option.getD_some, Nat.zero_add]
  · rw [hlen]
    exact Nat.zero_add _

theorem rank_lt_len {t : String} (ht : t ∈ flushTables entries) :
    (planFlushOrder entries).rank t < (planFlushOrder entries).ranks.len := by
  rw [planFlushOrder_ranks.1 t ht, planFlushOrder_ranks.2]
  exact List.idxOf_lt_length_of_mem (idxOf_mem_tableOrder ht)

theorem rank_inj {a b : String} (ha : a ∈ flushTables entries) (hb : b ∈ flushTables entries)
    (h : (planFlushOrder entries).rank a = (planFlushOrder entries).rank b) : a = b := by
  rw [planFlushOrder_ranks.1 a ha, planFlushOrder_ranks.1 b hb] at h
  exact (List.idxOf_inj ha).1 ((List.idxOf_inj (idxOf_mem_tableOrder ha)).1 h)

/-- Without cycles a parent table ranks before its children. -/
theorem rank_parent_lt (hacyclic : ∀ t, ¬ Relation.TransGen (ParentOf entries) t t) {parent child : String}
    (h : ParentOf entries parent child) :
    (planFlushOrder entries).rank parent < (planFlushOrder entries).rank child := by
  have hp := mem_flushTables.2 h.2.1
  have hc := mem_flushTables.2 h.2.2.1
  rw [planFlushOrder_ranks.1 parent hp, planFlushOrder_ranks.1 child hc]
  have hpw : (tableOrder entries).Pairwise fun x y => (y, x) ∉ tableEdges entries := by
    rw [tableOrder, topologicalOrder_acyclic id tableEdges_bound (tableEdges_acyclic hacyclic),
      List.append_nil]
    exact (topologicalOrder_spec id tableEdges_bound).2.1.pairwise
  exact idxOf_lt_idxOf (r := fun x y => (x, y) ∈ tableEdges entries) hpw (idxOf_mem_tableOrder hp)
    (idxOf_mem_tableOrder hc) (fun heq => h.1 ((List.idxOf_inj hp).1 heq))
    (mem_tableEdges.2 ⟨parent, child, h, rfl, rfl⟩)

end Ranks

section Rows

/-- A foreign key of `a` holds the value of the column it references in `b`. -/
def FlushEntry.RefersTo (a b : FlushEntry) : Prop :=
  ∃ foreignKey referenced value, (a.tableName, foreignKey, referenced) ∈ a.rowReferences ∧
    (b.tableName, foreignKey, referenced) ∈ b.rowReferences ∧ a.keyText foreignKey = some value ∧
      b.keyText referenced = some value ∧ ¬ (b.pkIsNew = true ∧ referenced ∈ b.primaryKeyNames)

/-- The row `a` has to wait for `b`: an insert for the rows it refers to, a delete
for the rows that refer to it. -/
def FlushEntry.WaitsFor (referencingFirst : Bool) (a b : FlushEntry) : Prop :=
  a ≠ b ∧ if referencingFirst then b.RefersTo a else a.RefersTo b

theorem mem_rowLinks {e : FlushEntry} {link : RowLink} :
    link ∈ e.rowLinks ↔ (e.tableName, link.foreignKey, link.referenced) ∈ e.rowReferences ∧
      link.provides = (if e.pkIsNew && decide (link.referenced ∈ e.primaryKeyNames) then none
        else e.keyText link.referenced) ∧ link.requires = e.keyText link.foreignKey := by
  simp only [FlushEntry.rowLinks, List.mem_map, List.mem_filter, decide_eq_true_eq]
  constructor
  · rintro ⟨⟨table, foreignKey, referenced⟩, ⟨hmem, rfl⟩, rfl⟩
    exact ⟨hmem, rfl, rfl⟩
  · rintro ⟨hmem, hp, hr⟩
    refine ⟨(e.tableName, link.foreignKey, link.referenced), ⟨hmem, rfl⟩, ?_⟩
    cases link
    simp_all

theorem mem_providers {links : List (List RowLink)} {foreignKey referenced provided : String} {i : ℕ} :
    i ∈ providers links foreignKey referenced provided ↔ ∃ rowLinks, links[i]? = some rowLinks ∧
      ∃ link ∈ rowLinks, link.provides = some provided ∧ link.foreignKey = foreignKey ∧
        link.referenced = referenced := by
  simp only [providers, List.mem_flatMap, List.mem_filterMap, Prod.exists, List.mem_zipIdx_iff_getElem?]
  constructor
  · rintro ⟨rowLinks, j, hj, link, hlink, heq⟩
    split_ifs at heq with h
    cases heq
    exact ⟨rowLinks, hj, link, hlink, h⟩
  · rintro ⟨rowLinks, hj, link, hlink, h⟩
    exact ⟨rowLinks, i, hj, link, hlink, if_pos h⟩

theorem refersTo_iff {a b : FlushEntry} : a.RefersTo b ↔ ∃ link ∈ a.rowLinks, ∃ value,
    link.requires = some value ∧ ∃ link' ∈ b.rowLinks, link'.provides = some value ∧
      link'.foreignKey = link.foreignKey ∧ link'.referenced = link.referenced := by
  constructor
  · rintro ⟨foreignKey, referenced, value, ha, hb, hka, hkb, hnew⟩
    refine ⟨⟨foreignKey, referenced, if a.pkIsNew && decide (referenced ∈ a.primaryKeyNames) then none
      else a.keyText referenced, some value⟩, mem_rowLinks.2 ⟨ha, rfl, hka.symm⟩, value, rfl,
      ⟨foreignKey, referenced, some value, b.keyText foreignKey⟩, mem_rowLinks.2 ⟨hb, ?_, rfl⟩,
      rfl, rfl, rfl⟩
    rw [if_neg (by simpa using hnew), hkb]
  · rintro ⟨link, hl, value, hreq, link', hl', hprov, hfk, href⟩
    obtain ⟨ha, -, hra⟩ := mem_rowLinks.1 hl
    obtain ⟨hb, hpb, -⟩ := mem_rowLinks.1 hl'
    rw [hfk, href] at hb
    rw [hprov, href] at hpb
    split_ifs at hpb with hnew
    exact ⟨link.foreignKey, link.referenced, value, ha, hb, by rw [← hra, hreq], hpb.symm,
      by simpa using hnew⟩

/-- The edges pair each referencing row with the rows it refers to. -/
theorem mem_referenceEdges {rows : List FlushEntry} {referencingFirst : Bool} {i j : ℕ} :
    (i, j) ∈ referenceEdges (rows.map FlushEntry.rowLinks) referencingFirst ↔
      i ≠ j ∧ ∃ a b, rows[i]? = some a ∧ rows[j]? = some b ∧
        if referencingFirst then a.RefersTo b else b.RefersTo a := by
  have hpair : ∀ p : ℕ × ℕ, p ∈ referenceEdges (rows.map FlushEntry.rowLinks) referencingFirst ↔
      ∃ referencing referenced, referenced ≠ referencing ∧
        p = (if referencingFirst then (referencing, referenced) else (referenced, referencing)) ∧
        ∃ a b, rows[referencing]? = some a ∧ rows[referenced]? = some b ∧ a.RefersTo b := by
    intro p
    simp only [referenceEdges, List.mem_flatMap, Prod.exists, List.mem_zipIdx_iff_getElem?,
      List.getElem?_map, Option.map_eq_some_iff]
    constructor
    · rintro ⟨_, referencing, ⟨a, ha, rfl⟩, link, hlink, hp⟩
      cases hreq : link.requires with
      | none => simp [hreq] at hp
      | some required =>
        simp only [hreq, List.mem_map, List.mem_filter, decide_eq_true_eq] at hp
        obtain ⟨referenced, ⟨hprov, hne⟩, rfl⟩ := hp
        obtain ⟨_, hb, link', hlink', h⟩ := mem_providers.1 hprov
        simp only [List.getElem?_map, Option.map_eq_some_iff] at hb
        obtain ⟨b, hb, rfl⟩ := hb
        exact ⟨referencing, referenced, hne, rfl, a, b, ha, hb,
          refersTo_iff.2 ⟨link, hlink, required, hreq, link', hlink', h⟩⟩
    · rintro ⟨referencing, referenced, hne, rfl, a, b, ha, hb, hab⟩
      obtain ⟨link, hlink, required, hreq, link', hlink', h⟩ := refersTo_iff.1 hab
      refine ⟨_, referencing, ⟨a, ha, rfl⟩, link, hlink, ?_⟩
      simp only [hreq, List.mem_map, List.mem_filter, decide_eq_true_eq]
      refine ⟨referenced, ⟨mem_providers.2 ⟨b.rowLinks, ?_, link', hlink', h⟩, hne⟩, rfl⟩
      simp [hb]
  rw [hpair]
  cases referencingFirst with
  | true =>
    simp only [if_true, Prod.mk.injEq]
    constructor
    · rintro ⟨_, _, hne, ⟨rfl, rfl⟩, a, b, ha, hb, h⟩
      exact ⟨hne.symm, a, b, ha, hb, h⟩
    · rintro ⟨hne, a, b, ha, hb, h⟩
      exact ⟨i, j, hne.symm, ⟨rfl, rfl⟩, a, b, ha, hb, h⟩
  | false =>
    simp only [Bool.false_eq_true, if_false, Prod.mk.injEq]
    constructor
    · rintro ⟨_, _, hne, ⟨rfl, rfl⟩, a, b, ha, hb, h⟩
      exact ⟨hne, b, a, hb, ha, h⟩
    · rintro ⟨hne, a, b, ha, hb, h⟩
      exact ⟨j, i, hne, ⟨rfl, rfl⟩, b, a, hb, ha, h⟩

section OrderRows

variable {rows : List FlushEntry} {referencingFirst : Bool}

theorem referenceEdges_bound :
    ∀ edge ∈ referenceEdges (rows.map FlushEntry.rowLinks) referencingFirst,
      edge.1 < rows.length ∧ edge.2 < rows.length := by
  rintro ⟨i, j⟩ h
  obtain ⟨-, a, b, ha, hb, -⟩ := mem_referenceEdges.1 h
  exact ⟨(List.getElem?_eq_some_iff.1 ha).1, (List.getElem?_eq_some_iff.1 hb).1⟩

/-- The rows come out in an order of their indices that is topological and keeps
what it can of the given order. -/
theorem orderRows_indices (rows : List FlushEntry) (referencingFirst : Bool) : ∃ order : List ℕ, order.Perm (List.range rows.length) ∧
    orderRows rows referencingFirst = order.filterMap (fun i => rows[i]?) ∧
    (∀ i j, i < j → j < rows.length →
      (∀ k, (k, i) ∈ referenceEdges (rows.map FlushEntry.rowLinks) referencingFirst →
        (k, j) ∈ referenceEdges (rows.map FlushEntry.rowLinks) referencingFirst) → Precedes order i j) ∧
    ((∀ i, ¬ Relation.TransGen (fun i j =>
        (i, j) ∈ referenceEdges (rows.map FlushEntry.rowLinks) referencingFirst) i i) →
      order.Pairwise fun i j => (j, i) ∉ referenceEdges (rows.map FlushEntry.rowLinks) referencingFirst) := by
  unfold orderRows
  generalize hedges : referenceEdges (rows.map FlushEntry.rowLinks) referencingFirst = edges
  have hbound : ∀ edge ∈ edges, edge.1 < rows.length ∧ edge.2 < rows.length := by
    rw [← hedges]
    exact referenceEdges_bound
  cases hempty : edges.isEmpty with
  | true =>
    have hnil : edges = [] := List.isEmpty_iff.1 hempty
    refine ⟨List.range rows.length, List.Perm.refl _, ?_, ?_, ?_⟩
    · simp only [hempty, if_true, filterMap_range]
    · intro i j hij hj _
      exact precedes_of_pairwise List.pairwise_lt_range (List.mem_range.2 (hij.trans hj))
        (List.mem_range.2 hj) hij.ne hij.le.not_gt
    · intro _
      rw [hnil]
      exact List.pairwise_of_forall fun _ _ => List.not_mem_nil
  | false =>
    refine ⟨_, (topologicalOrder_spec id hbound).1, by simp only [hempty, Bool.false_eq_true, if_false], ?_, ?_⟩
    · intro i j hij hj hsub
      exact topologicalOrder_keeps id hbound hj hij hij.le hsub
    · intro hacyclic
      rw [topologicalOrder_acyclic id hbound hacyclic, List.append_nil]
      exact (topologicalOrder_spec id hbound).2.1.pairwise

theorem orderRows_perm : (orderRows rows referencingFirst).Perm rows := by
  obtain ⟨order, hperm, heq, -⟩ := orderRows_indices rows referencingFirst
  rw [heq]
  have := hperm.filterMap fun i => rows[i]?
  rwa [filterMap_range] at this

theorem mem_referenceEdges_nodup (hn : rows.Nodup) {i j : ℕ} {a b : FlushEntry} (ha : rows[i]? = some a)
    (hb : rows[j]? = some b) :
    (i, j) ∈ referenceEdges (rows.map FlushEntry.rowLinks) referencingFirst ↔
      b.WaitsFor referencingFirst a := by
  obtain ⟨hi, hia⟩ := List.getElem?_eq_some_iff.1 ha
  obtain ⟨hj, hjb⟩ := List.getElem?_eq_some_iff.1 hb
  have hne : i ≠ j ↔ b ≠ a := by
    rw [← hia, ← hjb, ne_eq, ne_eq, hn.getElem_inj_iff, eq_comm]
  rw [mem_referenceEdges, hne, FlushEntry.WaitsFor]
  refine and_congr_right fun _ => ⟨?_, fun h => ⟨a, b, ha, hb, h⟩⟩
  rintro ⟨a', b', ha', hb', h⟩
  rw [ha] at ha'
  rw [hb] at hb'
  cases ha'
  cases hb'
  exact h

/-- A row stays before a later one that waits for all it waits for. -/
theorem orderRows_keeps (hn : rows.Nodup) {a b : FlushEntry} (h : Precedes rows a b)
    (hw : ∀ c ∈ rows, a.WaitsFor referencingFirst c → b.WaitsFor referencingFirst c) :
    Precedes (orderRows rows referencingFirst) a b := by
  obtain ⟨order, hperm, heq, hkeeps, -⟩ :=
    orderRows_indices rows referencingFirst
  obtain ⟨i, j, hij, hi, hj⟩ := precedes_getElem? h
  have hprec : Precedes order i j := by
    apply hkeeps i j hij (List.getElem?_eq_some_iff.1 hj).1
    intro k hk
    obtain ⟨-, c, _, hc, -⟩ := mem_referenceEdges.1 hk
    have hca := (mem_referenceEdges_nodup hn hc hi).1 hk
    exact (mem_referenceEdges_nodup hn hc hj).2 (hw c (List.mem_of_getElem? hc) hca)
  rw [heq]
  have := List.Sublist.filterMap (fun i => rows[i]?) hprec
  simpa [Precedes, hi, hj] using this

/-- Without cycles a row comes after those it waits for. -/
theorem orderRows_waits (hn : rows.Nodup)
    (hacyclic : ∀ x, ¬ Relation.TransGen
      (fun a b => a ∈ rows ∧ b ∈ rows ∧ b.WaitsFor referencingFirst a) x x)
    {a b : FlushEntry} (ha : a ∈ rows) (hb : b ∈ rows) (h : b.WaitsFor referencingFirst a) :
    Precedes (orderRows rows referencingFirst) a b := by
  obtain ⟨order, hperm, heq, -, hpw⟩ :=
    orderRows_indices rows referencingFirst
  obtain ⟨i, hi⟩ := List.mem_iff_getElem?.1 ha
  obtain ⟨j, hj⟩ := List.mem_iff_getElem?.1 hb
  have hedge : (i, j) ∈ referenceEdges (rows.map FlushEntry.rowLinks) referencingFirst :=
    (mem_referenceEdges_nodup hn hi hj).2 h
  have horder := hpw ?_
  · have hprec : Precedes order i j := by
      refine precedes_of_pairwise horder ?_ ?_ (mem_referenceEdges.1 hedge).1 fun hnot => hnot hedge
      · exact hperm.mem_iff.2 (List.mem_range.2 (List.getElem?_eq_some_iff.1 hi).1)
      · exact hperm.mem_iff.2 (List.mem_range.2 (List.getElem?_eq_some_iff.1 hj).1)
    rw [heq]
    have := List.Sublist.filterMap (fun i => rows[i]?) hprec
    simpa [Precedes, hi, hj] using this
  · intro x hx
    refine hacyclic _ (Relation.TransGen.lift (fun i => rows.getD i a) ?_ x x hx)
    intro k l hkl
    obtain ⟨-, c, d, hc, hd, -⟩ := mem_referenceEdges.1 hkl
    have hat : ∀ {n x}, rows[n]? = some x → rows.getD n a = x := fun h => by
      rw [List.getD_eq_getElem?_getD, h, Option.getD_some]
    show rows.getD k a ∈ rows ∧ rows.getD l a ∈ rows ∧ (rows.getD l a).WaitsFor referencingFirst (rows.getD k a)
    rw [hat hc, hat hd]
    exact ⟨List.mem_of_getElem? hc, List.mem_of_getElem? hd, (mem_referenceEdges_nodup hn hc hd).1 hkl⟩

end OrderRows

end Rows

section Runs

theorem sameRun_iff {a b : FlushEntry} :
    sameRun a b = true ↔ b.currentState = a.currentState ∧ b.tableName = a.tableName := by
  simp [sameRun]

/-- A run of one kind and table, reordered. -/
def orderRun (entry : FlushEntry) (run : List FlushEntry) : List FlushEntry :=
  if (entry.currentState = .new ∨ entry.currentState = .removed) ∧ 1 < run.length then
    orderRows run (decide (entry.currentState = .removed))
  else run

theorem orderRun_perm (entry : FlushEntry) (run : List FlushEntry) : (orderRun entry run).Perm run := by
  unfold orderRun
  split_ifs
  · exact orderRows_perm
  · exact List.Perm.refl _

theorem orderRuns_cons (fuel : ℕ) (entry : FlushEntry) (rest : List FlushEntry) :
    orderRuns (fuel + 1) (entry :: rest) =
      orderRun entry (entry :: rest.takeWhile (sameRun entry)) ++
        orderRuns fuel (rest.dropWhile (sameRun entry)) := rfl

theorem run_append (entry : FlushEntry) (rest : List FlushEntry) :
    entry :: rest = (entry :: rest.takeWhile (sameRun entry)) ++ rest.dropWhile (sameRun entry) := by
  rw [List.cons_append, List.takeWhile_append_dropWhile]

theorem mem_run {entry e : FlushEntry} {rest : List FlushEntry}
    (h : e ∈ entry :: rest.takeWhile (sameRun entry)) :
    e.currentState = entry.currentState ∧ e.tableName = entry.tableName := by
  rcases List.mem_cons.1 h with rfl | h
  · exact ⟨rfl, rfl⟩
  · exact sameRun_iff.1 (List.mem_takeWhile_imp h)

theorem orderRuns_perm (fuel : ℕ) (entries : List FlushEntry) : (orderRuns fuel entries).Perm entries := by
  induction fuel generalizing entries with
  | zero => exact List.Perm.refl _
  | succ fuel ih =>
    cases entries with
    | nil => exact List.Perm.refl _
    | cons entry rest =>
      rw [orderRuns_cons]
      refine ((orderRun_perm _ _).append (ih _)).trans ?_
      rw [← run_append]

/-- Reordering inside the runs keeps what only depends on kind and table. -/
theorem orderRuns_pairwise {r : FlushEntry → FlushEntry → Prop}
    (hrefl : ∀ a b, b.currentState = a.currentState → b.tableName = a.tableName → r a b)
    (fuel : ℕ) (entries : List FlushEntry) (h : entries.Pairwise r) :
    (orderRuns fuel entries).Pairwise r := by
  induction fuel generalizing entries with
  | zero => exact h
  | succ fuel ih =>
    cases entries with
    | nil => exact h
    | cons entry rest =>
      rw [orderRuns_cons]
      rw [run_append entry rest, List.pairwise_append] at h
      refine List.pairwise_append.2 ⟨?_, ih _ h.2.1, ?_⟩
      · rw [List.pairwise_iff_forall_sublist]
        intro a b hab
        have ha := mem_run ((orderRun_perm _ _).subset (hab.subset List.mem_cons_self))
        have hb := mem_run ((orderRun_perm _ _).subset
          (hab.subset (List.mem_cons_of_mem _ List.mem_cons_self)))
        exact hrefl a b (hb.1.trans ha.1.symm) (hb.2.trans ha.2.symm)
      · intro a ha b hb
        exact h.2.2 a ((orderRun_perm _ _).subset ha) b ((orderRuns_perm _ _).subset hb)

/-- The entries of one kind and table. -/
def inRun (state : EntityState) (table : String) (e : FlushEntry) : Bool :=
  decide (e.currentState = state) && decide (e.tableName = table)

theorem inRun_iff {state : EntityState} {table : String} {e : FlushEntry} :
    inRun state table e = true ↔ e.currentState = state ∧ e.tableName = table := by
  simp [inRun]

theorem orderRun_eq {entry : FlushEntry} {run : List FlushEntry}
    (hstate : entry.currentState = .new ∨ entry.currentState = .removed) (hne : run ≠ []) :
    orderRun entry run = orderRows run (decide (entry.currentState = .removed)) := by
  unfold orderRun
  by_cases hlen : 1 < run.length
  · rw [if_pos ⟨hstate, hlen⟩]
  · rw [if_neg fun h => hlen h.2]
    -- a single row has nothing to be ordered against
    have hone : run.length = 1 := by
      have := List.length_pos_of_ne_nil hne
      omega
    obtain ⟨row, rfl⟩ := List.length_eq_one_iff.1 hone
    exact (List.perm_singleton.1 orderRows_perm).symm

/-- In sorted entries nothing after a run of inserts or deletes belongs to it. -/
theorem run_ends {key : FlushEntry → ℕ ×ₗ ℕ} {entry : FlushEntry} {rest : List FlushEntry}
    (hsorted : (entry :: rest).Pairwise fun a b => key a ≤ key b)
    (hkey : ∀ e ∈ rest, key entry = key e ↔ sameRun entry e = true) :
    ∀ e ∈ rest.dropWhile (sameRun entry), ¬ sameRun entry e = true := by
  intro e he hsame
  have hmem : rest.dropWhile (sameRun entry) ⊆ rest := (List.dropWhile_suffix _).subset
  have hne : rest.dropWhile (sameRun entry) ≠ [] := List.ne_nil_of_mem he
  obtain ⟨h, tail, heq⟩ := List.exists_cons_of_ne_nil hne
  have hh : sameRun entry h = false := by
    have := List.head?_dropWhile_not (sameRun entry) rest
    rw [heq] at this
    simpa using this
  have hmh : h ∈ rest := hmem (heq ▸ List.mem_cons_self)
  have h1 : key entry ≤ key h := List.rel_of_pairwise_cons hsorted hmh
  have h2 : key h ≤ key e := by
    have hpw := hsorted.of_cons.sublist (List.dropWhile_suffix (sameRun entry)).sublist
    rw [heq] at hpw he
    rcases List.mem_cons.1 he with rfl | he
    · exact le_rfl
    · exact List.rel_of_pairwise_cons hpw he
  have h3 := (hkey e (hmem he)).2 hsame
  have h4 : key entry = key h := le_antisymm h1 (h3 ▸ h2)
  rw [(hkey h hmh).1 h4] at hh
  cases hh

/-- Where the inserts or deletes of a table are adjacent, they come out in the order
of their references. -/
theorem orderRuns_filter (key : FlushEntry → ℕ ×ₗ ℕ) {state : EntityState} {table : String}
    (hstate : state = .new ∨ state = .removed) (fuel : ℕ) (entries : List FlushEntry)
    (hfuel : entries.length ≤ fuel) (hsorted : entries.Pairwise fun a b => key a ≤ key b)
    (hkey : ∀ a ∈ entries, ∀ b ∈ entries, inRun state table a = true →
      (key a = key b ↔ inRun state table b = true)) :
    (orderRuns fuel entries).filter (inRun state table) =
      orderRows (entries.filter (inRun state table)) (decide (state = .removed)) := by
  induction fuel generalizing entries with
  | zero =>
    rw [List.eq_nil_of_length_eq_zero (by omega : entries.length = 0)]
    rfl
  | succ fuel ih =>
    cases entries with
    | nil => rfl
    | cons entry rest =>
      have hrun : ∀ e ∈ orderRun entry (entry :: rest.takeWhile (sameRun entry)),
          inRun state table e = inRun state table entry := by
        intro e he
        obtain ⟨hs, ht⟩ := mem_run ((orderRun_perm _ _).subset he)
        simp only [inRun, hs, ht]
      have hrun' : ∀ e ∈ entry :: rest.takeWhile (sameRun entry),
          inRun state table e = inRun state table entry :=
        fun e he => hrun e ((orderRun_perm _ _).mem_iff.2 he)
      have hsub : rest.dropWhile (sameRun entry) ⊆ entry :: rest :=
        fun e he => List.mem_cons_of_mem _ ((List.dropWhile_suffix _).subset he)
      rw [orderRuns_cons, run_append entry rest, List.filter_append, List.filter_append]
      cases hentry : inRun state table entry with
      | true =>
        obtain ⟨rfl, rfl⟩ := inRun_iff.1 hentry
        have hends : ∀ e ∈ rest.dropWhile (sameRun entry), ¬ sameRun entry e = true :=
          run_ends hsorted fun e he =>
            (hkey entry List.mem_cons_self e (List.mem_cons_of_mem _ he) hentry)
        have hnone : (rest.dropWhile (sameRun entry)).filter
            (inRun entry.currentState entry.tableName) = [] := List.filter_eq_nil_iff.2 hends
        have hnone' : (orderRuns fuel (rest.dropWhile (sameRun entry))).filter
            (inRun entry.currentState entry.tableName) = [] :=
          List.filter_eq_nil_iff.2 fun e he => hends e ((orderRuns_perm _ _).subset he)
        rw [hnone, hnone', List.append_nil, List.append_nil,
          List.filter_eq_self.2 fun e he => (hrun e he).trans hentry,
          List.filter_eq_self.2 fun e he => (hrun' e he).trans hentry]
        exact orderRun_eq hstate (List.cons_ne_nil _ _)
      | false =>
        have hnone : (orderRun entry (entry :: rest.takeWhile (sameRun entry))).filter
            (inRun state table) = [] :=
          List.filter_eq_nil_iff.2 fun e he => by simp [hrun e he, hentry]
        have hnone' : (entry :: rest.takeWhile (sameRun entry)).filter (inRun state table) = [] :=
          List.filter_eq_nil_iff.2 fun e he => by simp [hrun' e he, hentry]
        rw [hnone, hnone', List.nil_append, List.nil_append]
        apply ih
        · have hlen : (rest.dropWhile (sameRun entry)).length ≤ rest.length :=
            (List.dropWhile_suffix _).length_le
          simp only [List.length_cons] at hfuel
          omega
        · exact hsorted.of_cons.sublist (List.dropWhile_suffix _).sublist
        · exact fun a ha b hb => hkey a (hsub ha) b (hsub hb)

/-- Updates and detached entries stay where the sort placed them. -/
theorem orderRuns_filter_state {state : EntityState} (hstate : ¬ (state = .new ∨ state = .removed))
    (fuel : ℕ) (entries : List FlushEntry) :
    (orderRuns fuel entries).filter (fun e => decide (e.currentState = state)) =
      entries.filter fun e => decide (e.currentState = state) := by
  induction fuel generalizing entries with
  | zero => rfl
  | succ fuel ih =>
    cases entries with
    | nil => rfl
    | cons entry rest =>
      rw [orderRuns_cons, List.filter_append, ih]
      conv_rhs => rw [run_append entry rest, List.filter_append]
      congr 1
      by_cases hs : entry.currentState = state
      · rw [orderRun, if_neg fun h => hstate (hs ▸ h.1)]
      · have hno : ∀ e ∈ entry :: rest.takeWhile (sameRun entry), ¬ e.currentState = state :=
          fun e he heq => hs ((mem_run he).1 ▸ heq)
        rw [List.filter_eq_nil_iff.2 fun e he => by simpa using hno e ((orderRun_perm _ _).subset he),
          List.filter_eq_nil_iff.2 fun e he => by simpa using hno e he]

end Runs

end TideOrm
