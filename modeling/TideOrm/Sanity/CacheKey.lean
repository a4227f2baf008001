import TideOrm.Spec.CacheKey
import TideOrm.Lib.PrefixCode

/-! What is fed to the hasher can be read back: each value's own part ends where it says it does. -/

namespace TideOrm

open Lib

section Parts

variable {A B : Type} {ok : A → Prop} {enc : A → List Hashed} {view : A → B}

theorem reads_str : ReadsBack (fun _ => True) hashStr id :=
  ReadsBack.token fun _ _ _ _ h => Hashed.str.inj h

theorem reads_int : ReadsBack (fun _ => True) hashInt id :=
  ReadsBack.token fun _ _ _ _ h => Hashed.int.inj h

theorem reads_nat : ReadsBack (fun _ => True) (fun n : ℕ => hashInt n) id :=
  ReadsBack.token fun _ _ _ _ h => Int.ofNat.inj (Hashed.int.inj h)

theorem reads_option (h : ReadsBack ok enc view) :
    ReadsBack (fun o : Option A => ∀ a ∈ o, ok a) (hashOption enc) (Option.map view) := by
  intro a b r s ha hb heq
  cases a with
  | none =>
    cases b with
    | none => exact ⟨rfl, (List.cons.inj heq).2⟩
    | some b => cases (List.cons.inj heq).1
  | some a =>
    cases b with
    | none => cases (List.cons.inj heq).1
    | some b =>
      obtain ⟨hview, hrest⟩ := h a b r s (ha a rfl) (hb b rfl) (List.cons.inj heq).2
      exact ⟨congrArg some hview, hrest⟩

theorem reads_list (h : ReadsBack ok enc view) :
    ReadsBack (fun xs : List A => ∀ a ∈ xs, ok a) (hashList enc) (List.map view) :=
  h.counted fun _ _ heq => Int.ofNat.inj (Hashed.int.inj heq)

/-- A part of which everything is read. -/
theorem reads_list_id {enc : A → List Hashed} (h : ReadsBack (fun _ => True) enc id) :
    ReadsBack (fun _ => True) (hashList enc) id :=
  ((reads_list h).through (fun a b _ _ hab => by simpa using hab)).weaken fun _ _ _ _ => trivial

theorem reads_option_id {enc : A → List Hashed} (h : ReadsBack (fun _ => True) enc id) :
    ReadsBack (fun _ => True) (hashOption enc) id :=
  ((reads_option h).through (fun a b _ _ hab => by simpa using hab)).weaken fun _ _ _ _ => trivial

end Parts

section Values

theorem reads_jsonNumber : ReadsBack (fun n => JsonNumber.held n = true) hashJsonNumber id := by
  intro a b r s ha hb heq
  cases a with
  | posInt n =>
    cases b with
    | posInt m =>
      simp only [hashJsonNumber] at heq
      split_ifs at heq
      · simpa [Int.ofNat_inj] using heq
      · simp at heq
      · simp at heq
      · simpa [Int.ofNat_inj] using heq
    | negInt m =>
      simp only [JsonNumber.held, decide_eq_true_eq] at hb
      simp only [hashJsonNumber] at heq
      split_ifs at heq
      · simp only [List.cons_append, List.nil_append, List.cons.injEq, Hashed.int.injEq, true_and] at heq
        omega
      · simp at heq
    | float bits =>
      simp only [hashJsonNumber] at heq
      split_ifs at heq <;> simp at heq
  | negInt n =>
    cases b with
    | posInt m =>
      simp only [JsonNumber.held, decide_eq_true_eq] at ha
      simp only [hashJsonNumber] at heq
      split_ifs at heq
      · simp only [List.cons_append, List.nil_append, List.cons.injEq, Hashed.int.injEq, true_and] at heq
        omega
      · simp at heq
    | negInt m => simpa [hashJsonNumber] using heq
    | float bits => simp [hashJsonNumber] at heq
  | float bits =>
    cases b with
    | posInt m =>
      simp only [hashJsonNumber] at heq
      split_ifs at heq <;> simp at heq
    | negInt m => simp [hashJsonNumber] at heq
    | float bits' =>
      simp only [hashJsonNumber, List.cons_append, List.nil_append, List.cons.injEq, Hashed.int.injEq, Int.ofNat_inj,
        true_and] at heq
      exact ⟨congrArg JsonNumber.float (UInt64.toNat_inj.1 heq.1), heq.2⟩

mutual

theorem hashJsonValue_reads : ∀ (a b : Json) (r s : List Hashed), a.held = true → b.held = true →
    hashJsonValue a ++ r = hashJsonValue b ++ s → a = b ∧ r = s := by
  intro a b r s ha hb heq
  cases a with
  | null => cases b <;> simp_all [hashJsonValue]
  | bool x => cases b <;> simp_all [hashJsonValue]
  | string x => cases b <;> simp_all [hashJsonValue]
  | number n =>
    cases b with
    | number m =>
      obtain ⟨hn, hrest⟩ := reads_jsonNumber n m r s ha hb (List.cons.inj heq).2
      exact ⟨congrArg Json.number hn, hrest⟩
    | null | bool _ | string _ | array _ | object _ => simp [hashJsonValue] at heq
  | array items =>
    cases b with
    | array others =>
      simp only [hashJsonValue, List.cons_append, List.cons.injEq, Hashed.int.injEq, Int.ofNat_inj, true_and] at heq
      obtain ⟨hitems, hrest⟩ := hashJsonAll_reads items others r s heq.1 ha hb heq.2
      exact ⟨congrArg Json.array hitems, hrest⟩
    | null | bool _ | string _ | number _ | object _ => simp [hashJsonValue] at heq
  | object fields =>
    cases b with
    | object others =>
      simp only [hashJsonValue, List.cons_append, List.cons.injEq, Hashed.int.injEq, Int.ofNat_inj, true_and] at heq
      obtain ⟨hfields, hrest⟩ := hashJsonFields_reads fields others r s heq.1 ha hb heq.2
      exact ⟨congrArg Json.object hfields, hrest⟩
    | null | bool _ | string _ | number _ | array _ => simp [hashJsonValue] at heq

theorem hashJsonAll_reads : ∀ (xs ys : List Json) (r s : List Hashed), xs.length = ys.length →
    Json.allHeld xs = true → Json.allHeld ys = true → hashJsonAll xs ++ r = hashJsonAll ys ++ s → xs = ys ∧ r = s := by
  intro xs ys r s hlen hx hy heq
  cases xs with
  | nil =>
    obtain rfl := List.length_eq_zero_iff.1 hlen.symm
    exact ⟨rfl, heq⟩
  | cons x xs =>
    cases ys with
    | nil => cases hlen
    | cons y ys =>
      rw [Json.allHeld, Bool.and_eq_true] at hx hy
      rw [hashJsonAll, hashJsonAll, List.append_assoc, List.append_assoc] at heq
      obtain ⟨rfl, hmore⟩ := hashJsonValue_reads x y _ _ hx.1 hy.1 heq
      obtain ⟨rfl, hrest⟩ := hashJsonAll_reads xs ys r s (Nat.succ.inj hlen) hx.2 hy.2 hmore
      exact ⟨rfl, hrest⟩

theorem hashJsonFields_reads : ∀ (xs ys : List (String × Json)) (r s : List Hashed), xs.length = ys.length →
    Json.fieldsHeld xs = true → Json.fieldsHeld ys = true → hashJsonFields xs ++ r = hashJsonFields ys ++ s →
    xs = ys ∧ r = s := by
  intro xs ys r s hlen hx hy heq
  cases xs with
  | nil =>
    obtain rfl := List.length_eq_zero_iff.1 hlen.symm
    exact ⟨rfl, heq⟩
  | cons x xs =>
    cases ys with
    | nil => cases hlen
    | cons y ys =>
      obtain ⟨key, x⟩ := x
      obtain ⟨key', y⟩ := y
      rw [Json.fieldsHeld, Bool.and_eq_true] at hx hy
      rw [hashJsonFields, hashJsonFields, List.cons_append, List.cons_append, List.append_assoc, List.append_assoc,
        List.cons.injEq, Hashed.str.injEq] at heq
      obtain ⟨rfl, hvalue⟩ := heq
      obtain ⟨rfl, hmore⟩ := hashJsonValue_reads x y _ _ hx.1 hy.1 hvalue
      obtain ⟨rfl, hrest⟩ := hashJsonFields_reads xs ys r s (Nat.succ.inj hlen) hx.2 hy.2 hmore
      exact ⟨rfl, hrest⟩

end

theorem reads_json : ReadsBack (fun value => Json.held value = true) hashJsonValue id := hashJsonValue_reads

theorem reads_jsonValues : ReadsBack (fun values => Json.allHeld values = true) hashJsonValues id := by
  intro xs ys r s hx hy heq
  simp only [hashJsonValues, List.cons_append, List.cons.injEq, Hashed.int.injEq, Int.ofNat_inj] at heq
  exact hashJsonAll_reads xs ys r s heq.1 hx hy heq.2

end Values

section Clauses

theorem reads_order : ReadsBack (fun _ => True) (fun order : Order => [Hashed.discriminant order.discriminant]) id := by
  refine ReadsBack.token fun a b _ _ h => ?_
  cases a <;> cases b <;> first | rfl | cases h

theorem reads_orderTerm : ReadsBack (fun _ => True) hashOrderTerm id :=
  ((ReadsBack.token fun _ _ _ _ h => Hashed.str.inj h).append
    (fun a b r s _ _ h => reads_order a.2 b.2 r s trivial trivial h)).through fun _ _ _ _ h => h

theorem reads_join : ReadsBack (fun _ => True) hashJoin id := by
  intro a b r s _ _ heq
  obtain ⟨type, table, tableAlias, left, right⟩ := a
  obtain ⟨type', table', tableAlias', left', right'⟩ := b
  simp only [hashJoin, List.cons_append, List.nil_append, List.append_assoc, List.cons.injEq,
    Hashed.discriminant.injEq, Hashed.str.injEq] at heq
  obtain ⟨htype, rfl, hmore⟩ := heq
  obtain ⟨hAlias, hcolumns⟩ := reads_option_id reads_str tableAlias tableAlias' _ _ trivial trivial hmore
  obtain rfl : type = type' := by
    cases type <;> cases type' <;> first | rfl | cases htype
  obtain rfl : tableAlias = tableAlias' := hAlias
  simp only [List.cons.injEq, Hashed.str.injEq] at hcolumns
  obtain ⟨rfl, rfl, hrest⟩ := hcolumns
  exact ⟨rfl, hrest⟩

theorem reads_frameBound : ReadsBack (fun _ => True) hashFrameBound id := by
  intro a b r s _ _ heq
  cases a <;> cases b <;>
    simp only [hashFrameBound, List.cons_append, List.nil_append, List.cons.injEq, Hashed.discriminant.injEq,
      Hashed.int.injEq, Int.ofNat_inj, Nat.reduceEqDiff, false_and, true_and] at heq
  case preceding.preceding | following.following =>
    obtain ⟨rfl, hrest⟩ := heq
    exact ⟨rfl, hrest⟩
  all_goals exact ⟨rfl, heq⟩

theorem reads_frameType : ReadsBack (fun _ => True) hashFrameType id := by
  refine ReadsBack.token fun a b _ _ h => ?_
  cases a <;> cases b <;> first | rfl | cases h

theorem reads_shift : ReadsBack (fun _ => True) (fun shift : Option ℤ × Option String =>
    hashOption hashInt shift.1 ++ hashOption hashStr shift.2) id :=
  (ReadsBack.append (fun a b r s _ _ h => reads_option_id reads_int a.1 b.1 r s trivial trivial h)
    (fun a b r s _ _ h => reads_option_id reads_str a.2 b.2 r s trivial trivial h)).through fun _ _ _ _ h => h

theorem reads_windowFunctionType : ReadsBack (fun _ => True) hashWindowFunctionType id := by
  intro a b r s _ _ heq
  cases a <;> cases b <;>
    simp only [hashWindowFunctionType, List.cons_append, List.nil_append, List.cons.injEq, Hashed.discriminant.injEq,
      Hashed.str.injEq, Hashed.int.injEq, Int.ofNat_inj, Nat.reduceEqDiff, false_and, true_and] at heq
  case rowNumber.rowNumber | rank.rank | denseRank.denseRank => exact ⟨rfl, heq⟩
  case ntile.ntile | firstValue.firstValue | lastValue.lastValue | sum.sum | avg.avg | min.min | max.max | custom.custom =>
    obtain ⟨rfl, hrest⟩ := heq
    exact ⟨rfl, hrest⟩
  case nthValue.nthValue =>
    obtain ⟨rfl, rfl, hrest⟩ := heq
    exact ⟨rfl, hrest⟩
  case count.count column column' =>
    obtain ⟨hcolumn, hrest⟩ := reads_option_id reads_str column column' r s trivial trivial heq
    exact ⟨congrArg WindowFunctionType.count hcolumn, hrest⟩
  case lag.lag column offset defaultSql column' offset' defaultSql' =>
    obtain ⟨rfl, hshift⟩ := heq
    obtain ⟨hpair, hrest⟩ := reads_shift (offset, defaultSql) (offset', defaultSql') r s trivial trivial hshift
    obtain ⟨rfl, rfl⟩ := Prod.mk.inj hpair
    exact ⟨rfl, hrest⟩
  case lead.lead column offset defaultSql column' offset' defaultSql' =>
    obtain ⟨rfl, hshift⟩ := heq
    obtain ⟨hpair, hrest⟩ := reads_shift (offset, defaultSql) (offset', defaultSql') r s trivial trivial hshift
    obtain ⟨rfl, rfl⟩ := Prod.mk.inj hpair
    exact ⟨rfl, hrest⟩

theorem reads_window : ReadsBack (fun _ => True) hashWindow id := by
  intro a b r s _ _ heq
  obtain ⟨function, partitionBy, orderBy, frameType, frameStart, frameEnd, outputAlias⟩ := a
  obtain ⟨function', partitionBy', orderBy', frameType', frameStart', frameEnd', outputAlias'⟩ := b
  simp only [hashWindow, List.append_assoc] at heq
  obtain ⟨hfunction, heq⟩ := reads_windowFunctionType _ _ _ _ trivial trivial heq
  obtain ⟨hpartition, heq⟩ := reads_list_id reads_str _ _ _ _ trivial trivial heq
  obtain ⟨horder, heq⟩ := reads_list_id reads_orderTerm _ _ _ _ trivial trivial heq
  obtain ⟨htype, heq⟩ := reads_option_id reads_frameType _ _ _ _ trivial trivial heq
  obtain ⟨hstart, heq⟩ := reads_option_id reads_frameBound _ _ _ _ trivial trivial heq
  obtain ⟨hstop, heq⟩ := reads_option_id reads_frameBound _ _ _ _ trivial trivial heq
  obtain ⟨hAlias, hrest⟩ := List.cons.inj heq
  simp only [id_eq] at hfunction hpartition horder htype hstart hstop
  exact ⟨by rw [hfunction, hpartition, horder, htype, hstart, hstop, Hashed.str.inj hAlias], hrest⟩

end Clauses

section Fragments

variable {V : Type} {debug : V → String} (hdebug : Function.Injective debug)

include hdebug

theorem reads_boundValues : ReadsBack (fun _ => True) (hashBoundValues debug) id :=
  reads_list_id (ReadsBack.token fun _ _ _ _ h => hdebug (Hashed.str.inj h))

theorem reads_fragment :
    ReadsBack (fun _ => True) (fun fragment : String × List V => hashFragment debug fragment.1 fragment.2) id := by
  intro a b r s _ _ heq
  obtain ⟨hsql, hmore⟩ := List.cons.inj heq
  obtain ⟨hvalues, hrest⟩ := reads_boundValues hdebug _ _ _ _ trivial trivial hmore
  exact ⟨Prod.ext (Hashed.str.inj hsql) hvalues, hrest⟩

theorem reads_conditionValue : ReadsBack (fun value => ConditionValue.held value = true) (hashConditionValue debug) id := by
  intro a b r s ha hb heq
  cases a <;> cases b <;>
    simp only [hashConditionValue, List.cons_append, List.nil_append, List.append_assoc, List.cons.injEq,
      Hashed.discriminant.injEq, Hashed.str.injEq, Nat.reduceEqDiff, false_and, true_and] at heq
  case none.none => exact ⟨rfl, heq⟩
  case rawExpr.rawExpr | column.column | invalid.invalid =>
    obtain ⟨rfl, hrest⟩ := heq
    exact ⟨rfl, hrest⟩
  case single.single value value' =>
    obtain ⟨hvalue, hrest⟩ := reads_json value value' r s ha hb heq
    exact ⟨congrArg ConditionValue.single hvalue, hrest⟩
  case list.list values values' =>
    obtain ⟨hvalues, hrest⟩ := reads_jsonValues values values' r s ha hb heq
    exact ⟨congrArg ConditionValue.list hvalues, hrest⟩
  case documentList.documentList values sqlNull values' sqlNull' =>
    obtain ⟨hvalues, hmore⟩ := reads_jsonValues values values' _ _ ha hb heq
    obtain ⟨hnull, hrest⟩ := List.cons.inj hmore
    exact ⟨congrArg₂ ConditionValue.documentList hvalues (Hashed.bool.inj hnull), hrest⟩
  case range.range low high low' high' =>
    rw [ConditionValue.held, Bool.and_eq_true] at ha hb
    obtain ⟨hlow, hmore⟩ := reads_json low low' _ _ ha.1 hb.1 heq
    obtain ⟨hhigh, hrest⟩ := reads_json high high' r s ha.2 hb.2 hmore
    exact ⟨congrArg₂ ConditionValue.range hlow hhigh, hrest⟩
  case rawExprWithValues.rawExprWithValues sql values sql' values' =>
    obtain ⟨hpair, hrest⟩ := reads_fragment hdebug (sql, values) (sql', values') r s trivial trivial heq
    obtain ⟨rfl, rfl⟩ := Prod.mk.inj hpair
    exact ⟨rfl, hrest⟩
  case rawTemplate.rawTemplate sql values sql' values' =>
    obtain ⟨hpair, hrest⟩ := reads_fragment hdebug (sql, values) (sql', values') r s trivial trivial heq
    obtain ⟨rfl, rfl⟩ := Prod.mk.inj hpair
    exact ⟨rfl, hrest⟩

theorem reads_whereCondition :
    ReadsBack (fun condition : WhereCondition V => condition.value.held = true) (hashWhereCondition debug) id := by
  intro a b r s ha hb heq
  obtain ⟨column, operator, value⟩ := a
  obtain ⟨column', operator', value'⟩ := b
  simp only [hashWhereCondition, List.cons_append, List.cons.injEq, Hashed.str.injEq, Hashed.discriminant.injEq] at heq
  obtain ⟨rfl, hoperator, hvalue⟩ := heq
  obtain ⟨hvalue, hrest⟩ := reads_conditionValue hdebug value value' r s ha hb hvalue
  obtain rfl : operator = operator' := by
    cases operator <;> cases operator' <;> first | rfl | cases hoperator
  exact ⟨congrArg (WhereCondition.mk column operator) hvalue, hrest⟩

omit hdebug in
mutual

theorem hashOrGroup_reads (hdebug : Function.Injective debug) : ∀ (a b : OrGroup (WhereCondition V)) (r s : List Hashed),
    (∀ condition ∈ a.collectConditions, condition.value.held = true) →
    (∀ condition ∈ b.collectConditions, condition.value.held = true) →
    hashOrGroup debug a ++ r = hashOrGroup debug b ++ s → a = b ∧ r = s := by
  intro a b r s ha hb heq
  cases a with
  | mk conditions nested op =>
    cases b with
    | mk conditions' nested' op' =>
      simp only [OrGroup.collectConditions, List.forall_mem_append] at ha hb
      simp only [hashOrGroup, List.cons_append, List.append_assoc, List.cons.injEq, Hashed.discriminant.injEq] at heq
      obtain ⟨hop, hmore⟩ := heq
      obtain ⟨hconditions, hnested⟩ := reads_list (reads_whereCondition hdebug) conditions conditions' _ _ ha.1 hb.1 hmore
      simp only [List.map_id, List.cons.injEq, Hashed.int.injEq, Int.ofNat_inj] at hconditions hnested
      obtain ⟨hgroups, hrest⟩ := hashOrGroups_reads hdebug nested nested' r s hnested.1 ha.2 hb.2 hnested.2
      obtain rfl : op = op' := by
        cases op <;> cases op' <;> first | rfl | cases hop
      exact ⟨by rw [hconditions, hgroups], hrest⟩

theorem hashOrGroups_reads (hdebug : Function.Injective debug) : ∀ (xs ys : List (OrGroup (WhereCondition V))) (r s : List Hashed),
    xs.length = ys.length →
    (∀ condition ∈ OrGroup.collectAll xs, condition.value.held = true) →
    (∀ condition ∈ OrGroup.collectAll ys, condition.value.held = true) →
    hashOrGroups debug xs ++ r = hashOrGroups debug ys ++ s → xs = ys ∧ r = s := by
  intro xs ys r s hlen hx hy heq
  cases xs with
  | nil =>
    obtain rfl := List.length_eq_zero_iff.1 hlen.symm
    exact ⟨rfl, heq⟩
  | cons x xs =>
    cases ys with
    | nil => cases hlen
    | cons y ys =>
      simp only [OrGroup.collectAll, List.forall_mem_append] at hx hy
      rw [hashOrGroups, hashOrGroups, List.append_assoc, List.append_assoc] at heq
      obtain ⟨hgroup, hmore⟩ := hashOrGroup_reads hdebug x y _ _ hx.1 hy.1 heq
      obtain ⟨hgroups, hrest⟩ := hashOrGroups_reads hdebug xs ys r s (Nat.succ.inj hlen) hx.2 hy.2 hmore
      exact ⟨by rw [hgroup, hgroups], hrest⟩

end

theorem reads_subquery : ReadsBack (fun _ => True) (hashSubquery debug)
    fun subquery : SubquerySelect V => (subquery.querySql, subquery.params, subquery.outputAlias) := by
  intro a b r s _ _ heq
  simp only [hashSubquery, List.append_assoc, List.cons_append, List.nil_append] at heq
  obtain ⟨hfragment, hmore⟩ := reads_fragment hdebug (a.querySql, a.params) (b.querySql, b.params) _ _ trivial trivial heq
  obtain ⟨hAlias, hrest⟩ := List.cons.inj hmore
  obtain ⟨hsql, hparams⟩ := Prod.mk.inj hfragment
  exact ⟨Prod.ext hsql (Prod.ext hparams (Hashed.str.inj hAlias)), hrest⟩

theorem reads_union : ReadsBack (fun _ => True) (hashUnion debug)
    fun union : UnionClause V => (union.querySql, union.params, union.unionType) := by
  intro a b r s _ _ heq
  simp only [hashUnion, List.append_assoc, List.cons_append, List.nil_append] at heq
  obtain ⟨hfragment, hmore⟩ := reads_fragment hdebug (a.querySql, a.params) (b.querySql, b.params) _ _ trivial trivial heq
  obtain ⟨htype, hrest⟩ := List.cons.inj hmore
  obtain ⟨hsql, hparams⟩ := Prod.mk.inj hfragment
  have hsame : a.unionType = b.unionType := by
    have hindex := Hashed.discriminant.inj htype
    cases ha : a.unionType <;> cases hb : b.unionType <;> rw [ha, hb] at hindex <;> first | rfl | cases hindex
  exact ⟨Prod.ext hsql (Prod.ext hparams hsame), hrest⟩

theorem reads_cte : ReadsBack (fun _ => True) (hashCte debug) fun cte : Cte V => cte := by
  intro a b r s _ _ heq
  obtain ⟨name, columns, querySql, recursive, params⟩ := a
  obtain ⟨name', columns', querySql', recursive', params'⟩ := b
  simp only [hashCte, List.append_assoc, List.cons_append, List.cons.injEq, Hashed.str.injEq] at heq
  obtain ⟨rfl, hbody⟩ := heq
  obtain ⟨hfragment, hmore⟩ := reads_fragment hdebug (querySql, params) (querySql', params') _ _ trivial trivial hbody
  obtain ⟨hrecursive, hcolumns⟩ := List.cons.inj hmore
  obtain ⟨hcolumns, hrest⟩ := reads_option_id (reads_list_id reads_str) columns columns' _ _ trivial trivial hcolumns
  obtain ⟨rfl, rfl⟩ := Prod.mk.inj hfragment
  obtain rfl : columns = columns' := hcolumns
  obtain rfl := Hashed.bool.inj hrecursive
  exact ⟨rfl, hrest⟩

end Fragments

/-! The HAVING clauses, the union arms and the CTEs follow one another without a length. An arm is
a fragment like a HAVING clause, with a discriminant behind it, and a CTE begins with two texts. -/

section Tails

variable {V : Type}

def isStr : Hashed → Prop
  | .str _ => True
  | _ => False

def isDiscriminant : Hashed → Prop
  | .discriminant _ => True
  | _ => False

/-- What follows the CTEs. -/
def AfterCtes (r : List Hashed) : Prop := ∃ n l, r = .int n :: l

def AfterUnions (debug : V → String) (r : List Hashed) : Prop :=
  ∃ (ctes : List (Cte V)) (tail : List Hashed), AfterCtes tail ∧ r = ctes.flatMap (hashCte debug) ++ tail

def AfterHaving (debug : V → String) (r : List Hashed) : Prop :=
  ∃ (unions : List (UnionClause V)) (tail : List Hashed), AfterUnions debug tail ∧
    r = unions.flatMap (hashUnion debug) ++ tail

variable {debug : V → String}

/-- What follows the unions begins with an integer or with two texts. -/
theorem AfterUnions.cases {r : List Hashed} (h : AfterUnions debug r) :
    (∃ n l, r = .int n :: l) ∨ ∃ text text' l, r = .str text :: .str text' :: l := by
  obtain ⟨ctes, tail, ⟨n, l, rfl⟩, rfl⟩ := h
  cases ctes with
  | nil => exact .inl ⟨n, l, rfl⟩
  | cons cte ctes => exact .inr ⟨cte.name, cte.querySql, _, rfl⟩

theorem fragment_ne {sql : String} {params : List V} {r s : List Hashed} (h : AfterUnions debug s) :
    hashFragment debug sql params ++ r ≠ s := by
  intro heq
  rcases h.cases with ⟨n, l, rfl⟩ | ⟨text, text', l, rfl⟩
  · cases (List.cons.inj heq).1
  · cases (List.cons.inj (List.cons.inj heq).2).1

variable (hdebug : Function.Injective debug)

include hdebug

theorem ctes_read {xs ys : List (Cte V)} {r s : List Hashed} (hr : AfterCtes r) (hs : AfterCtes s)
    (heq : xs.flatMap (hashCte debug) ++ r = ys.flatMap (hashCte debug) ++ s) : xs = ys ∧ r = s := by
  have hnot : ∀ r, AfterCtes r → ∀ t ∈ r.head?, ¬isStr t := by
    rintro _ ⟨n, l, rfl⟩
    simp [isStr]
  obtain ⟨hviews, hrest⟩ := (reads_cte hdebug).flatMap_of_head (fun cte => ⟨_, _, rfl, trivial⟩) (fun _ _ => trivial)
    (fun _ _ => trivial) (hnot r hr) (hnot s hs) heq
  exact ⟨by simpa using hviews, hrest⟩

theorem unions_read {xs ys : List (UnionClause V)} {r s : List Hashed} (hr : AfterUnions debug r)
    (hs : AfterUnions debug s) (heq : xs.flatMap (hashUnion debug) ++ r = ys.flatMap (hashUnion debug) ++ s) :
    (xs.map fun union => (union.querySql, union.params, union.unionType)) =
      (ys.map fun union => (union.querySql, union.params, union.unionType)) ∧ r = s := by
  refine (reads_union hdebug).flatMap (fun _ => True) (AfterUnions debug) (fun _ _ => trivial) (fun _ _ _ => trivial) ?_
    xs ys r s (fun _ _ => trivial) (fun _ _ => trivial) hr hs heq
  intro union r s _ hrest
  rw [hashUnion, List.append_assoc]
  exact fragment_ne hrest

theorem having_read {xs ys : List (String × List V)} {r s : List Hashed} (hr : AfterHaving debug r)
    (hs : AfterHaving debug s) (heq : xs.flatMap (fun clause => hashFragment debug clause.1 clause.2) ++ r =
      ys.flatMap (fun clause => hashFragment debug clause.1 clause.2) ++ s) : xs = ys ∧ r = s := by
  have hnext : ∀ r, AfterHaving debug r → ∀ t ∈ r.head?, ¬isDiscriminant t := by
    rintro _ ⟨unions, tail, htail, rfl⟩
    cases unions with
    | nil => rcases htail.cases with ⟨n, l, rfl⟩ | ⟨text, text', l, rfl⟩ <;> simp [isDiscriminant]
    | cons union unions => simp [hashUnion, hashFragment, isDiscriminant]
  have hstep : ∀ (clause : String × List V) (r : List Hashed), (∀ t ∈ r.head?, ¬isDiscriminant t) →
      ∀ t ∈ (hashFragment debug clause.1 clause.2 ++ r).head?, ¬isDiscriminant t := by
    intro clause r _
    simp [hashFragment, isDiscriminant]
  have hend : ∀ (clause : String × List V) (r s : List Hashed), (∀ t ∈ r.head?, ¬isDiscriminant t) →
      AfterHaving debug s → hashFragment debug clause.1 clause.2 ++ r ≠ s := by
    rintro clause r _ hcont ⟨unions, tail, htail, rfl⟩ heq
    cases unions with
    | nil => exact fragment_ne htail heq
    | cons union unions =>
      -- a discriminant follows the arm's fragment, and none a HAVING clause
      rw [List.flatMap_cons, hashUnion, List.append_assoc, List.append_assoc] at heq
      obtain ⟨-, hafter⟩ := reads_fragment hdebug clause (union.querySql, union.params) _ _ trivial trivial heq
      rw [hafter] at hcont
      exact hcont _ rfl trivial
  obtain ⟨hviews, hrest⟩ := (reads_fragment hdebug).flatMap _ _ hnext hstep hend xs ys r s (fun _ _ => trivial)
    (fun _ _ => trivial) hr hs heq
  exact ⟨by simpa using hviews, hrest⟩

end Tails

end TideOrm
