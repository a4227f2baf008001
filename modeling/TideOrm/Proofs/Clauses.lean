import TideOrm.Spec.Clauses

/-! Merging clauses is associative with the empty clauses as unit, and a fragment applied to
a query gives the clauses its calls would have given. -/

namespace TideOrm

variable {S : QueryTypes}

namespace Clauses

/-- The groups after a run of groups that are no shared one. -/
theorem foldl_mergeOrGroup (simple : Option ℕ) (gs : List (OrGroup S.Condition)) : ∀ (n : ℕ) (c : Clauses S),
    (∀ i, simple = some i → i < n ∨ n + gs.length ≤ i) →
    (gs.zipIdx n).foldl (fun c g => mergeOrGroup simple c g.2 g.1) c = { c with orGroups := c.orGroups ++ gs } := by
  induction gs with
  | nil =>
    intro n c _
    simp
  | cons g gs ih =>
    intro n c hsimple
    have hne : simple ≠ some n := by
      intro heq
      have := hsimple n heq
      simp only [List.length_cons] at this
      omega
    rw [List.zipIdx_cons, List.foldl_cons, ih]
    · simp [mergeOrGroup, hne]
    · intro i hi
      have := hsimple i hi
      simp only [List.length_cons] at this
      have hi' : i ≠ n := fun heq => hne (heq ▸ hi)
      omega

/-- The groups after a merge depend on the groups before it only. -/
theorem foldl_mergeOrGroup_congr (simple : Option ℕ) (gs : List (OrGroup S.Condition × ℕ)) : ∀ {c d : Clauses S},
    c.orGroups = d.orGroups → c.simpleOrGroup = d.simpleOrGroup →
    (gs.foldl (fun c g => mergeOrGroup simple c g.2 g.1) c).orGroups =
      (gs.foldl (fun c g => mergeOrGroup simple c g.2 g.1) d).orGroups ∧
    (gs.foldl (fun c g => mergeOrGroup simple c g.2 g.1) c).simpleOrGroup =
      (gs.foldl (fun c g => mergeOrGroup simple c g.2 g.1) d).simpleOrGroup := by
  induction gs with
  | nil => exact fun hgroups hsimple => ⟨hgroups, hsimple⟩
  | cons g gs ih =>
    intro c d hgroups hsimple
    have hstep : (mergeOrGroup simple c g.2 g.1).orGroups = (mergeOrGroup simple d g.2 g.1).orGroups ∧
        (mergeOrGroup simple c g.2 g.1).simpleOrGroup = (mergeOrGroup simple d g.2 g.1).simpleOrGroup := by
      unfold mergeOrGroup
      rw [hgroups, hsimple]
      split_ifs
      · exact ⟨rfl, rfl⟩
      · split
        · exact ⟨rfl, rfl⟩
        · exact ⟨rfl, rfl⟩
    exact ih hstep.1 hstep.2

theorem mergeOrGroups_append (c other : Clauses S) (h : other.simpleOrGroup = none) :
    c.mergeOrGroups other = { c with orGroups := c.orGroups ++ other.orGroups } := by
  rw [mergeOrGroups, h]
  exact foldl_mergeOrGroup none other.orGroups 0 c (by simp)

/-- The shared group of `other` is the one after `front`. -/
theorem mergeOrGroups_split (c other : Clauses S) {front back : List (OrGroup S.Condition)} {group : OrGroup S.Condition}
    (hgroups : other.orGroups = front ++ group :: back) (hsimple : other.simpleOrGroup = some front.length) :
    c.mergeOrGroups other =
      let joined := mergeOrGroup (some front.length) { c with orGroups := c.orGroups ++ front } front.length group
      { joined with orGroups := joined.orGroups ++ back } := by
  rw [mergeOrGroups, hgroups, hsimple, List.zipIdx_append, List.foldl_append, List.zipIdx_cons, List.foldl_cons,
    foldl_mergeOrGroup, foldl_mergeOrGroup]
  · simp
  · intro i hi
    obtain rfl := Option.some.inj hi
    omega
  · intro i hi
    obtain rfl := Option.some.inj hi
    omega

/-- The groups without a shared one, or the shared one between the others. -/
inductive Shares (c : Clauses S) : Prop
  | none (h : c.simpleOrGroup = none)
  | some (front back : List (OrGroup S.Condition)) (group : OrGroup S.Condition)
    (hgroups : c.orGroups = front ++ group :: back) (hsimple : c.simpleOrGroup = some front.length)

theorem mergeOrGroups_new (c other : Clauses S) {front back : List (OrGroup S.Condition)} {group : OrGroup S.Condition}
    (hgroups : other.orGroups = front ++ group :: back) (hsimple : other.simpleOrGroup = some front.length)
    (h : c.simpleOrGroup = none) : c.mergeOrGroups other =
      { c with simpleOrGroup := some (c.orGroups.length + front.length), orGroups := c.orGroups ++ other.orGroups } := by
  rw [mergeOrGroups_split c other hgroups hsimple]
  simp [mergeOrGroup, h, hgroups]

theorem mergeOrGroups_join (c other : Clauses S) {front back front' back' : List (OrGroup S.Condition)}
    {group own : OrGroup S.Condition}
    (hgroups : other.orGroups = front ++ group :: back) (hsimple : other.simpleOrGroup = some front.length)
    (hown : c.orGroups = front' ++ own :: back') (hsimple' : c.simpleOrGroup = some front'.length) :
    c.mergeOrGroups other =
      { c with orGroups := front' ++ own.extend group.conditions :: (back' ++ front ++ back) } := by
  rw [mergeOrGroups_split c other hgroups hsimple]
  simp [mergeOrGroup, hsimple', hown]

/-- Every HAVING condition has its slot of bound values, a typed value only where there is one. -/
structure Aligned (c : Clauses S) : Prop where
  bindings : c.havingBindings.length = c.havingConditions.length
  typed : ∀ i, c.havingConditions.length ≤ i → c.havingTypedBindings i = none

/-- What every builder call keeps. -/
structure WellFormed (c : Clauses S) : Prop where
  aligned : c.Aligned
  shares : c.Shares
  scope : (c.includeTrashed && c.onlyTrashed) = false

theorem wellFormed_empty : (empty : Clauses S).WellFormed := ⟨⟨rfl, fun _ _ => rfl⟩, .none rfl, rfl⟩

section Merge

variable {a b c : Clauses S}

theorem resize_aligned (h : c.Aligned) :
    resize c.havingConditions.length [] c.havingBindings = c.havingBindings := by
  rw [resize, ← h.bindings, Nat.sub_self, List.replicate_zero, List.append_nil, List.take_length]

theorem merge_havingBindings (ha : a.Aligned) (hb : b.Aligned) :
    (a.merge b).havingBindings = a.havingBindings ++ b.havingBindings := by
  have hslots : ((List.range b.havingConditions.length).map fun i => (b.havingBindings[i]?).getD []) = b.havingBindings := by
    rw [← hb.bindings]
    refine List.ext_getElem (by simp) fun i h₁ h₂ => ?_
    simp [List.getElem?_eq_getElem h₂]
  simp only [merge, mergeHaving, resize_aligned ha, hslots]

theorem merge_typed_left {i : ℕ} (hi : i < a.havingConditions.length) :
    (a.merge b).havingTypedBindings i = a.havingTypedBindings i := by
  simp [merge, mergeHaving, Nat.not_le.2 hi]

theorem merge_typed_right (ha : a.Aligned) (j : ℕ) :
    (a.merge b).havingTypedBindings (a.havingConditions.length + j) = b.havingTypedBindings j := by
  simp [merge, mergeHaving, ha.typed (a.havingConditions.length + j) (Nat.le_add_right _ _)]

theorem Aligned.merge (ha : a.Aligned) (hb : b.Aligned) : (a.merge b).Aligned := by
  refine ⟨?_, fun i hi => ?_⟩
  · rw [merge_havingBindings ha hb]
    simp [Clauses.merge, mergeHaving, ha.bindings, hb.bindings]
  · have hlen : a.havingConditions.length + b.havingConditions.length ≤ i := by
      simpa [Clauses.merge, mergeHaving] using hi
    obtain ⟨j, rfl⟩ := Nat.exists_eq_add_of_le (Nat.le_of_add_right_le hlen)
    rw [merge_typed_right ha]
    exact hb.typed j (by omega)

section Groups

variable {front back front' back' : List (OrGroup S.Condition)} {group own : OrGroup S.Condition}

theorem merge_groups_append (hb : b.simpleOrGroup = none) :
    (a.merge b).orGroups = a.orGroups ++ b.orGroups ∧ (a.merge b).simpleOrGroup = a.simpleOrGroup := by
  simp [Clauses.merge, mergeOrGroups_append a b hb]

theorem merge_groups_new (hgroups : b.orGroups = front ++ group :: back) (hsimple : b.simpleOrGroup = some front.length)
    (ha : a.simpleOrGroup = none) : (a.merge b).orGroups = a.orGroups ++ b.orGroups ∧
      (a.merge b).simpleOrGroup = some (a.orGroups.length + front.length) := by
  simp [Clauses.merge, mergeOrGroups_new a b hgroups hsimple ha]

theorem merge_groups_join (hgroups : b.orGroups = front ++ group :: back) (hsimple : b.simpleOrGroup = some front.length)
    (hown : a.orGroups = front' ++ own :: back') (hsimple' : a.simpleOrGroup = some front'.length) :
    (a.merge b).orGroups = front' ++ own.extend group.conditions :: (back' ++ front ++ back) ∧
      (a.merge b).simpleOrGroup = some front'.length := by
  simp [Clauses.merge, mergeOrGroups_join a b hgroups hsimple hown hsimple', hsimple']

end Groups

theorem Shares.merge (ha : a.Shares) (hb : b.Shares) : (a.merge b).Shares := by
  cases hb with
  | none hb =>
    obtain ⟨hgroups, hsimple⟩ := merge_groups_append (a := a) hb
    cases ha with
    | none ha => exact .none (hsimple.trans ha)
    | some front back group ha ha' =>
      exact .some front (back ++ b.orGroups) group (by simp [hgroups, ha]) (hsimple.trans ha')
  | some front back group hb hb' =>
    cases ha with
    | none ha =>
      obtain ⟨hgroups, hsimple⟩ := merge_groups_new hb hb' ha
      exact .some (a.orGroups ++ front) back group (by simp [hgroups, hb]) (by simp [hsimple])
    | some front' back' own ha ha' =>
      obtain ⟨hgroups, hsimple⟩ := merge_groups_join hb hb' ha ha'
      exact .some front' _ _ hgroups hsimple

theorem OrGroup.extend_extend (g : OrGroup S.Condition) (xs ys : List S.Condition) :
    (g.extend xs).extend ys = g.extend (xs ++ ys) := by
  cases g
  simp [OrGroup.extend]

theorem OrGroup.conditions_extend (g : OrGroup S.Condition) (xs : List S.Condition) :
    (g.extend xs).conditions = g.conditions ++ xs := by
  cases g
  rfl

theorem merge_groups_assoc (ha : a.Shares) (hb : b.Shares) (hc : c.Shares) :
    ((a.merge b).merge c).orGroups = (a.merge (b.merge c)).orGroups ∧
      ((a.merge b).merge c).simpleOrGroup = (a.merge (b.merge c)).simpleOrGroup := by
  cases hc with
  | none hc =>
    obtain ⟨hab, hab'⟩ := merge_groups_append (a := a.merge b) hc
    obtain ⟨hbc, hbc'⟩ := merge_groups_append (a := b) hc
    cases hb with
    | none hb =>
      obtain ⟨hleft, hleft'⟩ := merge_groups_append (a := a) hb
      obtain ⟨hright, hright'⟩ := merge_groups_append (a := a) (hbc'.trans hb)
      simp [hab, hab', hleft, hleft', hright, hright', hbc]
    | some front back group hb hb' =>
      have hbc₁ : (b.merge c).orGroups = front ++ group :: (back ++ c.orGroups) := by simp [hbc, hb]
      cases ha with
      | none ha =>
        obtain ⟨hleft, hleft'⟩ := merge_groups_new hb hb' ha
        obtain ⟨hright, hright'⟩ := merge_groups_new hbc₁ (hbc'.trans hb') ha
        simp [hab, hab', hleft, hleft', hright, hright', hbc]
      | some front' back' own ha ha' =>
        obtain ⟨hleft, hleft'⟩ := merge_groups_join hb hb' ha ha'
        obtain ⟨hright, hright'⟩ := merge_groups_join hbc₁ (hbc'.trans hb') ha ha'
        simp [hab, hab', hleft, hleft', hright, hright']
  | some cfront cback cgroup hc hc' =>
    cases hb with
    | none hb =>
      obtain ⟨hab, hab'⟩ := merge_groups_append (a := a) hb
      obtain ⟨hbc, hbc'⟩ := merge_groups_new hc hc' hb
      have hbc₁ : (b.merge c).orGroups = (b.orGroups ++ cfront) ++ cgroup :: cback := by simp [hbc, hc]
      have hbc₂ : (b.merge c).simpleOrGroup = some (b.orGroups ++ cfront).length := by simp [hbc']
      cases ha with
      | none ha =>
        obtain ⟨hleft, hleft'⟩ := merge_groups_new hc hc' (hab'.trans ha)
        obtain ⟨hright, hright'⟩ := merge_groups_new hbc₁ hbc₂ ha
        simp [hab, hleft, hleft', hright, hright', hbc, Nat.add_assoc]
      | some front' back' own ha ha' =>
        have hab₁ : (a.merge b).orGroups = front' ++ own :: (back' ++ b.orGroups) := by simp [hab, ha]
        obtain ⟨hleft, hleft'⟩ := merge_groups_join hc hc' hab₁ (hab'.trans ha')
        obtain ⟨hright, hright'⟩ := merge_groups_join hbc₁ hbc₂ ha ha'
        simp [hleft, hleft', hright, hright']
    | some front back group hb hb' =>
      obtain ⟨hbc, hbc'⟩ := merge_groups_join hc hc' hb hb'
      cases ha with
      | none ha =>
        obtain ⟨hab, hab'⟩ := merge_groups_new hb hb' ha
        have hab₁ : (a.merge b).orGroups = (a.orGroups ++ front) ++ group :: back := by simp [hab, hb]
        have hab₂ : (a.merge b).simpleOrGroup = some (a.orGroups ++ front).length := by simp [hab']
        obtain ⟨hleft, hleft'⟩ := merge_groups_join hc hc' hab₁ hab₂
        obtain ⟨hright, hright'⟩ := merge_groups_new hbc hbc' ha
        simp [hleft, hleft', hright, hright', hbc]
      | some front' back' own ha ha' =>
        obtain ⟨hab, hab'⟩ := merge_groups_join hb hb' ha ha'
        obtain ⟨hleft, hleft'⟩ := merge_groups_join hc hc' hab hab'
        obtain ⟨hright, hright'⟩ := merge_groups_join hbc hbc' ha ha'
        simp [hleft, hleft', hright, hright', OrGroup.extend_extend, OrGroup.conditions_extend]

theorem WellFormed.merge (ha : a.WellFormed) (hb : b.WellFormed) : (a.merge b).WellFormed := by
  refine ⟨ha.aligned.merge hb.aligned, ha.shares.merge hb.shares, ?_⟩
  have := ha.scope
  simp only [Clauses.merge]
  split_ifs <;> simp_all

theorem merge_typed_assoc (ha : a.Aligned) (hb : b.Aligned) :
    ((a.merge b).merge c).havingTypedBindings = (a.merge (b.merge c)).havingTypedBindings := by
  have hab : (a.merge b).havingConditions.length = a.havingConditions.length + b.havingConditions.length := by
    simp [Clauses.merge, mergeHaving]
  funext i
  by_cases hi : i < a.havingConditions.length
  · rw [merge_typed_left (by omega), merge_typed_left hi, merge_typed_left hi]
  · obtain ⟨j, rfl⟩ := Nat.exists_eq_add_of_le (Nat.not_lt.1 hi)
    rw [merge_typed_right ha]
    by_cases hj : j < b.havingConditions.length
    · rw [merge_typed_left (by omega), merge_typed_right ha, merge_typed_left hj]
    · obtain ⟨k, rfl⟩ := Nat.exists_eq_add_of_le (Nat.not_lt.1 hj)
      have hsum : a.havingConditions.length + (b.havingConditions.length + k) = (a.merge b).havingConditions.length + k := by
        omega
      rw [hsum, merge_typed_right (ha.merge hb), merge_typed_right hb]

theorem merge_rawSelect (a b : Clauses S) : (a.merge b).rawSelectExpressions = a.rawSelectExpressions ++
    if a.isDistinct then b.rawSelectExpressions.filter (· != distinctSelectMarker) else b.rawSelectExpressions := by
  cases hdistinct : a.isDistinct with
  | true => simp [Clauses.merge, hdistinct]
  | false => simp [Clauses.merge, hdistinct]

theorem merge_isDistinct (a b : Clauses S) : (a.merge b).isDistinct = (a.isDistinct || b.isDistinct) := by
  rw [isDistinct, merge_rawSelect, List.any_append, ← isDistinct]
  cases a.isDistinct with
  | true => simp
  | false => simp [isDistinct]

theorem merge_rawSelect_assoc (a b c : Clauses S) :
    ((a.merge b).merge c).rawSelectExpressions = (a.merge (b.merge c)).rawSelectExpressions := by
  rw [merge_rawSelect, merge_rawSelect a b, merge_rawSelect a (b.merge c), merge_rawSelect b c, merge_isDistinct]
  cases a.isDistinct with
  | true => cases b.isDistinct <;> simp [List.filter_filter]
  | false => cases b.isDistinct <;> simp

theorem merge_assoc (ha : a.WellFormed) (hb : b.WellFormed) (hc : c.WellFormed) :
    (a.merge b).merge c = a.merge (b.merge c) := by
  obtain ⟨hgroups, hsimple⟩ := merge_groups_assoc ha.shares hb.shares hc.shares
  have hbindings : ((a.merge b).merge c).havingBindings = (a.merge (b.merge c)).havingBindings := by
    rw [merge_havingBindings (ha.aligned.merge hb.aligned) hc.aligned, merge_havingBindings ha.aligned hb.aligned,
      merge_havingBindings ha.aligned (hb.aligned.merge hc.aligned), merge_havingBindings hb.aligned hc.aligned,
      List.append_assoc]
  refine Clauses.ext ?_ ?_ ?_ hgroups hsimple ?_ ?_ ?_ ?_ (merge_rawSelect_assoc a b c) ?_ ?_ ?_ hbindings
    (merge_typed_assoc ha.aligned hb.aligned) ?_ ?_ ?_ ?_ ?_ ?_ ?_ ?_ ?_ ?_ ?_ ?_
  all_goals simp only [Clauses.merge, mergeHaving, List.append_assoc, Bool.or_assoc]
  all_goals grind

theorem lastSet_none {α : Type} (value : Option α) : (if value.isSome then value else none) = value := by
  cases value <;> rfl

theorem firstSet_none {α : Type} (value : Option α) : (if value.isNone then none else value) = value := by
  cases value <;> rfl

theorem empty_merge (hc : c.WellFormed) : empty.merge c = c := by
  have hgroups : ((empty : Clauses S).merge c).orGroups = c.orGroups ∧ (empty.merge c).simpleOrGroup = c.simpleOrGroup := by
    rcases hc.shares with hnone | ⟨front, back, group, hgroups, hsimple⟩
    · obtain ⟨h, h'⟩ := merge_groups_append (a := empty) hnone
      exact ⟨h, h'.trans hnone.symm⟩
    · obtain ⟨h, h'⟩ := merge_groups_new (a := empty) hgroups hsimple rfl
      exact ⟨h, h'.trans (by simp [hsimple, empty])⟩
  have hbindings := merge_havingBindings wellFormed_empty.aligned hc.aligned
  have htyped : (empty.merge c).havingTypedBindings = c.havingTypedBindings := by
    funext i
    have := merge_typed_right (b := c) (wellFormed_empty (S := S)).aligned i
    rwa [show (empty : Clauses S).havingConditions.length + i = i from Nat.zero_add i] at this
  have hscope := hc.scope
  refine Clauses.ext ?_ ?_ ?_ hgroups.1 hgroups.2 ?_ ?_ ?_ ?_ (merge_rawSelect empty c) ?_ ?_ ?_ hbindings htyped ?_ ?_ ?_ ?_ ?_ ?_ ?_ ?_ ?_ ?_ ?_ ?_
  all_goals simp only [Clauses.merge, mergeHaving, empty, lastSet_none]
  all_goals grind

theorem merge_empty (ha : a.Aligned) : a.merge empty = a := by
  obtain ⟨hgroups, hsimple⟩ := merge_groups_append (a := a) (b := empty) rfl
  have hbindings := merge_havingBindings ha (wellFormed_empty (S := S)).aligned
  have htyped : (a.merge empty).havingTypedBindings = a.havingTypedBindings := by
    funext i
    by_cases hi : i < a.havingConditions.length
    · exact merge_typed_left hi
    · obtain ⟨j, rfl⟩ := Nat.exists_eq_add_of_le (Nat.not_lt.1 hi)
      rw [merge_typed_right ha, ha.typed _ (Nat.le_add_right _ _)]
      rfl
  refine Clauses.ext ?_ ?_ ?_ (hgroups.trans (List.append_nil _)) hsimple ?_ ?_ ?_ ?_ ?_ ?_ ?_ ?_
    (hbindings.trans (List.append_nil _)) htyped ?_ ?_ ?_ ?_ ?_ ?_ ?_ ?_ ?_ ?_ ?_ ?_
  all_goals simp only [Clauses.merge, mergeHaving, empty, firstSet_none]
  all_goals grind

theorem lastSet_eq_none {α : Type} (value previous : Option α) :
    (if value.isSome then value else previous) = none ↔ previous = none ∧ value = none := by
  cases value <;> simp

theorem firstSet_eq_none {α : Type} (value previous : Option α) :
    (if previous.isNone then value else previous) = none ↔ previous = none ∧ value = none := by
  cases previous <;> simp

/-- A merge changes nothing exactly when both clauses would change nothing. -/
theorem isEmpty_merge (ha : a.Shares) (hb : b.Shares) :
    (a.merge b).isEmpty = true ↔ a.isEmpty = true ∧ b.isEmpty = true := by
  have hgroups : (a.merge b).orGroups = [] ↔ a.orGroups = [] ∧ b.orGroups = [] := by
    cases hb with
    | none hb => rw [(merge_groups_append hb).1, List.append_eq_nil_iff]
    | some front back group hb hb' =>
      cases ha with
      | none ha => rw [(merge_groups_new hb hb' ha).1, List.append_eq_nil_iff]
      | some front' back' own ha ha' => simp [(merge_groups_join hb hb' ha ha').1, ha]
  have hraw : (a.merge b).rawSelectExpressions = [] ↔ a.rawSelectExpressions = [] ∧ b.rawSelectExpressions = [] := by
    rw [merge_rawSelect, List.append_eq_nil_iff, isDistinct]
    refine and_congr_right fun hnil => ?_
    rw [hnil]
    simp
  simp only [isEmpty, Bool.and_eq_true, List.isEmpty_iff, Option.isNone_iff_eq_none, hgroups, hraw]
  simp only [Clauses.merge, mergeHaving, List.append_eq_nil_iff, lastSet_eq_none, firstSet_eq_none]
  grind

end Merge

section Calls

variable {c : Clauses S}

/-- Clauses with the same HAVING clauses, groups and scope. -/
theorem WellFormed.congr {d : Clauses S} (h : c.WellFormed) (hconditions : d.havingConditions = c.havingConditions)
    (hbindings : d.havingBindings = c.havingBindings) (htyped : d.havingTypedBindings = c.havingTypedBindings)
    (hgroups : d.orGroups = c.orGroups) (hsimple : d.simpleOrGroup = c.simpleOrGroup)
    (hscope : (d.includeTrashed && d.onlyTrashed) = false) : d.WellFormed := by
  refine ⟨⟨?_, ?_⟩, ?_, hscope⟩
  · rw [hconditions, hbindings]
    exact h.aligned.bindings
  · rw [hconditions, htyped]
    exact h.aligned.typed
  · rcases h.shares with hnone | ⟨front, back, group, hfront, hlen⟩
    · exact .none (hsimple.trans hnone)
    · exact .some front back group (hgroups.trans hfront) (hsimple.trans hlen)

theorem WellFormed.invalidateQuery (h : c.WellFormed) (reason : String) : (c.invalidateQuery reason).WellFormed := by
  unfold Clauses.invalidateQuery
  split_ifs
  · exact h.congr rfl rfl rfl rfl rfl h.scope
  · exact h

theorem WellFormed.refuse (reasons : List String) : ∀ {c : Clauses S}, c.WellFormed → (c.refuse reasons).WellFormed := by
  induction reasons with
  | nil => exact fun h => h
  | cons reason reasons ih => exact fun h => ih (h.invalidateQuery reason)

theorem WellFormed.appendGroup (h : c.WellFormed) (group : OrGroup S.Condition) :
    { c with orGroups := c.orGroups ++ [group] }.WellFormed := by
  refine ⟨⟨h.aligned.bindings, h.aligned.typed⟩, ?_, h.scope⟩
  rcases h.shares with hnone | ⟨front, back, own, hfront, hlen⟩
  · exact .none hnone
  · exact .some front (back ++ [group]) own (by simp [hfront]) hlen

theorem WellFormed.havingWithParams (h : c.WellFormed) (template : String) (params : List S.Value) :
    (c.havingWithParams template params).WellFormed := by
  refine ⟨⟨?_, fun i hi => ?_⟩, ?_, h.scope⟩
  · simp [Clauses.havingWithParams, h.aligned.bindings]
  · simp only [Clauses.havingWithParams, List.length_append, List.length_singleton] at hi
    exact h.aligned.typed i (by omega)
  · rcases h.shares with hnone | ⟨front, back, own, hfront, hlen⟩
    · exact .none hnone
    · exact .some front back own hfront hlen

end Calls

/-- The clauses without the values that typed ones replace when the query runs. -/
def settled (c : Clauses S) : Clauses S :=
  { c with havingBindings := c.havingBindings.mapIdx fun i bound => if (c.havingTypedBindings i).isSome then [] else bound }

theorem havingClauses_settled (ctx : BuilderContext S) (c : Clauses S) : c.settled.havingClauses ctx = c.havingClauses ctx := by
  unfold havingClauses
  refine List.ext_getElem (by simp [settled]) fun i h₁ h₂ => ?_
  simp only [settled, List.getElem_mapIdx, columnType, joinNamed]
  cases htyped : c.havingTypedBindings i with
  | some operand => rfl
  | none => cases hbound : c.havingBindings[i]? <;> simp [htyped, hbound]

section Settled

variable {a b : Clauses S}

theorem Aligned.settled (h : a.Aligned) : a.settled.Aligned :=
  ⟨by simpa [Clauses.settled] using h.bindings, h.typed⟩

/-- Settling goes through a merge. -/
theorem settled_merge (ha : a.Aligned) (hb : b.Aligned) : (a.merge b).settled = a.settled.merge b.settled := by
  have hbindings : (a.merge b).settled.havingBindings = (a.settled.merge b.settled).havingBindings := by
    rw [merge_havingBindings ha.settled hb.settled]
    simp only [settled, merge_havingBindings ha hb, List.mapIdx_append]
    congr 1
    · refine List.ext_getElem (by simp) fun i h₁ h₂ => ?_
      rw [List.length_mapIdx, ha.bindings] at h₁
      rw [List.getElem_mapIdx, List.getElem_mapIdx, merge_typed_left h₁]
    · refine List.ext_getElem (by simp) fun i h₁ h₂ => ?_
      have htyped : (a.merge b).havingTypedBindings (i + a.havingBindings.length) = b.havingTypedBindings i := by
        rw [ha.bindings, Nat.add_comm, merge_typed_right ha]
      rw [List.getElem_mapIdx, List.getElem_mapIdx, htyped]
  obtain ⟨hgroups, hsimple⟩ := foldl_mergeOrGroup_congr b.simpleOrGroup b.orGroups.zipIdx (c := a) (d := a.settled) rfl rfl
  exact Clauses.ext rfl rfl rfl hgroups hsimple rfl rfl rfl rfl rfl rfl rfl rfl hbindings rfl rfl rfl rfl rfl rfl rfl rfl rfl rfl rfl rfl rfl

end Settled

/-- A call adds to the clauses what it makes of none. -/
structure Additive (f : Clauses S → Clauses S) : Prop where
  keeps : ∀ {c}, c.WellFormed → (f c).WellFormed
  merges : ∀ {c}, c.WellFormed → (f c).settled = (c.merge (f empty)).settled

theorem additive_id : Additive (fun c : Clauses S => c) :=
  ⟨fun h => h, fun h => by rw [merge_empty h.aligned]⟩

theorem Additive.comp {f g : Clauses S → Clauses S} (hg : Additive g) (hf : Additive f) : Additive fun c => g (f c) := by
  refine ⟨fun h => hg.keeps (hf.keeps h), fun {c} h => ?_⟩
  have hfe := hf.keeps (wellFormed_empty (S := S))
  have hge := hg.keeps (wellFormed_empty (S := S))
  have hgfe := hg.keeps hfe
  calc (g (f c)).settled
      = ((f c).merge (g empty)).settled := hg.merges (hf.keeps h)
    _ = ((c.merge (f empty)).merge (g empty)).settled := by
        rw [settled_merge (hf.keeps h).aligned hge.aligned, hf.merges h,
          settled_merge (h.merge hfe).aligned hge.aligned]
    _ = (c.merge ((f empty).merge (g empty))).settled := by rw [merge_assoc h hfe hge]
    _ = (c.merge (g (f empty))).settled := by
        rw [settled_merge h.aligned (hfe.merge hge).aligned, ← hg.merges hfe, ← settled_merge h.aligned hgfe.aligned]

/-- A call that sets fields to what a merge with its own result sets them to. -/
theorem additive_of_update {f : Clauses S → Clauses S} (keeps : ∀ {c}, c.WellFormed → (f c).WellFormed)
    (update : Clauses S → Clauses S → Clauses S) (hmerge : ∀ c, c.merge (f empty) = update c (c.merge empty))
    (hself : ∀ {c}, c.WellFormed → update c c = f c) : Additive f := by
  refine ⟨keeps, fun {c} h => ?_⟩
  rw [hmerge, merge_empty h.aligned, hself h]

section Primitives

theorem additive_invalidateQuery (reason : String) : Additive fun c : Clauses S => c.invalidateQuery reason := by
  refine additive_of_update (fun h => h.invalidateQuery reason)
    (fun c merged => { merged with invalidQueryReason := if c.invalidQueryReason.isNone then some reason else c.invalidQueryReason })
    (fun c => rfl) fun {c} _ => ?_
  unfold invalidateQuery
  split_ifs <;> rfl

theorem additive_refuse (reasons : List String) : Additive fun c : Clauses S => c.refuse reasons := by
  induction reasons with
  | nil => exact additive_id
  | cons reason reasons ih => exact ih.comp (additive_invalidateQuery reason)

theorem additive_absorbOperand (operand : Operand S) : Additive fun c : Clauses S => c.absorbOperand operand :=
  (additive_refuse operand.error.toList).comp (additive_of_update (fun h => h.congr rfl rfl rfl rfl rfl h.scope)
    (fun c merged => { merged with
      dependencies := c.dependencies ++ operand.cacheTables
      operandDatabases := c.operandDatabases ++ operand.databases }) (fun _ => rfl) fun _ => rfl)

theorem additive_pushCondition (condition : S.Condition) : Additive fun c : Clauses S => c.pushCondition condition :=
  additive_of_update (fun h => h.congr rfl rfl rfl rfl rfl h.scope)
    (fun c merged => { merged with conditions := c.conditions ++ [condition] }) (fun _ => rfl) fun _ => rfl

theorem additive_appendGroup (group : OrGroup S.Condition) :
    Additive fun c : Clauses S => { c with orGroups := c.orGroups ++ [group] } :=
  additive_of_update (fun h => h.appendGroup group)
    (fun c merged => { merged with orGroups := c.orGroups ++ [group] }) (fun _ => rfl) fun _ => rfl

theorem WellFormed.pushOrCondition {c : Clauses S} (h : c.WellFormed) (condition : S.Condition) :
    (c.pushOrCondition condition).WellFormed := by
  unfold Clauses.pushOrCondition
  rcases h.shares with hnone | ⟨front, back, own, hfront, hlen⟩
  · rw [hnone, Option.bind_none]
    exact ⟨⟨h.aligned.bindings, h.aligned.typed⟩, .some c.orGroups [] _ rfl rfl, h.scope⟩
  · have hown : (c.simpleOrGroup.bind fun own => (c.orGroups[own]?).map fun g => (own, g)) = some (front.length, own) := by
      simp [hlen, hfront]
    rw [hown]
    exact ⟨⟨h.aligned.bindings, h.aligned.typed⟩, .some front back (own.extend [condition]) (by simp [hfront]) hlen, h.scope⟩

theorem additive_pushOrCondition (condition : S.Condition) : Additive fun c : Clauses S => c.pushOrCondition condition := by
  refine additive_of_update (fun h => h.pushOrCondition condition)
    (fun c merged => { merged with
      orGroups := (c.pushOrCondition condition).orGroups
      simpleOrGroup := (c.pushOrCondition condition).simpleOrGroup }) (fun c => ?_) fun {c} _ => ?_
  · have hjoin : c.mergeOrGroups (empty.pushOrCondition condition) = c.pushOrCondition condition := rfl
    simp only [merge, hjoin]
    rfl
  · unfold pushOrCondition
    split <;> rfl

theorem additive_orWhere (group : OrGroup S.Condition) : Additive fun c : Clauses S => c.orWhere group := by
  unfold orWhere
  split_ifs
  · exact additive_id
  · exact additive_appendGroup group

theorem additive_endOr (branches : List (List S.Condition)) : Additive fun c : Clauses S => c.endOr branches := by
  simp only [endOr]
  split_ifs
  · exact additive_id
  · exact additive_appendGroup _

theorem additive_orderByColumn (column : String) (direction : Order) (refused : Option String) :
    Additive fun c : Clauses S => c.orderByColumn column direction refused := by
  cases refused with
  | some reason => exact additive_invalidateQuery reason
  | none =>
    exact additive_of_update (fun h => h.congr rfl rfl rfl rfl rfl h.scope)
      (fun c merged => { merged with orderBy := c.orderBy ++ [(column, direction)] }) (fun _ => rfl) fun _ => rfl

theorem additive_setLimit (n : ℕ) : Additive fun c : Clauses S => c.setLimit n :=
  additive_of_update (fun h => h.congr rfl rfl rfl rfl rfl h.scope)
    (fun _ merged => { merged with limitValue := some n }) (fun _ => rfl) fun _ => rfl

theorem additive_setOffset (n : ℕ) : Additive fun c : Clauses S => c.setOffset n :=
  additive_of_update (fun h => h.congr rfl rfl rfl rfl rfl h.scope)
    (fun _ merged => { merged with offsetValue := some n }) (fun _ => rfl) fun _ => rfl

theorem additive_page (numbers : Except (String × String) (ℕ × ℕ)) : Additive fun c : Clauses S => c.page numbers := by
  cases numbers with
  | ok numbers => exact (additive_setOffset numbers.2).comp (additive_setLimit numbers.1)
  | error refusal =>
    refine additive_of_update (fun {c} h => ?_)
      (fun c merged => { merged with invalidPage := if c.invalidPage.isNone then some refusal else c.invalidPage })
      (fun _ => rfl) fun {c} _ => ?_
    · simp only [page]
      split_ifs
      · exact h.congr rfl rfl rfl rfl rfl h.scope
      · exact h
    · simp only [page]
      split_ifs <;> rfl

theorem additive_select (columns : List String) : Additive fun c : Clauses S => c.select columns :=
  additive_of_update (fun h => h.congr rfl rfl rfl rfl rfl h.scope)
    (fun _ merged => { merged with selectColumns := some columns }) (fun _ => rfl) fun _ => rfl

theorem additive_rawSelect (expression : String) (hne : expression ≠ distinctSelectMarker) :
    Additive fun c : Clauses S => { c with rawSelectExpressions := c.rawSelectExpressions ++ [expression] } :=
  additive_of_update (fun h => h.congr rfl rfl rfl rfl rfl h.scope)
    (fun c merged => { merged with rawSelectExpressions := c.rawSelectExpressions ++ [expression] })
    (fun c => Clauses.ext rfl rfl rfl rfl rfl rfl rfl rfl rfl (by simp [merge, empty, hne]) rfl rfl rfl rfl rfl rfl rfl rfl
      rfl rfl rfl rfl rfl rfl rfl rfl rfl) fun _ => rfl

theorem additive_distinct : Additive fun c : Clauses S => c.distinct := by
  refine additive_of_update (fun {c} h => ?_)
    (fun c merged => { merged with rawSelectExpressions := c.distinct.rawSelectExpressions }) (fun c => ?_) fun {c} _ => ?_
  · unfold distinct
    split_ifs
    · exact h
    · exact h.congr rfl rfl rfl rfl rfl h.scope
  · refine Clauses.ext rfl rfl rfl rfl rfl rfl rfl rfl rfl ?_ rfl rfl rfl rfl rfl rfl rfl rfl rfl rfl rfl rfl rfl rfl rfl rfl rfl
    rw [merge_rawSelect]
    have hmarker : (empty : Clauses S).distinct.rawSelectExpressions = [distinctSelectMarker] := rfl
    rw [hmarker, distinct]
    split_ifs <;> simp
  · unfold distinct
    split_ifs <;> rfl

theorem additive_selectSubqueryExpression (subquery : S.SubquerySelect) : Additive fun c : Clauses S =>
    { c with subquerySelectExpressions := c.subquerySelectExpressions ++ [subquery] } :=
  additive_of_update (fun h => h.congr rfl rfl rfl rfl rfl h.scope)
    (fun c merged => { merged with subquerySelectExpressions := c.subquerySelectExpressions ++ [subquery] })
    (fun _ => rfl) fun _ => rfl

theorem additive_pushGroupBy (column : String) : Additive fun c : Clauses S => c.pushGroupBy column :=
  additive_of_update (fun h => h.congr rfl rfl rfl rfl rfl h.scope)
    (fun c merged => { merged with groupBy := c.groupBy ++ [column] }) (fun _ => rfl) fun _ => rfl

theorem additive_havingComparisons (comparisons : List (String × String)) : Additive fun c : Clauses S =>
    { c with havingComparisons := c.havingComparisons ++ comparisons } :=
  additive_of_update (fun h => h.congr rfl rfl rfl rfl rfl h.scope)
    (fun c merged => { merged with havingComparisons := c.havingComparisons ++ comparisons }) (fun _ => rfl) fun _ => rfl

theorem additive_pushJoin (join : JoinClause) (refused : Option String) :
    Additive fun c : Clauses S => c.pushJoin join refused := by
  cases refused with
  | some reason => exact additive_invalidateQuery reason
  | none =>
    exact additive_of_update (fun h => h.congr rfl rfl rfl rfl rfl h.scope)
      (fun c merged => { merged with joins := c.joins ++ [join] }) (fun _ => rfl) fun _ => rfl

theorem additive_union (union : S.UnionClause) : Additive fun c : Clauses S => { c with unions := c.unions ++ [union] } :=
  additive_of_update (fun h => h.congr rfl rfl rfl rfl rfl h.scope)
    (fun c merged => { merged with unions := c.unions ++ [union] }) (fun _ => rfl) fun _ => rfl

theorem additive_window (function : S.WindowFunction) : Additive fun c : Clauses S => c.window function :=
  additive_of_update (fun h => h.congr rfl rfl rfl rfl rfl h.scope)
    (fun c merged => { merged with windowFunctions := c.windowFunctions ++ [function] }) (fun _ => rfl) fun _ => rfl

theorem additive_cte (cte : S.Cte) : Additive fun c : Clauses S => { c with ctes := c.ctes ++ [cte] } :=
  additive_of_update (fun h => h.congr rfl rfl rfl rfl rfl h.scope)
    (fun c merged => { merged with ctes := c.ctes ++ [cte] }) (fun _ => rfl) fun _ => rfl

theorem additive_cache (options : S.CacheOptions) : Additive fun c : Clauses S => c.cache options :=
  additive_of_update (fun h => h.congr rfl rfl rfl rfl rfl h.scope)
    (fun _ merged => { merged with cacheOptions := some options }) (fun _ => rfl) fun _ => rfl

theorem additive_cacheWithKey (key : String) (options : S.CacheOptions) :
    Additive fun c : Clauses S => c.cacheWithKey key options :=
  additive_of_update (fun h => h.congr rfl rfl rfl rfl rfl h.scope)
    (fun _ merged => { merged with cacheOptions := some options, cacheKey := some key }) (fun _ => rfl) fun _ => rfl

theorem additive_withTrashed : Additive fun c : Clauses S => c.withTrashed :=
  additive_of_update (fun h => h.congr rfl rfl rfl rfl rfl rfl)
    (fun _ merged => { merged with includeTrashed := true, onlyTrashed := false }) (fun _ => rfl) fun _ => rfl

theorem additive_onlyTrashed : Additive fun c : Clauses S => { c with onlyTrashed := true, includeTrashed := false } :=
  additive_of_update (fun h => h.congr rfl rfl rfl rfl rfl rfl)
    (fun _ merged => { merged with onlyTrashed := true, includeTrashed := false }) (fun _ => rfl) fun _ => rfl

theorem additive_setLockForUpdate : Additive fun c : Clauses S => c.setLockForUpdate :=
  additive_of_update (fun h => h.congr rfl rfl rfl rfl rfl h.scope)
    (fun _ merged => { merged with lockForUpdate := true })
    (fun _ => Clauses.ext rfl rfl rfl rfl rfl rfl rfl rfl rfl rfl rfl rfl rfl rfl rfl rfl rfl rfl rfl rfl rfl rfl rfl rfl rfl rfl
      (Bool.or_true _)) fun _ => rfl

theorem additive_havingWithParams (template : String) (params : List S.Value) :
    Additive fun c : Clauses S => c.havingWithParams template params := by
  refine additive_of_update (fun h => h.havingWithParams template params)
    (fun c merged => { merged with
      havingConditions := c.havingConditions ++ [template]
      havingBindings := resize c.havingConditions.length [] c.havingBindings ++ [params] }) (fun c => rfl) fun {c} h => ?_
  rw [resize_aligned h.aligned]
  rfl

/-- A comparison of an extremum: the value bound to it is replaced when the query runs. -/
theorem additive_extremum (template column : String) (operand : S.Json) (bound : Clauses S → S.Value) :
    Additive fun c : Clauses S => { c with
      havingTypedBindings := Function.update c.havingTypedBindings c.havingConditions.length (some (column, operand))
      havingConditions := c.havingConditions ++ [template]
      havingBindings := c.havingBindings ++ [[bound c]] } := by
  refine ⟨fun {c} h => ?_, fun {c} h => ?_⟩
  · refine ⟨⟨?_, fun i hi => ?_⟩, ?_, h.scope⟩
    · simp [h.aligned.bindings]
    · simp only [List.length_append, List.length_singleton] at hi
      exact (Function.update_of_ne (by omega) _ _).trans (h.aligned.typed i (by omega))
    · rcases h.shares with hnone | ⟨front, back, own, hfront, hlen⟩
      · exact .none hnone
      · exact .some front back own hfront hlen
  · have hempty : (Function.update (empty : Clauses S).havingTypedBindings (empty : Clauses S).havingConditions.length
        (some (column, operand))) = fun i => if i = 0 then some (column, operand) else none := by
      funext i
      simp [Function.update_apply, empty]
    have htyped : (fun i => if c.havingConditions.length ≤ i
        then (if i - c.havingConditions.length = 0 then some (column, operand) else none).or (c.havingTypedBindings i)
        else c.havingTypedBindings i) =
        Function.update c.havingTypedBindings c.havingConditions.length (some (column, operand)) := by
      funext i
      rcases Nat.lt_trichotomy i c.havingConditions.length with hlt | rfl | hgt
      · rw [if_neg (by omega), Function.update_of_ne (by omega)]
      · simp
      · rw [if_pos (by omega), if_neg (by omega), Function.update_of_ne (by omega)]
        rfl
    have hmerge : c.merge { (empty : Clauses S) with
        havingTypedBindings := fun i => if i = 0 then some (column, operand) else none
        havingConditions := (empty : Clauses S).havingConditions ++ [template]
        havingBindings := (empty : Clauses S).havingBindings ++ [[bound empty]] } = { c.merge empty with
          havingTypedBindings := fun i => if c.havingConditions.length ≤ i
            then (if i - c.havingConditions.length = 0 then some (column, operand) else none).or (c.havingTypedBindings i)
            else c.havingTypedBindings i
          havingConditions := c.havingConditions ++ [template]
          havingBindings := resize c.havingConditions.length [] c.havingBindings ++ [[bound empty]] } := rfl
    simp only [hempty]
    rw [hmerge, merge_empty h.aligned, resize_aligned h.aligned, htyped]
    simp [settled, h.aligned.bindings]

theorem additive_compareAggregate (ctx : BuilderContext S) (condition : AggregateCondition S) :
    Additive fun c : Clauses S => c.compareAggregate ctx condition := by
  unfold compareAggregate
  dsimp only
  split_ifs
  · cases nullOperator condition.operator with
    | some operator => exact additive_havingWithParams _ []
    | none => exact additive_invalidateQuery _
  · obtain ⟨aggregate, operator, value⟩ := condition
    cases value with
    | error reason => exact additive_invalidateQuery _
    | ok operand =>
      cases aggregate with
      | min column => exact additive_extremum _ column operand fun c => ctx.jsonToColumnValue operand (c.columnType ctx column)
      | max column => exact additive_extremum _ column operand fun c => ctx.jsonToColumnValue operand (c.columnType ctx column)
      | _ =>
        unfold havingValue
        dsimp only
        cases ctx.numericHavingValue operand with
        | some value => exact additive_havingWithParams _ [value]
        | none => exact additive_invalidateQuery _

theorem additive_having (ctx : BuilderContext S) (condition : HavingCondition S) :
    Additive fun c : Clauses S => c.having ctx condition := by
  cases condition with
  | raw sql => exact (additive_havingWithParams sql []).comp (additive_refuse _)
  | aggregate condition => exact (additive_compareAggregate ctx condition).comp (additive_havingComparisons _)

end Primitives

end Clauses

section Builder

open Clauses BuilderCall

/-- The call does not write the sentinel of `distinct` as an expression. -/
def BuilderCall.Appends : BuilderCall S → Prop
  | .selectRaw expression _ => expression ≠ distinctSelectMarker
  | _ => True

theorem additive_subqueryCondition (operand : Operand S) (refusals : List String) (condition : Option S.Condition) :
    Additive fun c : Clauses S => c.pushSubqueryCondition operand refusals condition := by
  have hchecked := (additive_refuse refusals).comp (additive_absorbOperand operand)
  cases condition with
  | none => exact hchecked
  | some condition => exact (additive_pushCondition condition).comp hchecked

theorem additive_relatedCondition (refusals : List String) (condition : Option S.Condition) :
    Additive fun c : Clauses S => c.pushRelatedExistsCondition refusals condition := by
  cases condition with
  | none => exact additive_refuse refusals
  | some condition => exact (additive_pushCondition condition).comp (additive_refuse refusals)

theorem additive_pushCte (operand : Option (Operand S)) (refusals : List String) (cte : S.Cte) :
    Additive fun c : Clauses S => c.pushCte operand refusals cte := by
  cases operand with
  | none => exact (additive_cte cte).comp (additive_refuse refusals)
  | some operand => exact (additive_cte cte).comp ((additive_refuse refusals).comp (additive_absorbOperand operand))

theorem additive_setOnlyTrashed (ctx : BuilderContext S) : Additive fun c : Clauses S => c.setOnlyTrashed ctx := by
  unfold setOnlyTrashed
  cases ctx.softDeleteEnabled with
  | true => exact additive_onlyTrashed
  | false => exact additive_onlyTrashed.comp (additive_invalidateQuery _)

/-- Every call adds to the clauses what it makes of none. -/
theorem additive_run (ctx : BuilderContext S) (call : BuilderCall S) (h : call.Appends) : Additive fun c => call.run ctx c := by
  cases call with
  | condition filter => exact additive_pushCondition filter
  | subqueryCondition operand refusals filter => exact additive_subqueryCondition operand refusals filter
  | relatedCondition refusals filter => exact additive_relatedCondition refusals filter
  | orCondition filter => exact additive_pushOrCondition filter
  | orWhere group => exact additive_orWhere group
  | endOr branches => exact additive_endOr branches
  | orderBy column direction refused => exact additive_orderByColumn column direction refused
  | limit n => exact additive_setLimit n
  | offset n => exact additive_setOffset n
  | page numbers => exact additive_page numbers
  | select columns => exact additive_select columns
  | distinct => exact additive_distinct
  | selectRaw expression refused => exact (additive_rawSelect expression h).comp (additive_refuse refused.toList)
  | selectSubquery operand refusals subquery =>
    exact (additive_selectSubqueryExpression subquery).comp ((additive_refuse refusals).comp (additive_absorbOperand operand))
  | groupBy column => exact additive_pushGroupBy column
  | having comparison => exact additive_having ctx comparison
  | join clause refused => exact additive_pushJoin clause refused
  | union operand refusals clause =>
    exact (additive_union clause).comp ((additive_refuse refusals).comp (additive_absorbOperand operand))
  | unionRaw refused clause => exact (additive_union clause).comp (additive_refuse refused.toList)
  | window function => exact additive_window function
  | cte operand refusals body => exact additive_pushCte operand refusals body
  | cache options => exact additive_cache options
  | cacheWithKey key options => exact additive_cacheWithKey key options
  | withTrashed => exact additive_withTrashed
  | onlyTrashed => exact additive_setOnlyTrashed ctx
  | lockForUpdate => exact additive_setLockForUpdate

theorem additive_build (ctx : BuilderContext S) {calls : List (BuilderCall S)} (h : ∀ call ∈ calls, call.Appends) :
    Additive fun c => build ctx c calls := by
  induction calls with
  | nil => exact additive_id
  | cons call calls ih =>
    exact (ih fun call' hcall' => h call' (List.mem_cons_of_mem _ hcall')).comp
      (additive_run ctx call (h call List.mem_cons_self))

theorem wellFormed_run (ctx : BuilderContext S) (call : BuilderCall S) {c : Clauses S} (h : c.WellFormed) :
    (call.run ctx c).WellFormed := by
  by_cases happends : call.Appends
  · exact (additive_run ctx call happends).keeps h
  · cases call with
    | selectRaw expression refused =>
      have hchecked := WellFormed.refuse refused.toList h
      exact hchecked.congr rfl rfl rfl rfl rfl hchecked.scope
    | _ => exact absurd trivial happends

theorem Reachable.wellFormed {c : Clauses S} (h : Reachable c) : c.WellFormed := by
  induction h with
  | empty => exact wellFormed_empty
  | call ctx call _ ih => exact wellFormed_run ctx call ih
  | reorder column direction refused _ ih =>
    exact (additive_orderByColumn column direction refused).keeps (ih.congr rfl rfl rfl rfl rfl ih.scope)
  | noCache _ ih => exact ih.congr rfl rfl rfl rfl rfl ih.scope
  | liveRowsOnly _ ih => exact ih.congr rfl rfl rfl rfl rfl rfl
  | apply _ _ ih ih' => exact ih.merge ih'

/-- Fragments applied in order are the calls that made them. -/
theorem settled_fragments (ctx : BuilderContext S) (fragments : List (List (BuilderCall S))) : ∀ {c d : Clauses S},
    (∀ fragment ∈ fragments, ∀ call ∈ fragment, call.Appends) → c.WellFormed → d.WellFormed → c.settled = d.settled →
    ((fragments.map (build ctx empty)).foldl merge c).settled = (build ctx d fragments.flatten).settled := by
  induction fragments with
  | nil => exact fun _ _ _ heq => heq
  | cons fragment fragments ih =>
    intro c d happends hc hd heq
    have hadd := additive_build ctx (happends fragment List.mem_cons_self)
    have hfragment : (build ctx empty fragment).WellFormed := hadd.keeps wellFormed_empty
    have hsame : (c.merge (build ctx empty fragment)).settled = (build ctx d fragment).settled := by
      rw [hadd.merges hd, settled_merge hc.aligned hfragment.aligned, settled_merge hd.aligned hfragment.aligned, heq]
    have hsplit : build ctx d (fragment :: fragments).flatten = build ctx (build ctx d fragment) fragments.flatten := by
      simp [build]
    rw [List.map_cons, List.foldl_cons, hsplit]
    exact ih (fun fragment' hfragment' => happends fragment' (List.mem_cons_of_mem _ hfragment')) (hc.merge hfragment)
      (hadd.keeps hd) hsame

/-- On the clauses that builder calls and merges produce, merging is associative with the empty
clauses as unit and keeps each HAVING condition with its own values. Fragments merged in order
are the clauses of one builder with all the calls, but for the values that the typed ones
replace, and the same HAVING clauses run. -/
theorem merge_composes :
    (∀ c : Clauses S, Reachable c → empty.merge c = c ∧ c.merge empty = c) ∧
    (∀ a b c : Clauses S, Reachable a → Reachable b → Reachable c → (a.merge b).merge c = a.merge (b.merge c)) ∧
    (∀ a b : Clauses S, Reachable a → Reachable b →
      (a.merge b).havingBindings.length = (a.merge b).havingConditions.length ∧
      (∀ i, (a.merge b).havingConditions.length ≤ i → (a.merge b).havingTypedBindings i = none) ∧
      (a.merge b).havingConditions = a.havingConditions ++ b.havingConditions ∧
      (a.merge b).havingBindings = a.havingBindings ++ b.havingBindings ∧
      (∀ i < a.havingConditions.length, (a.merge b).havingTypedBindings i = a.havingTypedBindings i) ∧
      ∀ i, (a.merge b).havingTypedBindings (a.havingConditions.length + i) = b.havingTypedBindings i) ∧
    ∀ (ctx : BuilderContext S) (fragments : List (List (BuilderCall S))),
      (∀ fragment ∈ fragments, ∀ call ∈ fragment, call.Appends) →
      let merged := (fragments.map (build ctx empty)).foldl merge empty
      let whole := build ctx empty fragments.flatten
      merged.settled = whole.settled ∧ merged.havingClauses ctx = whole.havingClauses ctx := by
  refine ⟨fun c hc => ⟨empty_merge hc.wellFormed, merge_empty hc.wellFormed.aligned⟩,
    fun a b c ha hb hc => merge_assoc ha.wellFormed hb.wellFormed hc.wellFormed, fun a b ha hb => ?_,
    fun ctx fragments happends => ?_⟩
  · have haligned := ha.wellFormed.aligned.merge hb.wellFormed.aligned
    exact ⟨haligned.bindings, haligned.typed, rfl, merge_havingBindings ha.wellFormed.aligned hb.wellFormed.aligned,
      fun i hi => merge_typed_left hi, merge_typed_right ha.wellFormed.aligned⟩
  · intro merged whole
    have hsettled : merged.settled = whole.settled :=
      settled_fragments ctx fragments happends wellFormed_empty wellFormed_empty rfl
    refine ⟨hsettled, ?_⟩
    rw [← havingClauses_settled, hsettled, havingClauses_settled]

/-- Types for a query over texts. -/
abbrev textTypes : QueryTypes := ⟨Unit, String, String, String × Option String, String, Unit, Unit, Unit, Unit, Unit⟩

/-- Users, and a registered model of orders with a timestamp column. -/
def usersContext : BuilderContext textTypes where
  formatColumn := fun _ => "\"orders\".\"placed_at\""
  ownColumnType := fun _ => none
  registeredColumnType := fun table column => if table == "orders" && column == "placed_at" then some "timestamptz" else none
  isNull := fun _ => false
  numericHavingValue := fun _ => none
  jsonToColumnValue := fun value columnType => (value, columnType)
  validateHaving := fun _ => none
  softDeleteEnabled := false

def joinOrders : BuilderCall textTypes := .join ⟨.inner, "orders", none, "users.id", "orders.user_id"⟩ none

def lastOrderAfter : BuilderCall textTypes :=
  .having (.aggregate ⟨.max "orders.placed_at", ">", .ok "2024-01-01T00:00:00Z"⟩)

/-- A fragment without the join binds the text, a builder with it the timestamp. -/
theorem fragment_binds_text :
    (((build usersContext empty [joinOrders]).merge (build usersContext empty [lastOrderAfter])).havingBindings =
      [[("2024-01-01T00:00:00Z", none)]]) ∧
    (build usersContext empty [joinOrders, lastOrderAfter]).havingBindings =
      [[("2024-01-01T00:00:00Z", some "timestamptz")]] := by
  decide

end Builder

end TideOrm
