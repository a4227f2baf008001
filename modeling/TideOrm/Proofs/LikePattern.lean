import TideOrm.Spec.LikePattern

/-! A pattern built of a literal is a test of its text, and the tests that stand for a pattern on
SQLite accept what it accepts. -/

namespace TideOrm

open Lib

namespace LikePattern

/-- An escaped literal is read as its own characters. -/
theorem parse_escape (value rest : List Char) :
    parse (escapeLikeLiteral value ++ rest) = (parse rest).map (value.map Wild.item ++ ·) := by
  induction value with
  | nil => simp [escapeLikeLiteral]
  | cons ch value ih =>
    rw [escapeLikeLiteral, List.flatMap_cons, ← escapeLikeLiteral, List.append_assoc]
    split_ifs with hspecial
    · rw [List.cons_append, List.cons_append, List.nil_append, LIKE_ESCAPE_CHAR, parse, ih, Option.map_map]
      rfl
    · rw [not_or, not_or] at hspecial
      obtain ⟨hescape, hpercent, hunderscore⟩ := hspecial
      rw [List.cons_append, List.nil_append, parse, ih, Option.map_map]
      · rfl
      · rintro rfl
        exact absurd rfl hescape
      · intro _ _ rfl
        exact absurd rfl hescape
      · exact hpercent
      · exact hunderscore

theorem like_contains (fold : Char → Char) (needle hay : List Char) :
    like fold (contains needle) hay = true ↔ needle.map fold <:+: hay.map fold := by
  rw [like, contains, parse, parse_escape]
  exact wildMatch_infix

theorem like_startsWith (fold : Char → Char) (needle hay : List Char) :
    like fold (startsWith needle) hay = true ↔ needle.map fold <+: hay.map fold := by
  rw [like, startsWith, parse_escape]
  exact wildMatch_prefix

theorem like_endsWith (fold : Char → Char) (needle hay : List Char) :
    like fold (endsWith needle) hay = true ↔ needle.map fold <:+ hay.map fold := by
  have hparse := parse_escape needle []
  rw [List.append_nil] at hparse
  rw [like, endsWith, parse, hparse]
  simp only [parse, Option.map_some, List.append_nil, Option.any_some]
  exact wildMatch_suffix

/-- A token as LIKE reads it. -/
def tokenWild (token : Char × Bool) : Wild Char := if token.2 then .many else .item token.1

theorem parse_of_tokens (pattern : List Char) :
    ∀ ts ∈ tokens pattern, parse pattern = some (ts.map tokenWild) := by
  fun_induction tokens pattern with
  | case1 => simp [parse]
  | case2 => simp
  | case3 ch rest ih =>
    intro ts hts
    obtain ⟨more, hmore, rfl⟩ := Option.map_eq_some_iff.1 hts
    rw [parse, ih more hmore]
    rfl
  | case4 => simp
  | case5 rest ih =>
    intro ts hts
    obtain ⟨more, hmore, rfl⟩ := Option.map_eq_some_iff.1 hts
    rw [parse, ih more hmore]
    rfl
  | case6 other rest hlone hescape hunderscore hpercent ih =>
    intro ts hts
    obtain ⟨more, hmore, rfl⟩ := Option.map_eq_some_iff.1 hts
    rw [parse, ih more hmore]
    · rfl
    all_goals assumption

/-- The wildcards that `sqliteLiteralPattern` found around a literal. -/
def around (leading trailing : Bool) (literal : List Char) : List (Wild Char) :=
  (if leading then [.many] else []) ++ (literal.map Wild.item ++ if trailing then [.many] else [])

theorem map_tokenWild {ts : List (Char × Bool)} (h : ts.any Prod.snd = false) :
    ts.map tokenWild = (ts.map Prod.fst).map Wild.item := by
  rw [List.any_eq_false] at h
  rw [List.map_map]
  refine List.map_congr_left fun token htoken => ?_
  simp [tokenWild, h token htoken]

/-- What is between the wildcards at the ends. -/
theorem drop_take_ends (ch ch' : Char) (wild wild' : Bool) (middle : List (Char × Bool)) :
    (((ch, wild) :: (middle ++ [(ch', wild')])).take
        (max (((ch, wild) :: (middle ++ [(ch', wild')])).length - if wild' then 1 else 0) (if wild then 1 else 0))).drop
        (if wild then 1 else 0) =
      (if wild then [] else [(ch, wild)]) ++ (middle ++ if wild' then [] else [(ch', wild')]) := by
  cases wild <;> cases wild' <;> simp [List.take_append]

theorem around_of_tokens {ch ch' : Char} {wild wild' : Bool} {middle : List (Char × Bool)}
    (h : ¬((((ch, wild) :: (middle ++ [(ch', wild')])).take
        (max (((ch, wild) :: (middle ++ [(ch', wild')])).length - if wild' then 1 else 0) (if wild then 1 else 0))).drop
        (if wild then 1 else 0)).any Prod.snd = true) :
    ((ch, wild) :: (middle ++ [(ch', wild')])).map tokenWild =
      around wild wild' (((((ch, wild) :: (middle ++ [(ch', wild')])).take
        (max (((ch, wild) :: (middle ++ [(ch', wild')])).length - if wild' then 1 else 0) (if wild then 1 else 0))).drop
        (if wild then 1 else 0)).map Prod.fst) := by
  rw [drop_take_ends] at h ⊢
  rw [around, ← map_tokenWild (Bool.not_eq_true _ ▸ h)]
  cases wild <;> cases wild' <;> simp [tokenWild]

/-- A pattern that has a literal is that literal, with at most a wildcard on each side; a lone
wildcard counts as both. -/
theorem parse_of_literal {pattern literal : List Char} {leading trailing : Bool}
    (h : sqliteLiteralPattern pattern = some (literal, leading, trailing)) :
    parse pattern = some (around leading trailing literal) ∨
      parse pattern = some [.many] ∧ literal = [] ∧ leading = true ∧ trailing = true := by
  obtain ⟨ts, hts, hliteral⟩ := Option.bind_eq_some_iff.1 h
  rw [parse_of_tokens pattern ts hts]
  obtain ⟨hmiddle, hparts⟩ := Option.ite_none_left_eq_some.1 hliteral
  simp only [Option.some.injEq, Prod.mk.injEq] at hparts
  obtain ⟨rfl, rfl, rfl⟩ := hparts
  cases ts with
  | nil => exact .inl rfl
  | cons first more =>
    rcases List.eq_nil_or_concat' more with rfl | ⟨middle, last, rfl⟩
    · obtain ⟨ch, wild⟩ := first
      cases wild with
      | false => exact .inl rfl
      | true => exact .inr ⟨rfl, rfl, rfl, rfl⟩
    · left
      obtain ⟨ch, wild⟩ := first
      obtain ⟨ch', wild'⟩ := last
      have hlast : ((ch, wild) :: (middle ++ [(ch', wild')])).getLast? = some (ch', wild') := by
        rw [← List.cons_append, List.getLast?_concat]
      simp only [hlast, List.head?_cons, Option.any_some] at hmiddle ⊢
      exact congrArg some (around_of_tokens hmiddle)

theorem instr_pos (hay needle : List UInt8) : 0 < instr hay needle ↔ needle <:+: hay := by
  induction hay with
  | nil =>
    rw [instr, List.infix_nil]
    split_ifs with hneedle
    · simpa using hneedle
    · simpa using hneedle
  | cons byte hay ih =>
    rw [instr, List.infix_cons_iff, ← ih, ← List.isPrefixOf_iff_prefix]
    split_ifs with hfront
    · simp [hfront]
    · cases instr hay needle <;> simp [hfront]

theorem substrLast_eq (hay needle : List UInt8) :
    (needle.length == 0 || substrLast hay needle.length == needle) = true ↔ needle <:+ hay := by
  rw [Bool.or_eq_true, beq_iff_eq, beq_iff_eq, substrLast, List.suffix_iff_eq_drop]
  constructor
  · rintro (hnil | hlast)
    · rw [List.length_eq_zero_iff.1 hnil]
      simp
    · split_ifs at hlast with hnil
      · rw [List.length_eq_zero_iff.1 hnil]
        simp
      · exact hlast.symm
  · intro h
    by_cases hnil : needle.length = 0
    · exact .inl hnil
    · right
      rw [if_neg hnil]
      exact h.symm

/-- The test of a literal's bytes is LIKE of the wildcards around it. -/
theorem literalTest_iff (fold : Char → Char) (leading trailing : Bool) (hay literal : List Char) :
    literalTest leading trailing (utf8Bytes (hay.map fold)) (utf8Bytes (literal.map fold)) = true ↔
      wildMatch fold (around leading trailing literal) hay = true := by
  cases leading with
  | false =>
    cases trailing with
    | false =>
      have haround : around false false literal = literal.map Wild.item := by simp [around]
      rw [haround, wildMatch_equal, literalTest, beq_iff_eq]
      constructor
      · intro h
        exact (utf8Bytes_inj h).symm
      · intro h
        rw [h]
    | true =>
      have haround : around false true literal = literal.map Wild.item ++ [.many] := rfl
      rw [haround, wildMatch_prefix, ← utf8Bytes_prefix_iff, literalTest, beq_iff_eq, List.prefix_iff_eq_take]
      exact eq_comm
  | true =>
    cases trailing with
    | false =>
      have haround : around true false literal = .many :: literal.map Wild.item := by simp [around]
      rw [haround, wildMatch_suffix, ← utf8Bytes_suffix_iff, literalTest]
      exact substrLast_eq _ _
    | true =>
      have haround : around true true literal = .many :: (literal.map Wild.item ++ [.many]) := rfl
      rw [haround, wildMatch_infix, ← utf8Bytes_infix_iff, literalTest, decide_eq_true_eq]
      exact instr_pos _ _

theorem literalTest_like (fold : Char → Char) {pattern literal : List Char} {leading trailing : Bool}
    (h : sqliteLiteralPattern pattern = some (literal, leading, trailing)) (hay : List Char) :
    literalTest leading trailing (utf8Bytes (hay.map fold)) (utf8Bytes (literal.map fold)) = true ↔
      like fold pattern hay = true := by
  rw [literalTest_iff]
  rcases parse_of_literal h with hparse | ⟨hparse, rfl, rfl, rfl⟩
  · rw [like, hparse, Option.any_some]
  · -- a lone wildcard accepts everything, and so does one on each side of nothing
    rw [like, hparse, Option.any_some]
    simp only [wildMatch_many_nil, iff_true]
    exact wildMatch_infix.2 List.nil_infix

/-- The built patterns are substring tests, and the tests that SQLite runs instead of a pattern
accept the texts that the pattern accepts. -/
theorem literal_patterns (fold : Char → Char) :
    (∀ needle hay,
      (like fold (contains needle) hay = true ↔ needle.map fold <:+: hay.map fold) ∧
      (like fold (startsWith needle) hay = true ↔ needle.map fold <+: hay.map fold) ∧
      (like fold (endsWith needle) hay = true ↔ needle.map fold <:+ hay.map fold)) ∧
    ∀ pattern literal leading trailing, sqliteLiteralPattern pattern = some (literal, leading, trailing) →
      ∀ hay, literalTest leading trailing (utf8Bytes (hay.map fold)) (utf8Bytes (literal.map fold)) = true ↔
        like fold pattern hay = true :=
  ⟨fun needle hay => ⟨like_contains fold needle hay, like_startsWith fold needle hay, like_endsWith fold needle hay⟩,
    fun _ _ _ _ h hay => literalTest_like fold h hay⟩

theorem literal_patterns_percent :
    literalTest true true (utf8Bytes ("50% off".toList.map Char.toLower)) (utf8Bytes ("0%".toList.map Char.toLower)) = true ↔
      like Char.toLower "%0!%%".toList "50% off".toList = true :=
  (literal_patterns Char.toLower).2 "%0!%%".toList "0%".toList true true (by decide) "50% off".toList

end LikePattern

end TideOrm
