import TideOrm.Proofs.SqlSafety
import TideOrm.Sanity.MysqlRuns
import TideOrm.Sanity.Significant

/-! Moving the foreign keys out of a table's definition loses nothing: the loop finds the first
parenthesis with its match, and divides what is between them at the commas outside of
parentheses. -/

namespace TideOrm

open Lib

section Loop

variable {ddl : List Char}

theorem loop_done {s : DefinitionLoop} (h : s.stop.isSome = true) (runs : List (List Char)) :
    runs.foldl (definitionRound ddl) s = s := by
  induction runs with
  | nil => rfl
  | cons run runs ih =>
    rw [List.foldl_cons, definitionRound, if_pos h]
    exact ih

theorem loop_front {runs : List (List Char)} (h : ∀ run ∈ runs, run ≠ ['('] ∧ run ≠ [')']) (pos : ℕ) :
    runs.foldl (definitionRound ddl) ⟨pos, 0, none, none, 0, []⟩ = ⟨pos + runs.flatten.length, 0, none, none, 0, []⟩ := by
  induction runs generalizing pos with
  | nil => rfl
  | cons run runs ih =>
    obtain ⟨hopen, hclose⟩ := h run List.mem_cons_self
    have hround : definitionRound ddl ⟨pos, 0, none, none, 0, []⟩ run = ⟨pos + run.length, 0, none, none, 0, []⟩ := by
      simp [definitionRound, hopen, hclose]
    rw [List.foldl_cons, hround, ih (fun run hrun => h run (List.mem_cons_of_mem _ hrun)), List.flatten_cons,
      List.length_append, Nat.add_assoc]

theorem parensAfter_cons (depth : ℕ) (run : List Char) (runs : List (List Char)) :
    parensAfter depth (run :: runs) =
      if run = ['('] then parensAfter (depth + 1) runs
      else if run = [')'] then if depth = 0 then none else parensAfter (depth - 1) runs
      else parensAfter depth runs := by
  simp only [parensAfter, nesting, beq_iff_eq]

variable {pos start boundary : ℕ} {parts : List (List Char)}

theorem round_open (depth : ℤ) : definitionRound ddl ⟨pos, depth, some start, none, boundary, parts⟩ ['('] =
    ⟨pos + 1, depth + 1, some start, none, boundary, parts⟩ := rfl

theorem round_close (depth : ℤ) : definitionRound ddl ⟨pos, depth, some start, none, boundary, parts⟩ [')'] =
    if depth - 1 = 0 then
      ⟨pos, depth - 1, some start, some pos, boundary, parts ++ [(ddl.take pos).drop boundary]⟩
    else ⟨pos + 1, depth - 1, some start, none, boundary, parts⟩ := rfl

theorem round_comma : definitionRound ddl ⟨pos, 1, some start, none, boundary, parts⟩ [','] =
    ⟨pos + 1, 1, some start, none, pos + 1, parts ++ [(ddl.take pos).drop boundary]⟩ := rfl

theorem round_other {run : List Char} (hopen : run ≠ ['(']) (hclose : run ≠ [')']) {depth : ℤ}
    (hcomma : ¬(run = [','] ∧ depth = 1)) : definitionRound ddl ⟨pos, depth, some start, none, boundary, parts⟩ run =
    ⟨pos + run.length, depth, some start, none, boundary, parts⟩ := by
  simp only [definitionRound, Option.isSome_none, Bool.false_eq_true, if_false, if_neg hopen, if_neg hclose,
    if_neg hcomma]

/-- Inside the definitions no part ends before a comma outside of the inner parentheses. -/
theorem loop_item {runs : List (List Char)} {depth depth' : ℕ} (h : parensAfter depth runs = some depth')
    (hundivided : Undivided (· == ['(']) (· == [')']) [','] depth runs) (pos : ℕ) :
    runs.foldl (definitionRound ddl) ⟨pos, 1 + depth, some start, none, boundary, parts⟩ =
      ⟨pos + runs.flatten.length, 1 + depth', some start, none, boundary, parts⟩ := by
  induction runs generalizing depth pos with
  | nil =>
    cases h
    rfl
  | cons run runs ih =>
    have hnext : ∀ depth'', parensAfter depth [run] = some depth'' → parensAfter depth'' runs = some depth' →
        definitionRound ddl ⟨pos, 1 + depth, some start, none, boundary, parts⟩ run =
          ⟨pos + run.length, 1 + depth'', some start, none, boundary, parts⟩ →
        (run :: runs).foldl (definitionRound ddl) ⟨pos, 1 + depth, some start, none, boundary, parts⟩ =
          ⟨pos + (run :: runs).flatten.length, 1 + depth', some start, none, boundary, parts⟩ := by
      intro depth'' hrun hruns hround
      rw [List.foldl_cons, hround, ih hruns (hundivided.tail hrun), List.flatten_cons, List.length_append, Nat.add_assoc]
    rw [parensAfter_cons] at h
    split_ifs at h with hopen hclose hdepth
    · subst hopen
      refine hnext (depth + 1) rfl h ?_
      have hone : (1 + depth + 1 : ℤ) = 1 + (depth + 1 : ℕ) := by omega
      rw [round_open, hone]
      rfl
    · subst hclose
      obtain ⟨depth, rfl⟩ := Nat.exists_eq_succ_of_ne_zero hdepth
      refine hnext depth rfl h ?_
      have hone : (1 + (depth + 1 : ℕ) - 1 : ℤ) = 1 + depth := by omega
      rw [round_close, hone, if_neg (by omega)]
      rfl
    · refine hnext depth ?_ h ?_
      · rw [parensAfter_cons, if_neg hopen, if_neg hclose]
        rfl
      · refine round_other hopen hclose ?_
        rintro ⟨rfl, hzero⟩
        exact hundivided.head (by omega)

theorem loop_definition {runs : List (List Char)} (h : Definition runs) (pos : ℕ) :
    runs.foldl (definitionRound ddl) ⟨pos, 1, some start, none, boundary, parts⟩ =
      ⟨pos + runs.flatten.length, 1, some start, none, boundary, parts⟩ :=
  loop_item h.closed h.undivided pos

/-- The definitions become the parts, and the parenthesis after them ends the loop. -/
theorem loop_definitions {items : List (List (List Char))} (hne : items ≠ []) (hitems : ∀ item ∈ items, Definition item)
    {front tail : List Char} (hddl : ddl = front ++ ([[',']].intercalate items).flatten ++ ')' :: tail) :
    ∃ pos boundary, ([[',']].intercalate items ++ [[')']]).foldl (definitionRound ddl)
        ⟨front.length, 1, some start, none, front.length, parts⟩ =
      ⟨pos, 0, some start, some (front.length + ([[',']].intercalate items).flatten.length), boundary,
        parts ++ items.map List.flatten⟩ := by
  induction items generalizing front parts with
  | nil => exact absurd rfl hne
  | cons item items ih =>
    have hitem := hitems item List.mem_cons_self
    have hpart : ∀ {tail}, ddl = front ++ (item.flatten ++ tail) →
        (ddl.take (front.length + item.flatten.length)).drop front.length = item.flatten := by
      intro tail hddl
      rw [hddl, ← List.append_assoc, ← List.length_append, List.take_left, List.drop_left]
    cases items with
    | nil =>
      rw [List.intercalate_singleton] at hddl ⊢
      rw [List.append_assoc] at hddl
      refine ⟨front.length + item.flatten.length, front.length, ?_⟩
      rw [List.foldl_append, loop_definition hitem, List.foldl_cons, List.foldl_nil, round_close, hpart hddl]
      rfl
    | cons other items =>
      have hsplit : [[',']].intercalate (item :: other :: items) = item ++ [','] :: [[',']].intercalate (other :: items) := by
        rw [List.intercalate_cons_cons, List.append_assoc, List.singleton_append]
      have hflat : ([[',']].intercalate (item :: other :: items)).flatten =
          item.flatten ++ ',' :: ([[',']].intercalate (other :: items)).flatten := by
        rw [hsplit, List.flatten_append, List.flatten_cons, List.singleton_append]
      rw [hflat, List.append_assoc, List.append_assoc] at hddl
      have hfront : (front ++ item.flatten ++ [',']).length = front.length + item.flatten.length + 1 := by
        rw [List.length_append, List.length_append, List.length_singleton]
      obtain ⟨pos, boundary, hrest⟩ := @ih (parts ++ [item.flatten]) (List.cons_ne_nil _ _)
        (fun item hitem => hitems item (List.mem_cons_of_mem _ hitem)) (front ++ item.flatten ++ [','])
        (by rw [hddl]; simp only [List.append_assoc, List.cons_append, List.nil_append])
      refine ⟨pos, boundary, ?_⟩
      have hstop : front.length + (item.flatten.length + (([[',']].intercalate (other :: items)).flatten.length + 1)) =
          front.length + item.flatten.length + 1 + ([[',']].intercalate (other :: items)).flatten.length := by omega
      rw [hflat, List.length_append, List.length_cons, hstop, hsplit, List.append_assoc, List.foldl_append,
        loop_definition hitem, List.cons_append, List.foldl_cons, round_comma, hpart hddl, ← hfront, hrest,
        List.append_assoc parts]
      rfl

/-- The loop of a text whose first parenthesis has its match. -/
theorem definitionLoop_split {front tail : List (List Char)} {items : List (List (List Char))} (hne : items ≠ [])
    (hfirst : ∀ run ∈ front, run ≠ ['('] ∧ run ≠ [')']) (hitems : ∀ item ∈ items, Definition item)
    (hruns : mysqlRuns ddl = front ++ ['('] :: [[',']].intercalate items ++ [')'] :: tail) :
    (definitionLoop ddl).start = some front.flatten.length ∧
      (definitionLoop ddl).stop = some (front.flatten.length + 1 + ([[',']].intercalate items).flatten.length) ∧
      (definitionLoop ddl).parts = items.map List.flatten := by
  have hddl : ddl = (front.flatten ++ ['(']) ++ ([[',']].intercalate items).flatten ++ ')' :: tail.flatten := by
    rw [← mysqlRuns_flatten ddl, hruns]
    simp
  obtain ⟨pos, boundary, hloop⟩ := @loop_definitions ddl front.flatten.length [] items hne hitems _ _ hddl
  have hlen : (front.flatten ++ ['(']).length = front.flatten.length + 1 := by simp
  rw [hlen] at hloop
  have hopen : definitionRound ddl ⟨front.flatten.length, 0, none, none, 0, []⟩ ['('] =
      ⟨front.flatten.length + 1, 1, some front.flatten.length, none, front.flatten.length + 1, []⟩ := rfl
  have hsplit : front ++ ['('] :: [[',']].intercalate items ++ [')'] :: tail =
      front ++ ['('] :: ([[',']].intercalate items ++ [[')']] ++ tail) := by simp
  have hresult : definitionLoop ddl = ⟨pos, 0, some front.flatten.length,
      some (front.flatten.length + 1 + ([[',']].intercalate items).flatten.length), boundary, items.map List.flatten⟩ := by
    rw [definitionLoop, hruns, hsplit, List.foldl_append, loop_front hfirst, Nat.zero_add, List.foldl_cons, hopen,
      List.foldl_append, hloop, loop_done rfl]
    rfl
  rw [hresult]
  exact ⟨rfl, rfl, rfl⟩

/-- No other run changes the depth. -/
theorem round_plain {run : List Char} (hopen : run ≠ ['(']) (hclose : run ≠ [')']) (depth : ℤ) :
    ∃ pos' boundary' parts', definitionRound ddl ⟨pos, depth, some start, none, boundary, parts⟩ run =
      ⟨pos', depth, some start, none, boundary', parts'⟩ := by
  by_cases hcomma : run = [','] ∧ depth = 1
  · obtain ⟨rfl, rfl⟩ := hcomma
    exact ⟨_, _, _, round_comma⟩
  · exact ⟨_, _, _, round_other hopen hclose hcomma⟩

/-- A loop that ends found the match. -/
theorem loop_closed {runs : List (List Char)} {depth : ℕ}
    (h : (runs.foldl (definitionRound ddl) ⟨pos, 1 + depth, some start, none, boundary, parts⟩).stop.isSome = true) :
    ∃ inner tail, runs = inner ++ [')'] :: tail ∧ parensAfter depth inner = some 0 := by
  induction runs generalizing pos boundary parts depth with
  | nil => cases h
  | cons run runs ih =>
    rw [List.foldl_cons] at h
    by_cases hopen : run = ['(']
    · subst hopen
      have hone : (1 + depth + 1 : ℤ) = 1 + (depth + 1 : ℕ) := by omega
      rw [round_open, hone] at h
      obtain ⟨inner, tail, rfl, hinner⟩ := ih h
      exact ⟨['('] :: inner, tail, rfl, by rw [parensAfter_cons, if_pos rfl, hinner]⟩
    · by_cases hclose : run = [')']
      · subst hclose
        cases depth with
        | zero => exact ⟨[], runs, rfl, rfl⟩
        | succ depth =>
          have hone : (1 + (depth + 1 : ℕ) - 1 : ℤ) = 1 + depth := by omega
          rw [round_close, hone, if_neg (by omega)] at h
          obtain ⟨inner, tail, rfl, hinner⟩ := ih h
          refine ⟨[')'] :: inner, tail, rfl, ?_⟩
          rw [parensAfter_cons, if_neg hopen, if_pos rfl, if_neg (Nat.succ_ne_zero depth), Nat.add_sub_cancel, hinner]
      · obtain ⟨pos, boundary, parts, hround⟩ := round_plain hopen hclose (1 + depth : ℤ)
        rw [hround] at h
        obtain ⟨inner, tail, rfl, hinner⟩ := ih h
        exact ⟨run :: inner, tail, rfl, by rw [parensAfter_cons, if_neg hopen, if_neg hclose, hinner]⟩

end Loop

section Definitions

variable (u : CharTables)

theorem not_foreign_of_constraint {token : Token} (h : token.spells "CONSTRAINT".toList = true) :
    token.spells "FOREIGN".toList = false := by
  rw [Token.spells, Bool.and_eq_true, eqIgnoreAsciiCase] at h
  rw [Token.spells, eqIgnoreAsciiCase, beq_iff_eq.1 h.2]
  exact Bool.and_false _

/-- A definition is a foreign key's when its first word is `FOREIGN`, or when it is `CONSTRAINT` and
`FOREIGN` follows one token after it. -/
theorem isForeignKey_iff (part : List Char) : isForeignKey u part = true ↔
    (∃ word tokens, significant u part = word :: tokens ∧ word.spells "FOREIGN".toList = true) ∨
      ∃ constraint name word tokens, significant u part = constraint :: name :: word :: tokens ∧
        constraint.spells "CONSTRAINT".toList = true ∧ word.spells "FOREIGN".toList = true := by
  rw [isForeignKey]
  cases significant u part with
  | nil => simp
  | cons first tokens =>
    have hforeign := @not_foreign_of_constraint first
    generalize "CONSTRAINT".toList = constraint at hforeign ⊢
    generalize "FOREIGN".toList = foreign at hforeign ⊢
    rw [List.head?_cons, Option.any_some]
    by_cases hconstraint : first.spells constraint = true
    · rw [if_pos hconstraint]
      match tokens with
      | [] => simp [hforeign hconstraint]
      | [name] => simp [hforeign hconstraint]
      | name :: word :: tokens => simp [hforeign hconstraint, hconstraint]
    · rw [if_neg hconstraint]
      simp [hconstraint]

variable {u}

theorem keyword_letters {word : List Char} {keyword : String} (h : eqIgnoreAsciiCase word keyword.toList = true)
    (hletters : (keyword.toList.map Char.toLower).all Char.isAlpha = true) : ∀ ch ∈ word, ch.isAlpha = true := by
  intro ch hch
  rw [eqIgnoreAsciiCase, beq_iff_eq] at h
  exact toLower_isAlpha (List.all_eq_true.1 hletters _ (h ▸ List.mem_map_of_mem hch))

theorem foreign_letters {word : List Char} (h : eqIgnoreAsciiCase word "FOREIGN".toList = true) :
    word ≠ [] ∧ ∀ ch ∈ word, ch.isAlpha = true :=
  ⟨by rintro rfl; exact absurd h (by decide), keyword_letters h (by decide)⟩

theorem constraint_letters {word : List Char} (h : eqIgnoreAsciiCase word "CONSTRAINT".toList = true) :
    word ≠ [] ∧ ∀ ch ∈ word, ch.isAlpha = true :=
  ⟨by rintro rfl; exact absurd h (by decide), keyword_letters h (by decide)⟩

theorem not_space_of_isAlpha {ch : Char} (h : ch.isAlpha = true) : isWhitespace ch = false := by
  by_contra hspace
  have hword : identifierChar asciiTables ch = true := identifierChar_of_isAlpha h
  rw [@identifierChar_space asciiTables false ch (by simpa [spaceChar] using hspace)] at hword
  cases hword

theorem head_letter {word : List Char} (hne : word ≠ []) (h : ∀ ch ∈ word, ch.isAlpha = true) (rest : List Char) :
    ∀ ch ∈ (word ++ rest).head?, isWhitespace ch = false := by
  intro ch hch
  rw [List.head?_append_of_ne_nil _ hne] at hch
  exact not_space_of_isAlpha (h ch (List.mem_of_head? hch))

/-- The lexer's tokens of such a definition: the name is one of them, whatever it holds. -/
theorem ForeignKeyText.isForeignKey {part : List Char} (h : ForeignKeyText u part) : isForeignKey u part = true := by
  rw [isForeignKey_iff]
  cases h with
  | @unnamed gap word rest hgap hword hrest =>
    obtain ⟨hne, hletters⟩ := foreign_letters hword
    obtain ⟨_, _, hspace⟩ := @significantFrom_space u [] _ 0 gap hgap (head_letter hne hletters rest)
    obtain ⟨_, _, htokens⟩ := significantFrom_word hne hletters hrest
    exact .inl ⟨_, _, hspace.trans htokens, hword⟩
  | @named gap constraint gap' name gap'' word rest hgap hconstraint hword hrest =>
    obtain ⟨hne, hletters⟩ := foreign_letters hword
    obtain ⟨hne', hletters'⟩ := constraint_letters hconstraint
    have hgap₁ : ∀ ch ∈ gap, isWhitespace ch = true := fun ch hch => hgap ch (by simp [hch])
    have hgap₂ : ∀ ch ∈ gap', isWhitespace ch = true := fun ch hch => hgap ch (by simp [hch])
    have hgap₃ : ∀ ch ∈ gap'', isWhitespace ch = true := fun ch hch => hgap ch (by simp [hch])
    have hafter : ∀ ch ∈ (gap' ++ (quoteIdent .mySql name ++ (gap'' ++ (word ++ rest)))).head?, identifierChar u ch = false := by
      intro ch hch
      cases gap' with
      | nil =>
        obtain rfl : '`' = ch := Option.some.inj hch
        by_contra hidentifier
        exact absurd (@identifierChar_not_quote u '`' (by simpa using hidentifier)) (by decide)
      | cons space gap' =>
        obtain rfl : space = ch := Option.some.inj hch
        exact @identifierChar_space u false space (by simpa [spaceChar] using hgap₂ space List.mem_cons_self)
    have hquoted : (gap'' ++ (word ++ rest)).head? ≠ some (DatabaseType.quoteChar .mySql) := by
      intro hquote
      cases gap'' with
      | nil =>
        obtain ⟨first, letters, rfl⟩ := List.exists_cons_of_ne_nil hne
        have hfirst : first = '`' := Option.some.inj hquote
        exact absurd (hfirst ▸ hletters first List.mem_cons_self) (by decide)
      | cons space gap'' =>
        have hspace : space = '`' := Option.some.inj hquote
        exact absurd (hspace ▸ hgap₃ space List.mem_cons_self) (by decide)
    have hname : ∀ ch ∈ (quoteIdent .mySql name ++ (gap'' ++ (word ++ rest))).head?, isWhitespace ch = false := by
      intro ch hch
      obtain rfl : '`' = ch := Option.some.inj hch
      rfl
    obtain ⟨b₁, o₁, h₁⟩ := @significantFrom_space u [] _ 0 gap hgap₁ (head_letter hne' hletters' _)
    obtain ⟨b₂, o₂, h₂⟩ := @significantFrom_word u b₁ _ o₁ constraint hne' hletters' hafter
    obtain ⟨b₃, o₃, h₃⟩ := @significantFrom_space u b₂ _ o₂ gap' hgap₂ hname
    obtain ⟨b₄, o₄, h₄⟩ := @significantFrom_quoteIdent u b₃ _ o₃ .mySql name hquoted
    obtain ⟨b₅, o₅, h₅⟩ := @significantFrom_space u b₄ _ o₄ gap'' hgap₃ (head_letter hne hletters rest)
    obtain ⟨b₆, o₆, h₆⟩ := @significantFrom_word u b₅ _ o₅ word hne hletters hrest
    refine .inr ⟨⟨constraint, o₁, .word⟩, ⟨quoteIdent .mySql name, o₃, .identifier⟩, ⟨word, o₅, .word⟩,
      significantFrom u b₆ o₆ rest, ?_, hconstraint, hword⟩
    exact h₁.trans (h₂.trans (congrArg _ (h₃.trans (h₄.trans (congrArg _ (h₅.trans h₆))))))

variable {ddl front inner tail : List Char}

theorem take_opening (hddl : ddl = front ++ '(' :: inner ++ ')' :: tail) :
    ddl.take (front.length + 1) = front ++ ['('] ∧ ddl.drop (front.length + 1 + inner.length + 1) = tail := by
  have hsplit : ddl = (front ++ ['(']) ++ (inner ++ ')' :: tail) := by
    rw [hddl]
    simp
  have hsplit' : ddl = (front ++ '(' :: inner ++ [')']) ++ tail := by
    rw [hddl]
    simp
  have hlen : (front ++ ['(']).length = front.length + 1 := by simp
  have hlen' : (front ++ '(' :: inner ++ [')']).length = front.length + 1 + inner.length + 1 := by
    simp
    omega
  rw [← hlen', ← hlen]
  exact ⟨by rw [hsplit, List.take_left], by rw [hsplit', List.drop_left]⟩

theorem mysqlDeferForeignKeys_split {ddl : List Char} {front tail : List (List Char)} {items : List (List (List Char))}
    (hne : items ≠ []) (hfirst : ∀ run ∈ front, run ≠ ['('] ∧ run ≠ [')']) (hitems : ∀ item ∈ items, Definition item)
    (hruns : mysqlRuns ddl = front ++ ['('] :: [[',']].intercalate items ++ [')'] :: tail) (table : List Char) :
    mysqlDeferForeignKeys u ddl table =
      .ok (withoutForeignKeys u ddl front.flatten tail.flatten (items.map List.flatten),
        ((items.map List.flatten).filter (isForeignKey u)).map (addDefinition table)) := by
  obtain ⟨hstart, hstop, hparts⟩ := definitionLoop_split hne hfirst hitems hruns
  have hddl : ddl = front.flatten ++ '(' :: ([[',']].intercalate items).flatten ++ ')' :: tail.flatten := by
    rw [← mysqlRuns_flatten ddl, hruns]
    simp
  obtain ⟨htake, hdrop⟩ := take_opening hddl
  rw [mysqlDeferForeignKeys, hstart, hstop, hparts, withoutForeignKeys]
  simp only [List.isEmpty_map, List.isEmpty_iff, htake, hdrop]
  split_ifs with hnone
  · rfl
  · rw [List.append_assoc front.flatten, List.singleton_append]

theorem flatten_items (items : List (List (List Char))) :
    ([[',']].intercalate items).flatten = [','].intercalate (items.map List.flatten) := by
  induction items with
  | nil => rfl
  | cons item items ih =>
    cases items with
    | nil => rw [List.intercalate_singleton, List.map_singleton, List.intercalate_singleton]
    | cons other items =>
      rw [List.intercalate_cons_cons, List.map_cons, List.map_cons, List.intercalate_cons_cons, ← List.map_cons, ← ih,
        List.flatten_append, List.flatten_append, List.flatten_singleton]

theorem definition_nil : Definition [] := ⟨rfl, undivided_nil 0⟩

/-- The runs of a text put together from definitions. -/
theorem mysqlRuns_definitions {front tail : List (List Char)} {items : List (List (List Char))} (hfront : Stands front)
    (hitems : ∀ item ∈ items, Stands item) (htail : mysqlRuns tail.flatten = tail) :
    mysqlRuns (front.flatten ++ '(' :: ([[',']].intercalate items).flatten ++ ')' :: tail.flatten) =
      front ++ ['('] :: [[',']].intercalate items ++ [')'] :: tail := by
  rw [List.append_assoc, List.cons_append, hfront.read rfl, (Stands.intercalate hitems).read rfl, htail, List.append_assoc,
    List.cons_append]

/-- No definition that is kept is moved later. -/
theorem withoutForeignKeys_again {ddl : List Char} {front tail : List (List Char)} {items : List (List (List Char))}
    (hne : items ≠ []) (hfirst : ∀ run ∈ front, run ≠ ['('] ∧ run ≠ [')']) (hitems : ∀ item ∈ items, Definition item)
    (hruns : mysqlRuns ddl = front ++ ['('] :: [[',']].intercalate items ++ [')'] :: tail) (table : List Char) :
    mysqlDeferForeignKeys u (withoutForeignKeys u ddl front.flatten tail.flatten (items.map List.flatten)) table =
      .ok (withoutForeignKeys u ddl front.flatten tail.flatten (items.map List.flatten), []) := by
  by_cases hnone : (items.map List.flatten).filter (isForeignKey u) = []
  · have hsame : withoutForeignKeys u ddl front.flatten tail.flatten (items.map List.flatten) = ddl := if_pos hnone
    have hsplit := @mysqlDeferForeignKeys_split u ddl front tail items hne hfirst hitems hruns table
    rw [hsame, hnone, List.map_nil] at hsplit
    rwa [hsame]
  · -- an item for each definition kept, and one for the empty text when there is none
    have hafter : mysqlRuns ddl = (front ++ [['(']]) ++ ([[',']].intercalate items ++ [')'] :: tail) := by
      rw [hruns]
      simp
    have hbefore : mysqlRuns ddl = [] ++ (front ++ ['('] :: ([[',']].intercalate items ++ [')'] :: tail)) := by
      rw [hruns]
      simp
    have hlast : mysqlRuns ddl = (front ++ ['('] :: [[',']].intercalate items ++ [[')']]) ++ tail := by
      rw [hruns]
      simp
    have hstands := stands_items hafter
    obtain ⟨kept, hkept, hkeptItems, hjoin, hmoved⟩ : ∃ kept : List (List (List Char)), kept ≠ [] ∧
        (∀ item ∈ kept, Definition item ∧ Stands item) ∧
        ([[',']].intercalate kept).flatten =
          [','].intercalate ((items.map List.flatten).filter fun part => !isForeignKey u part) ∧
        (kept.map List.flatten).filter (isForeignKey u) = [] := by
      rw [List.filter_map]
      by_cases hkept : items.filter ((fun part => !isForeignKey u part) ∘ List.flatten) = []
      · refine ⟨[[]], List.cons_ne_nil _ _, fun item hitem => ?_, ?_, rfl⟩
        · rw [List.mem_singleton.1 hitem]
          exact ⟨definition_nil, .nil⟩
        · rw [hkept]
          rfl
      · refine ⟨_, hkept, fun item hitem => ?_, flatten_items _, ?_⟩
        · have hmem := (List.mem_filter.1 hitem).1
          exact ⟨hitems item hmem, hstands item hmem⟩
        · rw [List.filter_eq_nil_iff]
          intro part hpart hforeign
          obtain ⟨item, hitem, rfl⟩ := List.mem_map.1 hpart
          have hnot := (List.mem_filter.1 hitem).2
          rw [Function.comp_apply, hforeign] at hnot
          cases hnot
    have htext : withoutForeignKeys u ddl front.flatten tail.flatten (items.map List.flatten) =
        front.flatten ++ '(' :: ([[',']].intercalate kept).flatten ++ ')' :: tail.flatten := by
      rw [withoutForeignKeys, if_neg hnone, hjoin]
    have hruns' := mysqlRuns_definitions (stands_between hbefore) (fun item hitem => (hkeptItems item hitem).2)
      (mysqlRuns_tail hlast)
    rw [htext]
    have hsplit := @mysqlDeferForeignKeys_split u _ front tail kept hkept hfirst
      (fun item hitem => (hkeptItems item hitem).1) hruns' table
    rw [hmoved, withoutForeignKeys, hmoved, if_pos rfl, List.map_nil] at hsplit
    exact hsplit

end Definitions

/-- The text between the first parenthesis and its match is divided at its outer commas; the
foreign keys among the definitions become statements, the rest of the text stays as it is, and
nothing more is moved out of the result. A text whose first parenthesis has no match is refused. -/
theorem mysqlDeferForeignKeys_exact (u : CharTables) (ddl table : List Char) :
    (∀ front inner tail, Parenthesized ddl front inner tail →
      ∃ definitions : List (List (List Char)), definitions ≠ [] ∧ inner = [[',']].intercalate definitions ∧
        (∀ definition ∈ definitions, Definition definition) ∧
        mysqlDeferForeignKeys u ddl table =
          .ok (withoutForeignKeys u ddl front.flatten tail.flatten (definitions.map List.flatten),
            ((definitions.map List.flatten).filter (isForeignKey u)).map (addDefinition table)) ∧
        mysqlDeferForeignKeys u (withoutForeignKeys u ddl front.flatten tail.flatten (definitions.map List.flatten)) table =
          .ok (withoutForeignKeys u ddl front.flatten tail.flatten (definitions.map List.flatten), [])) ∧
      ((∀ front inner tail, ¬Parenthesized ddl front inner tail) →
        (∀ front tail, mysqlRuns ddl = front ++ [')'] :: tail → ['('] ∈ front) →
        mysqlDeferForeignKeys u ddl table =
          .error (.internal "SHOW CREATE TABLE returned an invalid table definition")) ∧
      ∀ part, (ForeignKeyText u part → isForeignKey u part = true) ∧
        (isForeignKey u part = true ↔
          (∃ word tokens, significant u part = word :: tokens ∧ word.spells "FOREIGN".toList = true) ∨
            ∃ constraint name word tokens, significant u part = constraint :: name :: word :: tokens ∧
              constraint.spells "CONSTRAINT".toList = true ∧ word.spells "FOREIGN".toList = true) := by
  refine ⟨fun front inner tail h => ?_, fun hnone hfirst => ?_, fun part => ⟨ForeignKeyText.isForeignKey, isForeignKey_iff u part⟩⟩
  · obtain ⟨first, items, rfl, hclosed, hundivided, hitems⟩ := @exists_items _ _ _ [','] rfl rfl inner 0 h.closed
    have hdefinitions : ∀ definition ∈ first :: items, Definition definition := by
      intro definition hdefinition
      rcases List.mem_cons.1 hdefinition with rfl | hdefinition
      · exact ⟨hclosed, hundivided⟩
      · exact hitems definition hdefinition
    exact ⟨first :: items, List.cons_ne_nil _ _, rfl, hdefinitions,
      mysqlDeferForeignKeys_split (List.cons_ne_nil _ _) h.first hdefinitions h.runs table,
      withoutForeignKeys_again (List.cons_ne_nil _ _) h.first hdefinitions h.runs table⟩
  · have hopen : (definitionLoop ddl).start = none ∨ (definitionLoop ddl).stop = none := by
      cases hfind : (mysqlRuns ddl).find? (fun run => run == ['('] || run == [')']) with
      | none =>
        have hplain : ∀ run ∈ mysqlRuns ddl, run ≠ ['('] ∧ run ≠ [')'] := by
          intro run hrun
          have h := List.find?_eq_none.1 hfind run hrun
          simpa using h
        rw [definitionLoop, loop_front hplain]
        exact .inl rfl
      | some run =>
        obtain ⟨hparen, front, rest, hruns, hfront⟩ := List.find?_eq_some_iff_append.1 hfind
        have hplain : ∀ run ∈ front, run ≠ ['('] ∧ run ≠ [')'] := by
          intro run hrun
          have h := hfront run hrun
          simpa using h
        have hopening : run = ['('] := by
          rcases Bool.or_eq_true_iff.1 hparen with hparen | hparen
          · exact beq_iff_eq.1 hparen
          · obtain rfl := beq_iff_eq.1 hparen
            exact absurd rfl (hplain _ (hfirst front rest hruns)).1
        subst hopening
        by_contra hopen
        rw [not_or] at hopen
        have hstop := Option.ne_none_iff_isSome.1 hopen.2
        rw [definitionLoop, hruns, List.foldl_append, loop_front hplain, List.foldl_cons] at hstop
        obtain ⟨inner, tail, rfl, hinner⟩ := @loop_closed ddl _ _ _ [] rest 0 hstop
        refine hnone front inner tail ⟨?_, hplain, hinner⟩
        rw [hruns, List.append_assoc, List.cons_append]
    rw [mysqlDeferForeignKeys]
    rcases hopen with hopen | hopen
    · rw [hopen]
    · rw [hopen]
      cases (definitionLoop ddl).start <;> rfl

/-- A table whose default value holds a comma and a parenthesis. -/
def deferSample : List Char :=
  "CREATE TABLE `t` (`a` int DEFAULT 'x,y)', CONSTRAINT `fk` FOREIGN KEY (`a`) REFERENCES `u` (`a`)) ENGINE=InnoDB".toList

theorem mysqlDeferForeignKeys_exact_sample :
    Parenthesized deferSample ((mysqlRuns deferSample).take 15) (((mysqlRuns deferSample).drop 16).take 62)
        ((mysqlRuns deferSample).drop 79) ∧
      ∃ definitions : List (List (List Char)), definitions ≠ [] ∧
        ((mysqlRuns deferSample).drop 16).take 62 = [[',']].intercalate definitions ∧
        (∀ definition ∈ definitions, Definition definition) ∧
        mysqlDeferForeignKeys asciiTables deferSample ['t'] =
          .ok (withoutForeignKeys asciiTables deferSample ((mysqlRuns deferSample).take 15).flatten
              ((mysqlRuns deferSample).drop 79).flatten (definitions.map List.flatten),
            ((definitions.map List.flatten).filter (isForeignKey asciiTables)).map (addDefinition ['t'])) := by
  have h : Parenthesized deferSample ((mysqlRuns deferSample).take 15) (((mysqlRuns deferSample).drop 16).take 62)
      ((mysqlRuns deferSample).drop 79) := by
    -- a text as its characters: the kernel would decode it from bytes at every use
    have hchars : deferSample = _ := String.toList_ofList
    rw [hchars]
    exact ⟨by decide +kernel, by decide +kernel, by decide +kernel⟩
  obtain ⟨definitions, hne, hinner, hdefinitions, hresult, -⟩ :=
    (mysqlDeferForeignKeys_exact asciiTables deferSample ['t']).1 _ _ _ h
  exact ⟨h, definitions, hne, hinner, hdefinitions, hresult⟩

/-- The name of the constraint that is moved need not be quoted. -/
theorem defers_unquoted_name :
    ((significant asciiTables "CONSTRAINT fk FOREIGN KEY (a)".toList).map Token.text).take 3 =
        ["CONSTRAINT".toList, "fk".toList, "FOREIGN".toList] ∧
      mysqlDeferForeignKeys asciiTables "(a int,CONSTRAINT fk FOREIGN KEY (a))".toList ['t'] =
        .ok ("(a int)".toList, ["ALTER TABLE `t` ADD CONSTRAINT fk FOREIGN KEY (a)".toList]) := by
  repeat rw [String.toList_ofList]
  decide +kernel

end TideOrm
