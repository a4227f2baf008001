import TideOrm.Spec.SqliteJson

/-! What a test of a JSON document decides, and how tests are built from tests that decide. -/

namespace TideOrm.SqliteJson

open Lib

section Markers

variable {M : Type}

def Comparison.markers : Comparison M → List M
  | .parts coefficient negative scale => [coefficient, negative, scale]
  | _ => []

/-- The values of a test from the left. -/
def Test.markers : Test M → List M
  | .normal _ comparison => comparison.markers
  | .atomIs _ value | .keyIs _ value => [value]
  | .and left right | .or left right => left.markers ++ right.markers
  | .not test | .group test | .exist _ _ test => test.markers
  | _ => []

theorem comparison_markers (comparison : Comparison M) : comparison.pieces.filterMap Sum.getRight? = comparison.markers := by
  cases comparison <;> rfl

/-- The markers stand in the SQL in their order. -/
theorem markers_pieces (column : String) (test : Test M) : (test.pieces column).filterMap Sum.getRight? = test.markers := by
  induction test with
  | normal node comparison =>
    rw [Test.pieces, List.filterMap_cons, List.filterMap_append, comparison_markers]
    exact List.append_nil _
  | and left right ihl ihr | or left right ihl ihr =>
    rw [Test.pieces, List.filterMap_append, List.filterMap_cons, ihl, ihr]
    rfl
  | not test ih => exact ih
  | group test ih | exist node row test ih =>
    rw [Test.pieces, List.filterMap_cons, List.filterMap_append, ih]
    exact List.append_nil _
  | _ => rfl

theorem comparison_pieces (comparison : Comparison M) :
    comparison.pieces.map (Sum.map id fun _ => ()) = comparison.erase.pieces := by
  cases comparison <;> rfl

theorem pieces_erase (column : String) (test : Test M) :
    (test.pieces column).map (Sum.map id fun _ => ()) = test.erase.pieces column := by
  induction test with
  | normal node comparison =>
    rw [Test.pieces, List.map_cons, List.map_append, comparison_pieces]
    rfl
  | and left right ihl ihr | or left right ihl ihr =>
    rw [Test.pieces, List.map_append, List.map_cons, ihl, ihr]
    rfl
  | not test ih =>
    rw [Test.pieces, List.map_cons, ih]
    rfl
  | group test ih | exist node row test ih =>
    rw [Test.pieces, List.map_cons, List.map_append, ih]
    rfl
  | _ => rfl

/-- Its own values fill a test. -/
theorem fill_erase (test : Test Value) (values : List Value) : test.erase.fill (test.markers ++ values) = some (test, values) := by
  induction test generalizing values with
  | normal node comparison => cases comparison <;> rfl
  | and left right ihl ihr | or left right ihl ihr =>
    rw [Test.erase, Test.markers, Test.fill, List.append_assoc, ihl]
    simp only [Option.bind_some, ihr, Option.map_some]
  | not test ih | group test ih | exist node row test ih =>
    rw [Test.erase, Test.markers, Test.fill, ih]
    rfl
  | _ => rfl

theorem erase_foldl (join : ∀ {M : Type}, Test M → Test M → Test M)
    (herase : ∀ a b : Test M, (join a b).erase = join a.erase b.erase) (tests : List (Test M)) (first : Test M) :
    (tests.foldl join first).erase = (tests.map Test.erase).foldl join first.erase := by
  induction tests generalizing first with
  | nil => rfl
  | cons test tests ih => rw [List.foldl_cons, ih, herase]; rfl

theorem markers_foldl (join : Test M → Test M → Test M) (hjoin : ∀ a b : Test M, (join a b).markers = a.markers ++ b.markers)
    (tests : List (Test M)) (first : Test M) :
    (tests.foldl join first).markers = first.markers ++ tests.flatMap Test.markers := by
  induction tests generalizing first with
  | nil => exact (List.append_nil _).symm
  | cons test tests ih => rw [List.foldl_cons, ih, hjoin, List.append_assoc, List.flatMap_cons]

theorem erase_joinAnd (first : Test M) (checks : List (Test M)) :
    (joinAnd first checks).erase = joinAnd first.erase (checks.map Test.erase) :=
  congrArg Test.group (erase_foldl .and (fun _ _ => rfl) checks first)

theorem markers_joinAnd (first : Test M) (checks : List (Test M)) :
    (joinAnd first checks).markers = first.markers ++ checks.flatMap Test.markers :=
  markers_foldl .and (fun _ _ => rfl) checks first

theorem erase_anyOf (tests : List (Test M)) : (anyOf tests).erase = anyOf (tests.map Test.erase) := by
  cases tests with
  | nil => rfl
  | cons first rest => exact congrArg Test.group (erase_foldl .or (fun _ _ => rfl) rest first)

theorem markers_anyOf (tests : List (Test M)) : (anyOf tests).markers = tests.flatMap Test.markers := by
  cases tests with
  | nil => rfl
  | cons first rest => exact markers_foldl .or (fun _ _ => rfl) rest first

end Markers

section Tells

variable {X I : Type}

/-- Of what is read, and admitted, the test decides. -/
def Tells (test : Test Value) (read : Document → Env → Option X) (G P : X → Prop) : Prop :=
  ∀ document env x, read document env = some x → G x → Decides (test.eval document env) (P x)

def Node.reading (node : Node) (document : Document) (env : Env) : Option Document := node.read document env

def rowReading (row : ℕ) (_ : Document) (env : Env) : Option Row := env row

variable {read : Document → Env → Option X} {test : Test Value} {G P : X → Prop}

theorem Tells.mono {G' P' : X → Prop} (h : Tells test read G P) (hG : ∀ x, G' x → G x) (hP : ∀ x, G' x → (P x ↔ P' x)) :
    Tells test read G' P' :=
  fun document env x hread hx => (h document env x hread (hG x hx)).congr (hP x hx)

/-- A test of a row's value is a test of the row. -/
theorem Tells.row {row : ℕ} {G P : Document → Prop} (h : Tells test (Node.row row).reading G P) :
    Tells test (rowReading row) (fun entry => G entry.value) (fun entry => P entry.value) :=
  fun document env entry hread hentry => h document env entry.value (congrArg (Option.map Row.value) hread) hentry

theorem Tells.and {left right : Test Value} {Q : X → Prop} (hleft : Tells left read G P)
    (hright : Tells right read (fun x => G x ∧ P x) Q) : Tells (.and left right) read G (fun x => P x ∧ Q x) :=
  fun document env x hread hx =>
    (hleft document env x hread hx).both fun hP => hright document env x hread ⟨hx, hP⟩

theorem Tells.or {left right : Test Value} {Q : X → Prop} (hleft : Tells left read G P) (hright : Tells right read G Q) :
    Tells (.or left right) read G (fun x => P x ∨ Q x) :=
  fun document env x hread hx => (hleft document env x hread hx).either fun _ => hright document env x hread hx

theorem Tells.not (h : Tells test read G P) : Tells (.not test) read G (fun x => ¬P x) :=
  fun document env x hread hx => (h document env x hread hx).not

theorem Tells.group (h : Tells test read G P) : Tells (.group test) read G P := h

/-- Behind a first test, each test decides of what has passed. -/
theorem Tells.conj {items : List I} {checks : List (Test Value)} {Q : I → X → Prop} {K : X → Prop} (hfirst : Tells test read G P)
    (hchecks : List.Forall₂ (fun item check => Tells check read K (Q item)) items checks) (hK : ∀ x, G x → P x → K x) :
    Tells (joinAnd test checks) read G (fun x => P x ∧ ∀ item ∈ items, Q item x) := by
  suffices h : Tells (checks.foldl .and test) read G (fun x => P x ∧ ∀ item ∈ items, Q item x) from h.group
  induction hchecks generalizing test P with
  | nil => exact hfirst.mono (fun _ h => h) fun x _ => by simp
  | cons hcheck _ ih =>
    have hnext := hfirst.and (hcheck.mono (fun x hx => hK x hx.1 hx.2) fun _ _ => Iff.rfl)
    refine (ih hnext fun x hG hP => hK x hG hP.1).mono (fun _ h => h) fun x _ => ?_
    rw [List.forall_mem_cons, and_assoc]

theorem Tells.disjFrom {items : List I} {checks : List (Test Value)} {Q : I → X → Prop} (hfirst : Tells test read G P)
    (hchecks : List.Forall₂ (fun item check => Tells check read G (Q item)) items checks) :
    Tells (checks.foldl .or test) read G (fun x => P x ∨ ∃ item ∈ items, Q item x) := by
  induction hchecks generalizing test P with
  | nil => exact hfirst.mono (fun _ h => h) fun x _ => by simp
  | cons hcheck _ ih =>
    refine (ih (hfirst.or hcheck)).mono (fun _ h => h) fun x _ => ?_
    rw [List.exists_mem_cons_iff, or_assoc]

theorem Tells.disj {items : List I} {checks : List (Test Value)} {Q : I → X → Prop}
    (hchecks : List.Forall₂ (fun item check => Tells check read G (Q item)) items checks) :
    Tells (anyOf checks) read G (fun x => ∃ item ∈ items, Q item x) := by
  cases hchecks with
  | nil => exact fun document env x _ _ => Decides.of_false fun ⟨_, hmem, _⟩ => by cases hmem
  | cons hcheck hrest =>
    refine (hcheck.disjFrom hrest).group.mono (fun _ h => h) fun x _ => ?_
    rw [List.exists_mem_cons_iff]

end Tells

section Rows

def rows (value : Document) : List Row := (jsonEach value).getD []

theorem jsonType_number (n : NumberText) : jsonType (.number n) = "integer" ∨ jsonType (.number n) = "real" := by
  rw [jsonType]
  split_ifs
  · exact .inl rfl
  · exact .inr rfl

theorem jsonType_object_iff (value : Document) : jsonType value = "object" ↔ ∃ fields, value = .object fields := by
  cases value with
  | number n => rcases jsonType_number n with h | h <;> simp [h]
  | bool b => cases b <;> simp [jsonType]
  | _ => simp [jsonType]

theorem jsonType_array_iff (value : Document) : jsonType value = "array" ↔ ∃ items, value = .array items := by
  cases value with
  | number n => rcases jsonType_number n with h | h <;> simp [h]
  | bool b => cases b <;> simp [jsonType]
  | _ => simp [jsonType]

theorem jsonType_string_iff (value : Document) : jsonType value = "text" ↔ ∃ s, value = .string s := by
  cases value with
  | number n => rcases jsonType_number n with h | h <;> simp [h]
  | bool b => cases b <;> simp [jsonType]
  | _ => simp [jsonType]

theorem jsonType_plain_iff {plain : Document} (h : plain = .null ∨ ∃ b, plain = .bool b) (value : Document) :
    jsonType value = jsonType plain ↔ value = plain := by
  rcases h with rfl | ⟨_ | _, rfl⟩
  all_goals
    cases value with
    | number n => rcases jsonType_number n with h | h <;> rw [h] <;> simp [jsonType]
    | bool b => cases b <;> simp [jsonType]
    | _ => simp [jsonType]

theorem jsonType_number_iff (value : Document) : ["integer", "real"].contains (jsonType value) = true ↔ ∃ n, value = .number n := by
  cases value with
  | number n => rcases jsonType_number n with h | h <;> simp [h]
  | bool b => cases b <;> simp [jsonType]
  | _ => simp [jsonType]

theorem mem_rows_object {fields : List (String × Document)} {entry : Row} :
    entry ∈ rows (.object fields) ↔ ∃ field ∈ fields, entry = ⟨.inl field.1, field.2⟩ := by
  simp [rows, jsonEach, eq_comm]

theorem mem_rows_array {items : List Document} {entry : Row} :
    entry ∈ rows (.array items) ↔ ∃ i item, items[i]? = some item ∧ entry = ⟨.inr i, item⟩ := by
  simp only [rows, jsonEach, Option.getD_some, List.mem_map, Prod.exists, List.mem_zipIdx_iff_getElem?]
  constructor
  · rintro ⟨item, i, hget, rfl⟩
    exact ⟨i, item, hget, rfl⟩
  · rintro ⟨i, item, hget, rfl⟩
    exact ⟨item, i, hget, rfl⟩

/-- What has rows, all of them keyed. -/
def Opens (value : Document) : Prop := (jsonEach value).isSome ∧ ∀ entry ∈ rows value, Keyed entry.value

theorem Keyed.opens {value : Document} (h : Keyed value) (hkind : isScalar value = false) : Opens value := by
  cases h with
  | scalar hscalar => rw [hscalar] at hkind; cases hkind
  | array hitems =>
    refine ⟨rfl, fun entry hentry => ?_⟩
    obtain ⟨i, item, hget, rfl⟩ := mem_rows_array.1 hentry
    exact hitems item (List.mem_of_getElem? hget)
  | object _ hfields =>
    refine ⟨rfl, fun entry hentry => ?_⟩
    obtain ⟨field, hfield, rfl⟩ := mem_rows_object.1 hentry
    exact hfields field hfield

variable {test : Test Value} {node : Node} {row : ℕ}

theorem tells_kindIs (node : Node) (kind : String) (G : Document → Prop) :
    Tells (.kindIs node kind) node.reading G (fun value => jsonType value = kind) := by
  intro document env value hread _
  rw [Node.reading] at hread
  rw [Test.eval, hread]
  exact Decides.of_iff beq_iff_eq

theorem keyIs_iff (key : String) (entry : Row) : entry.keyIs (.text key.toList) = true ↔ entry.key = .inl key := by
  obtain ⟨name | i, value⟩ := entry
  · rw [Row.keyIs, beq_iff_eq, Value.text.injEq, String.toList_inj, Sum.inl.injEq, eq_comm]
  · exact iff_of_false Bool.false_ne_true (fun h => by cases h)

theorem tells_keyIs (row : ℕ) (key : String) (G : Row → Prop) :
    Tells (.keyIs row (.text key.toList)) (rowReading row) G (fun entry => entry.key = .inl key) := by
  intro document env entry hread _
  rw [rowReading] at hread
  rw [Test.eval, hread]
  exact Decides.of_iff (keyIs_iff key entry)

theorem tells_keyAt (row index : ℕ) (G : Row → Prop) :
    Tells (.keyAt row index) (rowReading row) G (fun entry => entry.key = .inr index) := by
  intro document env entry hread _
  rw [rowReading] at hread
  rw [Test.eval, hread]
  exact Decides.of_iff decide_eq_true_iff

/-- A test of the rows: one of them passes it. -/
theorem Tells.exist {G P : Row → Prop} (h : Tells test (rowReading row) G P) (node : Node) :
    Tells (.exist node row test) node.reading (fun value => (jsonEach value).isSome ∧ ∀ entry ∈ rows value, G entry)
      (fun value => ∃ entry ∈ rows value, P entry) := by
  rintro document env value hread ⟨hsome, hG⟩
  obtain ⟨entries, hentries⟩ := Option.isSome_iff_exists.1 hsome
  have hrows : rows value = entries := by rw [rows, hentries, Option.getD_some]
  rw [hrows] at hG
  simp only [hrows]
  rw [Node.reading] at hread
  rw [Test.eval, hread, Option.bind_some, hentries, Option.bind_some]
  exact Decides.someRow fun entry hentry => h document _ entry (Function.update_self ..) (hG entry hentry)

end Rows

section Builds

variable {X I : Type} {read : Document → Env → Option X}

/-- What is built, with the values that are bound, tells. -/
def Builds (build : JsonTests → Built) (read : Document → Env → Option X) (G P : X → Prop) : Prop :=
  ∀ tests, ∃ test : Test Value, (build tests).1 = test.erase ∧ (build tests).2.values = tests.values ++ test.markers ∧
    Tells test read G P

/-- A test is built for each of the items. -/
def BuildsEach (build : JsonTests → List (Test Unit) × JsonTests) (items : List I) (read : Document → Env → Option X)
    (G : X → Prop) (Q : I → X → Prop) : Prop :=
  ∀ tests, ∃ checks : List (Test Value), (build tests).1 = checks.map Test.erase ∧
    (build tests).2.values = tests.values ++ checks.flatMap Test.markers ∧
    List.Forall₂ (fun item check => Tells check read G (Q item)) items checks

theorem Builds.mono {build : JsonTests → Built} {G P G' P' : X → Prop} (h : Builds build read G P)
    (hG : ∀ x, G' x → G x) (hP : ∀ x, G' x → (P x ↔ P' x)) : Builds build read G' P' := by
  intro tests
  obtain ⟨test, htest, hvalues, htells⟩ := h tests
  exact ⟨test, htest, hvalues, htells.mono hG hP⟩

theorem builds_value {test : Test Value} {values : List Value} {G P : X → Prop} (hvalues : test.markers = values)
    (h : Tells test read G P) : Builds (fun tests => (test.erase, tests.push values)) read G P :=
  fun tests => ⟨test, rfl, by rw [hvalues]; rfl, h⟩

theorem builds_plain {test : Test Value} {G P : X → Prop} (hvalues : test.markers = []) (h : Tells test read G P) :
    Builds (fun tests => (test.erase, tests)) read G P :=
  fun tests => ⟨test, rfl, by rw [hvalues, List.append_nil], h⟩

theorem buildsEach_nil {G : X → Prop} {Q : I → X → Prop} : BuildsEach (fun tests => ([], tests)) [] read G Q :=
  fun _ => ⟨[], rfl, (List.append_nil _).symm, .nil⟩

theorem buildsEach_cons {build : JsonTests → Built} {rest : JsonTests → List (Test Unit) × JsonTests} {G : X → Prop}
    {Q : I → X → Prop} {item : I} {items : List I} (h : Builds build read G (Q item)) (hrest : BuildsEach rest items read G Q) :
    BuildsEach (fun tests => ((build tests).1 :: (rest (build tests).2).1, (rest (build tests).2).2)) (item :: items) read G Q := by
  intro tests
  obtain ⟨test, htest, hvalues, htells⟩ := h tests
  obtain ⟨checks, hchecks, hvalues', htells'⟩ := hrest (build tests).2
  refine ⟨test :: checks, congrArg₂ List.cons htest hchecks, ?_, .cons htells htells'⟩
  rw [List.flatMap_cons, ← List.append_assoc, ← hvalues]
  exact hvalues'

/-- A walk along items that builds a test for each. -/
theorem buildsEach_of (walk : List I → JsonTests → List (Test Unit) × JsonTests) (build : I → JsonTests → Built)
    (hnil : ∀ tests, walk [] tests = ([], tests)) (hcons : ∀ item items tests, walk (item :: items) tests =
      ((build item tests).1 :: (walk items (build item tests).2).1, (walk items (build item tests).2).2))
    {G : X → Prop} {Q : I → X → Prop} {items : List I} (h : ∀ item ∈ items, Builds (build item) read G (Q item)) :
    BuildsEach (walk items) items read G Q := by
  induction items with
  | nil => exact (funext hnil : walk [] = _) ▸ buildsEach_nil
  | cons item items ih =>
    rw [List.forall_mem_cons] at h
    exact (funext (hcons item items) : walk (item :: items) = _) ▸ buildsEach_cons h.1 (ih h.2)

theorem builds_joinAnd {build : JsonTests → List (Test Unit) × JsonTests} {items : List I} {G K P : X → Prop}
    {Q : I → X → Prop} {first : Test Value} (hplain : first.markers = []) (hfirst : Tells first read G P)
    (hchecks : BuildsEach build items read K Q) (hK : ∀ x, G x → P x → K x) :
    Builds (fun tests => (joinAnd first.erase (build tests).1, (build tests).2)) read G (fun x => P x ∧ ∀ item ∈ items, Q item x) := by
  intro tests
  obtain ⟨checks, herase, hvalues, htells⟩ := hchecks tests
  refine ⟨joinAnd first checks, ?_, ?_, hfirst.conj htells hK⟩
  · rw [erase_joinAnd, ← herase]
  · rw [markers_joinAnd, hplain, List.nil_append]
    exact hvalues

variable {node : Node}

theorem builds_someElement {build : Node → JsonTests → Built} {G P : Document → Prop}
    (h : ∀ row, Builds (build (.row row)) (Node.row row).reading G P) (node : Node) :
    Builds (someElement build node) node.reading (fun value => (jsonEach value).isSome ∧ ∀ entry ∈ rows value, G entry.value)
      (fun value => ∃ entry ∈ rows value, P entry.value) := by
  intro tests
  obtain ⟨test, htest, hvalues, htells⟩ := h (tests.aliases + 1) tests.alias.2
  refine ⟨.exist node (tests.aliases + 1) test, ?_, hvalues, htells.row.exist node⟩
  rw [Test.erase, ← htest]
  rfl

theorem builds_someMember {build : Node → JsonTests → Built} {G P : Document → Prop}
    (h : ∀ row, Builds (build (.row row)) (Node.row row).reading G P) (key : String) (node : Node) :
    Builds (someMember key build node) node.reading
      (fun value => (jsonEach value).isSome ∧ ∀ entry ∈ rows value, G entry.value)
      (fun value => ∃ entry ∈ rows value, entry.key = .inl key ∧ P entry.value) := by
  intro tests
  obtain ⟨test, htest, hvalues, htells⟩ := h (tests.aliases + 1) (tests.alias.2.push [.text key.toList])
  have hkey := (tells_keyIs (tests.aliases + 1) key fun entry => G entry.value).and
    (htells.row.mono (fun _ hx => hx.1) fun _ _ => Iff.rfl)
  refine ⟨.exist node (tests.aliases + 1) (.and (.keyIs _ (.text key.toList)) test), ?_, ?_, hkey.exist node⟩
  · rw [Test.erase, Test.erase, ← htest]
    rfl
  · rw [someMember]
    refine hvalues.trans ?_
    rw [JsonTests.push, List.append_assoc]
    rfl

theorem builds_elementAt {build : Node → JsonTests → Built} {G P : Document → Prop}
    (h : ∀ row, Builds (build (.row row)) (Node.row row).reading G P) (index : ℕ) (node : Node) :
    Builds (elementAt index build node) node.reading
      (fun value => (jsonEach value).isSome ∧ ∀ entry ∈ rows value, G entry.value)
      (fun value => ∃ entry ∈ rows value, entry.key = .inr index ∧ P entry.value) := by
  intro tests
  obtain ⟨test, htest, hvalues, htells⟩ := h (tests.aliases + 1) tests.alias.2
  have hkey := (tells_keyAt (tests.aliases + 1) index fun entry => G entry.value).and
    (htells.row.mono (fun _ hx => hx.1) fun _ _ => Iff.rfl)
  refine ⟨.exist node (tests.aliases + 1) (.and (.keyAt _ index) test), ?_, hvalues, hkey.exist node⟩
  rw [Test.erase, Test.erase, ← htest]
  rfl

/-- No row fails every test. -/
theorem builds_eachPlaced {build : ℕ → JsonTests → List (Test Unit) × JsonTests} {items : List I} {G : Row → Prop}
    {Q : I → Row → Prop} (h : ∀ row, BuildsEach (build row) items (rowReading row) G Q) (kind : String) (node : Node) :
    Builds (eachPlaced kind build node) node.reading
      (fun value => jsonType value = kind → (jsonEach value).isSome ∧ ∀ entry ∈ rows value, G entry)
      (fun value => jsonType value = kind ∧ ∀ entry ∈ rows value, ∃ item ∈ items, Q item entry) := by
  intro tests
  obtain ⟨checks, hchecks, hvalues, htells⟩ := h (tests.aliases + 1) tests.alias.2
  have hplaced := ((Tells.disj htells).not.exist node).not
  have hkind := (tells_kindIs node kind fun value =>
    jsonType value = kind → (jsonEach value).isSome ∧ ∀ entry ∈ rows value, G entry).and
      (hplaced.mono (fun _ hx => hx.1 hx.2) fun _ _ => Iff.rfl)
  refine ⟨_, ?_, ?_, hkind.group.mono (fun _ hx => hx) fun value _ => ?_⟩
  · rw [Test.erase, Test.erase, Test.erase, Test.erase, Test.erase, Test.erase, erase_anyOf, ← hchecks]
    rfl
  · rw [eachPlaced]
    refine hvalues.trans ?_
    rw [← markers_anyOf]
    rfl
  · simp only [not_exists, not_and, not_forall, not_not, exists_prop]

end Builds

end TideOrm.SqliteJson
