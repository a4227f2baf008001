import TideOrm.Lib.Decoder
import TideOrm.Spec.PostgresBinary
import Mathlib.Algebra.BigOperators.Group.List.Basic

/-! An array is decoded to its own shape and elements, and bytes that end early or go on are not
decoded at all. -/

namespace TideOrm

open Lib

section Wire

variable {A : Type}

/-- A dimension's length and lower bound. -/
def dimensionBytes (dimension : ℕ × Int32) : List UInt8 :=
  signedBeBytes 4 dimension.1 ++ signedBeBytes 4 dimension.2.toInt

def elementBytes (encode : A → List UInt8) : Option A → List UInt8
  | none => signedBeBytes 4 (-1)
  | some a => signedBeBytes 4 (encode a).length ++ encode a

/-- The binary form of an array: its flag and its element type, its dimensions, its elements in
row-major order. -/
def arrayBytes (encode : A → List UInt8) (hasNull elementType : Int32) (dimensions : List (ℕ × Int32))
    (elements : List (Option A)) : List UInt8 :=
  signedBeBytes 4 dimensions.length ++ (signedBeBytes 4 hasNull.toInt ++ (signedBeBytes 4 elementType.toInt ++
    (dimensions.flatMap dimensionBytes ++ elements.flatMap (elementBytes encode))))

/-- The elements nested as the lengths say, row by row. -/
def rowsOf : List ℕ → List Json → Json
  | [], elements => elements.headD .null
  | length :: inner, elements =>
    .array ((List.range length).map fun row => rowsOf inner ((elements.drop (row * inner.prod)).take inner.prod))

end Wire

section Readers

variable {A : Type}

theorem decodes_splitChunk (chunk : List UInt8) : Decodes (splitChunk chunk.length) chunk chunk := by
  constructor
  · intro rest
    rw [splitChunk, if_pos (by simp), List.take_left, List.drop_left]
  · intro front back happend hback
    have hlen : front.length < chunk.length := by
      rw [← happend, List.length_append]
      have hpos := List.length_pos_iff.2 hback
      omega
    rw [splitChunk, if_neg (by omega)]

theorem decodes_i32 {n : ℤ} (hlow : -2 ^ 31 ≤ n) (hhigh : n < 2 ^ 31) : Decodes takeI32 (signedBeBytes 4 n) n := by
  have hvalue : signedBigEndian (signedBeBytes 4 n) = n := signedBigEndian_signedBeBytes (by omega) (by omega)
  have hchunk := (decodes_splitChunk (signedBeBytes 4 n)).map signedBigEndian
  rw [hvalue, length_signedBeBytes] at hchunk
  exact hchunk

theorem decodes_int32 (n : Int32) : Decodes takeI32 (signedBeBytes 4 n.toInt) n.toInt :=
  decodes_i32 n.le_toInt n.toInt_lt

/-- What a length says of the bytes behind it. -/
def valueOf (length : ℤ) (tail : List UInt8) : Option (Option (List UInt8) × List UInt8) :=
  if length = -1 then some (none, tail)
  else if length < 0 then none
  else (splitChunk length.toNat tail).map fun part => (some part.1, part.2)

theorem takeValue_eq : takeValue = fun bytes => (takeI32 bytes).bind fun part => valueOf part.1 part.2 := by
  funext bytes
  rw [takeValue]
  cases takeI32 bytes with
  | none => rfl
  | some part =>
    simp only [Option.bind_eq_bind, Option.bind_some, valueOf]
    split_ifs
    · rfl
    · rfl
    · cases splitChunk part.1.toNat part.2 <;> rfl

/-- A value behind its own length. -/
theorem decodes_value {value : List UInt8} (hlen : value.length < 2 ^ 31) :
    Decodes takeValue (signedBeBytes 4 value.length ++ value) (some value) := by
  have hvalue : Decodes (valueOf value.length) value (some value) := by
    have hnull : ¬(value.length : ℤ) = -1 := by omega
    have hneg : ¬(value.length : ℤ) < 0 := by omega
    have hread : valueOf value.length = fun tail => (splitChunk value.length tail).map fun part => (some part.1, part.2) := by
      funext tail
      rw [valueOf, if_neg hnull, if_neg hneg, Int.toNat_natCast]
    rw [hread]
    exact (decodes_splitChunk value).map some
  rw [takeValue_eq]
  exact (decodes_i32 (by omega) (by omega)).bind hvalue

theorem decodes_null : Decodes takeValue (signedBeBytes 4 (-1)) none := by
  have hnull : Decodes (valueOf (-1)) [] none := Decodes.pure none
  rw [takeValue_eq, ← List.append_nil (signedBeBytes 4 (-1))]
  exact (decodes_i32 (by decide) (by decide)).bind hnull

/-- What a dimension's length says of the bytes behind it: the lower bound is not kept. -/
def lengthsAfter (count : ℕ) (length : ℤ) (tail : List UInt8) : Option (List ℕ × List UInt8) :=
  if length < 0 then none
  else (takeI32 tail).bind fun part => (takeLengths count part.2).map fun part' => (length.toNat :: part'.1, part'.2)

theorem takeLengths_succ (count : ℕ) :
    takeLengths (count + 1) = fun bytes => (takeI32 bytes).bind fun part => lengthsAfter count part.1 part.2 := by
  funext bytes
  rw [takeLengths]
  cases takeI32 bytes with
  | none => rfl
  | some part =>
    simp only [Option.bind_eq_bind, Option.bind_some, lengthsAfter]
    split_ifs
    · rfl
    · cases takeI32 part.2 with
      | none => rfl
      | some part' =>
        simp only [Option.bind_some]
        cases takeLengths count part'.2 <;> rfl

theorem decodes_lengths {dimensions : List (ℕ × Int32)} (h : ∀ dimension ∈ dimensions, dimension.1 < 2 ^ 31) :
    Decodes (takeLengths dimensions.length) (dimensions.flatMap dimensionBytes) (dimensions.map Prod.fst) := by
  induction dimensions with
  | nil => exact Decodes.pure []
  | cons dimension dimensions ih =>
    rw [List.forall_mem_cons] at h
    have hafter : Decodes (lengthsAfter dimensions.length dimension.1)
        (signedBeBytes 4 dimension.2.toInt ++ dimensions.flatMap dimensionBytes)
        (dimension.1 :: dimensions.map Prod.fst) := by
      have hnonneg : ¬(dimension.1 : ℤ) < 0 := by omega
      have hread : lengthsAfter dimensions.length dimension.1 = fun tail => (takeI32 tail).bind fun part =>
          (takeLengths dimensions.length part.2).map fun part' => (dimension.1 :: part'.1, part'.2) := by
        funext tail
        rw [lengthsAfter, if_neg hnonneg, Int.toNat_natCast]
      rw [hread]
      exact (decodes_int32 dimension.2).skip ((ih h.2).map (dimension.1 :: ·))
    rw [List.length_cons, takeLengths_succ, List.flatMap_cons, dimensionBytes, List.append_assoc]
    exact (decodes_i32 (by omega) (by omega)).bind hafter

end Readers

section Elements

variable {A : Type} {encode : A → List UInt8} {element : List UInt8 → Option Json} {toJson : A → Json}

/-- What an element is decoded to. -/
def elementJson (toJson : A → Json) : Option A → Json
  | none => .null
  | some a => toJson a

/-- The elements behind one whose bytes are given. -/
def elementsAfter (element : List UInt8 → Option Json) (count : ℕ) (value : Option (List UInt8)) (tail : List UInt8) :
    Option (List Json × List UInt8) :=
  (value.elim (some .null) element).bind fun json =>
    (takeElements element count tail).map fun part => (json :: part.1, part.2)

theorem takeElements_succ (count : ℕ) :
    takeElements element (count + 1) =
      fun bytes => (takeValue bytes).bind fun part => elementsAfter element count part.1 part.2 := by
  funext bytes
  rw [takeElements]
  cases takeValue bytes with
  | none => rfl
  | some part =>
    simp only [Option.bind_eq_bind, Option.bind_some, elementsAfter]
    obtain ⟨value, rest⟩ := part
    cases value with
    | none => cases takeElements element count rest <;> rfl
    | some value =>
      simp only [Option.elim_some]
      cases element value with
      | none => rfl
      | some json => cases takeElements element count rest <;> rfl

theorem decodes_elements (hcodec : ∀ a, element (encode a) = some (toJson a)) (hlen : ∀ a, (encode a).length < 2 ^ 31)
    (elements : List (Option A)) :
    Decodes (takeElements element elements.length) (elements.flatMap (elementBytes encode))
      (elements.map (elementJson toJson)) := by
  induction elements with
  | nil => exact Decodes.pure []
  | cons first elements ih =>
    rw [List.length_cons, takeElements_succ, List.flatMap_cons, List.map_cons]
    cases first with
    | none =>
      have hafter : Decodes (elementsAfter element elements.length none) (elements.flatMap (elementBytes encode))
          (Json.null :: elements.map (elementJson toJson)) := ih.map (Json.null :: ·)
      exact decodes_null.bind hafter
    | some a =>
      have hafter : Decodes (elementsAfter element elements.length (some (encode a)))
          (elements.flatMap (elementBytes encode)) (toJson a :: elements.map (elementJson toJson)) := by
        have hread : elementsAfter element elements.length (some (encode a)) = fun tail =>
            (takeElements element elements.length tail).map fun part => (toJson a :: part.1, part.2) := by
          funext tail
          rw [elementsAfter, Option.elim_some, hcodec, Option.bind_some]
        rw [hread]
        exact ih.map (toJson a :: ·)
      exact (decodes_value (hlen a)).bind hafter

end Elements

section Nesting

/-- Items of one width, each taken off the front. -/
theorem nestItems_eq {item : List Json → Option (Json × List Json)} {width : ℕ} {value : List Json → Json}
    (hitem : ∀ elements, width ≤ elements.length → item elements = some (value (elements.take width), elements.drop width)) :
    ∀ (count : ℕ) (elements : List Json), count * width ≤ elements.length →
      nestItems item count elements =
        some ((List.range count).map fun row => value ((elements.drop (row * width)).take width),
          elements.drop (count * width)) := by
  intro count
  induction count with
  | zero =>
    intro elements _
    simp [nestItems]
  | succ count ih =>
    intro elements hlen
    rw [Nat.succ_mul] at hlen
    have hrest : count * width ≤ (elements.drop width).length := by
      rw [List.length_drop]
      omega
    rw [nestItems, hitem elements (by omega)]
    simp only [Option.bind_eq_bind, Option.bind_some]
    rw [ih (elements.drop width) hrest, List.range_succ_eq_map, List.map_cons, List.map_map]
    simp only [Option.bind_some, Option.some.injEq, Prod.mk.injEq, List.cons.injEq, Nat.zero_mul, List.drop_zero, true_and]
    constructor
    · refine List.map_congr_left fun row _ => ?_
      rw [Function.comp_apply, List.drop_drop, Nat.succ_mul, Nat.add_comm]
    · rw [List.drop_drop, Nat.succ_mul, Nat.add_comm]

theorem nest_eq (lengths : List ℕ) : ∀ elements : List Json, lengths.prod ≤ elements.length →
    nest lengths elements = some (rowsOf lengths (elements.take lengths.prod), elements.drop lengths.prod) := by
  induction lengths with
  | nil =>
    intro elements hlen
    cases elements with
    | nil => simp at hlen
    | cons element elements => rfl
  | cons length inner ih =>
    intro elements hlen
    rw [List.prod_cons] at hlen ⊢
    rw [nest, nestItems_eq ih length elements hlen, Option.map_some, rowsOf]
    simp only [Option.some.injEq, Prod.mk.injEq, Json.array.injEq, and_true]
    refine List.map_congr_left fun row hrow => ?_
    -- a row is within the elements that the whole takes
    have hwithin : row * inner.prod + inner.prod ≤ length * inner.prod := by
      rw [← Nat.succ_mul]
      exact Nat.mul_le_mul_right _ (List.mem_range.1 hrow)
    rw [List.drop_take, List.take_take, Nat.min_eq_left (by omega)]

end Nesting

section Main

variable {A : Type} {encode : A → List UInt8} {element : List UInt8 → Option Json} {toJson : A → Json}

/-- The running products of the lengths are all `usize` values. -/
def Countable (lengths : List ℕ) : Prop := ∀ front, front <+: lengths → front.prod < usizeLimit

theorem foldlM_checkedMul (lengths : List ℕ) (start : ℕ) (h : ∀ front, front <+: lengths → start * front.prod < usizeLimit) :
    lengths.foldlM checkedMul start = some (start * lengths.prod) := by
  induction lengths generalizing start with
  | nil => simp
  | cons length lengths ih =>
    have hfirst := h [length] (List.cons_prefix_cons.2 ⟨rfl, List.nil_prefix⟩)
    rw [List.prod_singleton] at hfirst
    have hrest := ih (start * length) fun front hfront => by
      have hlt := h (length :: front) (List.cons_prefix_cons.2 ⟨rfl, hfront⟩)
      rwa [List.prod_cons, ← Nat.mul_assoc] at hlt
    rw [List.foldlM_cons, checkedMul, if_pos hfirst, Option.bind_eq_bind, Option.bind_some, hrest, List.prod_cons,
      Nat.mul_assoc]

theorem elementCount_eq {lengths : List ℕ} (h : Countable lengths) : elementCount lengths = some lengths.prod := by
  rw [elementCount, foldlM_checkedMul lengths 1 fun front hfront => by rw [Nat.one_mul]; exact h front hfront,
    Nat.one_mul]

/-- A count that is found is the product. -/
theorem foldlM_checkedMul_some {lengths : List ℕ} {start count : ℕ} (h : lengths.foldlM checkedMul start = some count) :
    count = start * lengths.prod := by
  induction lengths generalizing start with
  | nil => simpa using h.symm
  | cons length lengths ih =>
    rw [List.foldlM_cons, Option.bind_eq_bind, Option.bind_eq_some_iff] at h
    obtain ⟨product, hproduct, hrest⟩ := h
    have hvalue := Option.some.inj (Option.ite_none_right_eq_some.1 hproduct).2
    rw [ih hrest, ← hvalue, List.prod_cons, Nat.mul_assoc]

theorem elementCount_some {lengths : List ℕ} {count : ℕ} (h : elementCount lengths = some count) :
    count = lengths.prod := by
  rw [foldlM_checkedMul_some h, Nat.one_mul]

/-- The dimensions' lengths behind their count, a flag and the element type. -/
def shapeAfter (dimensions : ℤ) (tail : List UInt8) : Option (List ℕ × List UInt8) :=
  (takeI32 tail).bind fun part => (takeI32 part.2).bind fun part' => takeLengths dimensions.toNat part'.2

def takeShape (bytes : List UInt8) : Option (List ℕ × List UInt8) :=
  (takeI32 bytes).bind fun part => shapeAfter part.1 part.2

/-- What the shape says of the bytes behind it. -/
def elementsOf (element : List UInt8 → Option Json) (lengths : List ℕ) (rest : List UInt8) : Option Json :=
  if lengths.isEmpty then if rest.isEmpty then some (.array []) else none
  else
    (elementCount lengths).bind fun count => (takeElements element count rest).bind fun part =>
      if part.2.isEmpty then (nest lengths part.1).map Prod.fst else none

theorem arrayJson_eq (bytes : List UInt8) :
    arrayJson element bytes = (takeShape bytes).bind fun part => elementsOf element part.1 part.2 := by
  rw [arrayJson, takeShape]
  simp only [shapeAfter, Option.bind_eq_bind, Option.bind_assoc]
  rfl

theorem decodes_shape (hasNull elementType : Int32) {dimensions : List (ℕ × Int32)} (hcount : dimensions.length < 2 ^ 31)
    (hlengths : ∀ dimension ∈ dimensions, dimension.1 < 2 ^ 31) :
    Decodes takeShape (signedBeBytes 4 dimensions.length ++ (signedBeBytes 4 hasNull.toInt ++
      (signedBeBytes 4 elementType.toInt ++ dimensions.flatMap dimensionBytes))) (dimensions.map Prod.fst) := by
  have hafter : Decodes (shapeAfter dimensions.length) (signedBeBytes 4 hasNull.toInt ++
      (signedBeBytes 4 elementType.toInt ++ dimensions.flatMap dimensionBytes)) (dimensions.map Prod.fst) :=
    (decodes_int32 hasNull).skip ((decodes_int32 elementType).skip (decodes_lengths hlengths))
  exact (decodes_i32 (by omega) (by omega)).bind hafter

variable {hasNull elementType : Int32} {dimensions : List (ℕ × Int32)} {elements : List (Option A)}

/-- The array is decoded to its rows, and neither a part of its bytes nor more than them is
decoded. -/
theorem arrayJson_exact (hcodec : ∀ a, element (encode a) = some (toJson a)) (hlen : ∀ a, (encode a).length < 2 ^ 31)
    (hdimensions : dimensions ≠ []) (hcount : dimensions.length < 2 ^ 31)
    (hlengths : ∀ dimension ∈ dimensions, dimension.1 < 2 ^ 31)
    (hshape : elements.length = (dimensions.map Prod.fst).prod) :
    (Countable (dimensions.map Prod.fst) →
      arrayJson element (arrayBytes encode hasNull elementType dimensions elements) =
        some (rowsOf (dimensions.map Prod.fst) (elements.map (elementJson toJson)))) ∧
    (∀ front back, front ++ back = arrayBytes encode hasNull elementType dimensions elements → back ≠ [] →
      arrayJson element front = none) ∧
    ∀ extra, extra ≠ [] →
      arrayJson element (arrayBytes encode hasNull elementType dimensions elements ++ extra) = none := by
  have hnonempty : (dimensions.map Prod.fst).isEmpty = false := by
    cases dimensions with
    | nil => exact absurd rfl hdimensions
    | cons dimension dimensions => rfl
  have hheader := decodes_shape hasNull elementType hcount hlengths
  have hbody := decodes_elements hcodec hlen elements
  have hbytes : arrayBytes encode hasNull elementType dimensions elements =
      (signedBeBytes 4 dimensions.length ++ (signedBeBytes 4 hasNull.toInt ++ (signedBeBytes 4 elementType.toInt ++
        dimensions.flatMap dimensionBytes))) ++ elements.flatMap (elementBytes encode) := by
    simp only [arrayBytes, List.append_assoc]
  rw [hbytes]
  refine ⟨fun hcountable => ?_, fun front back happend hback => ?_, fun extra hextra => ?_⟩
  · have htake : (elements.map (elementJson toJson)).take (dimensions.map Prod.fst).prod =
        elements.map (elementJson toJson) := by
      rw [← hshape, ← List.length_map (elementJson toJson), List.take_length]
    rw [arrayJson_eq, hheader.append, Option.bind_some, elementsOf, hnonempty, elementCount_eq hcountable, ← hshape]
    simp only [Bool.false_eq_true, if_false, Option.bind_some, hbody.self, List.isEmpty_nil, if_true]
    rw [nest_eq _ _ (by rw [List.length_map, hshape]), htake]
    rfl
  · -- the bytes end among the elements, or before them
    have hcut : ∀ more, more ++ back = elements.flatMap (elementBytes encode) →
        elementsOf element (dimensions.map Prod.fst) more = none := by
      intro more hmore
      rw [elementsOf, hnonempty]
      simp only [Bool.false_eq_true, if_false]
      cases hproduct : elementCount (dimensions.map Prod.fst) with
      | none => rfl
      | some count =>
        rw [elementCount_some hproduct, ← hshape, Option.bind_some, hbody.cut more back hmore hback, Option.bind_none]
    obtain ⟨more, hfront, hmore⟩ | ⟨more, rfl, hmore⟩ := List.append_eq_append_iff.1 happend
    · cases more with
      | nil =>
        rw [List.append_nil] at hfront
        rw [arrayJson_eq, ← hfront, hheader.self, Option.bind_some]
        exact hcut [] hmore
      | cons byte more =>
        rw [arrayJson_eq, hheader.cut front (byte :: more) hfront.symm (by simp), Option.bind_none]
    · rw [arrayJson_eq, hheader.append, Option.bind_some]
      exact hcut more hmore.symm
  · rw [arrayJson_eq, List.append_assoc, hheader.append, Option.bind_some, elementsOf, hnonempty]
    simp only [Bool.false_eq_true, if_false]
    cases hproduct : elementCount (dimensions.map Prod.fst) with
    | none => rfl
    | some count =>
      rw [elementCount_some hproduct, ← hshape, Option.bind_some, hbody.append, Option.bind_some, if_neg]
      simpa using hextra

/-- A truth value in one byte. -/
def flagBytes (flag : Bool) : List UInt8 := [if flag then 1 else 0]

def flagJson : List UInt8 → Option Json
  | [byte] => some (.bool (byte == 1))
  | _ => none

theorem arrayJson_exact_flags :
    arrayJson flagJson (arrayBytes flagBytes 1 16 [(2, 1), (2, -3)] [some true, none, some false, some true]) =
      some (.array [.array [.bool true, .null], .array [.bool false, .bool true]]) := by
  have hcountable : Countable [2, 2] := by
    have hall : ∀ front ∈ ([2, 2] : List ℕ).inits, front.prod < usizeLimit := by decide
    intro front hfront
    exact hall front ((List.mem_inits _ _).2 hfront)
  have hcodec : ∀ flag, flagJson (flagBytes flag) = some (Json.bool flag) := by
    intro flag
    cases flag <;> rfl
  exact (@arrayJson_exact Bool flagBytes flagJson Json.bool 1 16 [(2, 1), (2, -3)] [some true, none, some false, some true]
    hcodec (by decide) (by decide) (by decide) (by decide) rfl).1 hcountable

/-- No elements, in more rows than a `usize` counts before the zero is multiplied in. -/
theorem arrayJson_overflows :
    ([] : List (Option Bool)).length = ([2147483647, 2147483647, 2147483647, 0] : List ℕ).prod ∧
    arrayJson flagJson (arrayBytes flagBytes 0 16 [(2147483647, 1), (2147483647, 1), (2147483647, 1), (0, 1)] []) ≠
      some (rowsOf [2147483647, 2147483647, 2147483647, 0] []) := by
  refine ⟨by decide, ?_⟩
  have hnone : (arrayJson flagJson (arrayBytes flagBytes 0 16
      [(2147483647, 1), (2147483647, 1), (2147483647, 1), (0, 1)] [])).isNone = true := by decide +kernel
  rw [Option.isNone_iff_eq_none.1 hnone]
  exact (Option.some_ne_none _).symm

end Main

end TideOrm
