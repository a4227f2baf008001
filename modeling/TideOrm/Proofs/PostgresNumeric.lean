import TideOrm.Spec.PostgresBinary
import Mathlib.Algebra.BigOperators.Group.List.Basic
import Mathlib.Data.Rat.Defs
import Mathlib.Tactic.FieldSimp
import Mathlib.Tactic.Linarith

/-! The text of a numeric is its value: the groups that are written are those that are stored,
zeros before and behind them, and what is cut off the last of them is zero. -/

namespace TideOrm

open Lib

/-- The value of base-10000 digits, the first of them at place `weight`. -/
def numericValue (weight : ℤ) (digits : List ℕ) : ℚ :=
  (digits.mapIdx fun (i digit : ℕ) => (digit : ℚ) * 10000 ^ (weight - (i : ℤ))).sum

section Values

theorem numericValue_cons (weight : ℤ) (digit : ℕ) (digits : List ℕ) :
    numericValue weight (digit :: digits) = digit * 10000 ^ weight + numericValue (weight - 1) digits := by
  rw [numericValue, List.mapIdx_cons, List.sum_cons, numericValue]
  congr 1
  · simp
  · congr 2
    funext i digit
    congr 2
    push_cast
    ring

/-- Digits are one whole number, moved to its place. -/
theorem numericValue_eq (weight : ℤ) (digits : List ℕ) :
    numericValue weight digits = radixValue 10000 digits * 10000 ^ (weight + 1 - digits.length) := by
  induction digits generalizing weight with
  | nil => simp [numericValue]
  | cons digit digits ih =>
    have hbase : (10000 : ℚ) ≠ 0 := by norm_num
    have hplace : (10000 : ℚ) ^ weight = 10000 ^ digits.length * 10000 ^ (weight - digits.length) := by
      rw [← zpow_natCast, ← zpow_add₀ hbase]
      congr 1
      omega
    have hrest : weight - 1 + 1 - (digits.length : ℤ) = weight - digits.length := by omega
    have hcons : weight + 1 - ((digit :: digits).length : ℤ) = weight - digits.length := by
      rw [List.length_cons]
      push_cast
      omega
    rw [numericValue_cons, ih, hplace, hrest, hcons, radixValue_cons]
    push_cast
    ring

/-- Zeros at the end may be written or left out. -/
theorem numericValue_groups (weight : ℤ) (digits : List ℕ) (count : ℕ)
    (h : ∀ i, count ≤ i → digits[i]?.getD 0 = 0) :
    numericValue weight digits = numericValue weight ((List.range count).map fun i => digits[i]?.getD 0) := by
  induction count generalizing weight digits with
  | zero =>
    induction digits generalizing weight with
    | nil => rfl
    | cons digit digits ih =>
      have hzero : digit = 0 := h 0 (Nat.le_refl 0)
      have hrest : ∀ i, 0 ≤ i → digits[i]?.getD 0 = 0 := fun i _ => h (i + 1) (Nat.zero_le _)
      rw [numericValue_cons, ih (weight - 1) hrest, hzero]
      simp [numericValue]
  | succ count ih =>
    rw [List.range_succ_eq_map, List.map_cons, List.map_map, numericValue_cons]
    cases digits with
    | nil =>
      have hnone : ((fun i : ℕ => ([] : List ℕ)[i]?.getD 0) ∘ Nat.succ) = fun i : ℕ => ([] : List ℕ)[i]?.getD 0 := by
        funext i
        simp
      rw [hnone, ← ih (weight - 1) [] (fun _ _ => rfl)]
      simp [numericValue]
    | cons digit digits =>
      rw [numericValue_cons, ih (weight - 1) digits (fun i hi => h (i + 1) (Nat.succ_le_succ hi))]
      rfl

end Values

section Groups

variable {digits : List ℕ}

theorem digitOf_lt (h : ∀ digit ∈ digits, digit < 10000) (group : ℤ) : digitOf digits group < 10 ^ 4 := by
  rw [digitOf]
  split_ifs
  · decide
  · cases hget : digits[group.toNat]? with
    | none => decide
    | some digit => exact h digit (List.mem_of_getElem? hget)

theorem length_groupText (h : ∀ digit ∈ digits, digit < 10000) (group : ℤ) : (groupText digits group).length = 4 :=
  length_zeroPad_toDigits (by decide) (digitOf_lt h group)

theorem digitsValue_groupText (group : ℤ) : digitsValue (groupText digits group) = digitOf digits group := by
  rw [groupText, digitsValue_zeroPad, decimal, digitsValue_toDigits]

theorem isDigit_groupText (group : ℤ) : ∀ ch ∈ groupText digits group, ch.isDigit = true :=
  isDigit_zeroPad (isDigit_toDigits _)

/-- The groups from one on. -/
def groupsText (digits : List ℕ) (start : ℤ) (count : ℕ) : List Char :=
  (List.range count).flatMap fun j : ℕ => groupText digits (start + j)

theorem groupsText_succ (start : ℤ) (count : ℕ) :
    groupsText digits start (count + 1) = groupText digits start ++ groupsText digits (start + 1) count := by
  rw [groupsText, List.range_succ_eq_map, List.flatMap_cons, List.flatMap_map, groupsText]
  congr 1
  · simp
  · congr 1
    funext j
    congr 1
    push_cast
    ring

theorem length_groupsText (h : ∀ digit ∈ digits, digit < 10000) (start : ℤ) (count : ℕ) :
    (groupsText digits start count).length = 4 * count := by
  induction count generalizing start with
  | zero => rfl
  | succ count ih =>
    rw [groupsText_succ, List.length_append, length_groupText h, ih]
    omega

theorem isDigit_groupsText (start : ℤ) (count : ℕ) : ∀ ch ∈ groupsText digits start count, ch.isDigit = true := by
  intro ch hch
  obtain ⟨j, -, hj⟩ := List.mem_flatMap.1 hch
  exact isDigit_groupText _ ch hj

theorem digitsValue_groupsText (h : ∀ digit ∈ digits, digit < 10000) (start : ℤ) (count : ℕ) :
    digitsValue (groupsText digits start count) =
      radixValue 10000 ((List.range count).map fun j : ℕ => digitOf digits (start + j)) := by
  induction count generalizing start with
  | zero => rfl
  | succ count ih =>
    have hshift : ((List.range count).map fun j : ℕ => digitOf digits (start + 1 + j)) =
        ((List.range count).map Nat.succ).map fun j : ℕ => digitOf digits (start + j) := by
      rw [List.map_map]
      refine List.map_congr_left fun j _ => ?_
      rw [Function.comp_apply, Nat.succ_eq_add_one]
      congr 1
      push_cast
      ring
    rw [groupsText_succ, digitsValue_append, digitsValue_groupText, length_groupsText h, ih, hshift,
      List.range_succ_eq_map, List.map_cons, radixValue_cons, List.length_map, List.length_map, List.length_range]
    congr 2
    · congr 1
      simp
    · rw [Nat.pow_mul]

/-- The loop writes whole groups until there are digits enough. -/
theorem fractionFrom_eq (h : ∀ digit ∈ digits, digit < 10000) (scale : ℕ) : ∀ (count : ℕ) (group : ℤ)
    (fraction : List Char), (scale - fraction.length + 3) / 4 = count →
    fractionFrom digits scale group fraction = fraction ++ groupsText digits group count := by
  intro count
  induction count with
  | zero =>
    intro group fraction hcount
    rw [fractionFrom, if_neg (by omega)]
    simp [groupsText]
  | succ count ih =>
    intro group fraction hcount
    have hlen : (fraction ++ groupText digits group).length = fraction.length + 4 := by
      rw [List.length_append, length_groupText h]
    rw [fractionFrom, if_pos (by omega), ih (group + 1) _ (by rw [hlen]; omega), groupsText_succ, List.append_assoc]

/-- The groups from the first stored one up to the last written one, with zeros before. -/
theorem radixValue_groups (start : ℤ) (count : ℕ) :
    radixValue 10000 (((List.range start.toNat).map fun i => digits[i]?.getD 0) ++
        (List.range count).map fun j : ℕ => digitOf digits (start + j)) =
      radixValue 10000 ((List.range (start + count).toNat).map fun i => digits[i]?.getD 0) := by
  induction count with
  | zero => simp
  | succ count ih =>
    rw [List.range_succ, List.map_append, ← List.append_assoc, List.map_singleton, radixValue_append, ih,
      radixValue_singleton, List.length_singleton]
    rcases lt_or_ge (start + (count : ℤ)) 0 with hneg | hpos
    · -- before the first stored group
      have hnone : (start + (count : ℤ)).toNat = 0 := by omega
      have hnone' : (start + ((count + 1 : ℕ) : ℤ)).toNat = 0 := by omega
      rw [hnone, hnone', digitOf, if_pos hneg]
      simp
    · have hsucc : (start + ((count + 1 : ℕ) : ℤ)).toNat = (start + count).toNat + 1 := by omega
      rw [hsucc, List.range_succ, List.map_append, List.map_singleton, radixValue_append, radixValue_singleton,
        List.length_singleton, digitOf, if_neg (by omega)]

theorem digitsValue_wholeText (h : ∀ digit ∈ digits, digit < 10000) (weight : ℤ) :
    digitsValue (wholeText digits weight) =
      radixValue 10000 ((List.range (weight + 1).toNat).map fun i => digits[i]?.getD 0) := by
  rw [wholeText]
  split_ifs with hneg
  · have hnone : (weight + 1).toNat = 0 := by omega
    rw [hnone]
    rfl
  · have hgroups : ((List.range weight.toNat).flatMap fun group : ℕ => groupText digits ((group : ℤ) + 1)) =
        groupsText digits 1 weight.toNat := by
      rw [groupsText]
      congr 1
      funext group
      rw [Int.add_comm]
    have hradix := @radixValue_groups digits 1 weight.toNat
    have hcount : (1 + (weight.toNat : ℤ)).toNat = (weight + 1).toNat := by omega
    rw [hcount] at hradix
    rw [hgroups, ← hradix, digitsValue_append, digitsValue_groupsText h, length_groupsText h, decimal,
      digitsValue_toDigits, radixValue_append, List.length_map, List.length_range, Nat.pow_mul]
    rfl

theorem isDigit_wholeText (weight : ℤ) : ∀ ch ∈ wholeText digits weight, ch.isDigit = true := by
  rw [wholeText]
  split_ifs
  · simp
  · refine List.forall_mem_append.2 ⟨isDigit_toDigits _, fun ch hch => ?_⟩
    obtain ⟨group, -, hgroup⟩ := List.mem_flatMap.1 hch
    exact isDigit_groupText _ ch hgroup

theorem wholeText_ne_nil (weight : ℤ) : wholeText digits weight ≠ [] := by
  rw [wholeText]
  split_ifs
  · simp
  · intro hnil
    exact Nat.toDigits_ne_nil (List.append_eq_nil_iff.1 hnil).1

end Groups

section Cut

variable {digits : List ℕ} {weight : ℤ} {scale : ℕ}

/-- No stored digit goes beyond the display scale. -/
def WithinScale (weight : ℤ) (scale : ℕ) (digits : List ℕ) : Prop :=
  ∀ (i digit : ℕ), digits[i]? = some digit → ∀ places : ℕ, places ≤ 4 →
    (scale : ℤ) + places ≤ 4 * (i - weight) → 10 ^ places ∣ digit

/-- How many groups the fraction is written in. -/
def fractionGroups (scale : ℕ) : ℕ := (scale + 3) / 4

theorem digit_zero_of_beyond (h : ∀ digit ∈ digits, digit < 10000) (hscale : WithinScale weight scale digits) {i : ℕ}
    (hi : (weight + 1 + fractionGroups scale : ℤ) ≤ i) : digits[i]?.getD 0 = 0 := by
  cases hget : digits[i]? with
  | none => rfl
  | some digit =>
    have hgroups : scale ≤ 4 * fractionGroups scale := by
      rw [fractionGroups]
      omega
    have hdvd := hscale i digit hget 4 (Nat.le_refl 4) (by omega)
    exact Nat.eq_zero_of_dvd_of_lt hdvd (h digit (List.mem_of_getElem? hget))

/-- What the last group has beyond the scale is zeros. -/
theorem dvd_fraction (h : ∀ digit ∈ digits, digit < 10000) (hscale : WithinScale weight scale digits) :
    10 ^ (4 * fractionGroups scale - scale) ∣ digitsValue (groupsText digits (weight + 1) (fractionGroups scale)) := by
  have hgroups : 4 * fractionGroups scale - scale ≤ 3 ∧ scale ≤ 4 * fractionGroups scale := by
    rw [fractionGroups]
    omega
  rw [digitsValue_groupsText h]
  cases hcount : fractionGroups scale with
  | zero => simp
  | succ count =>
    rw [hcount] at hgroups
    rw [List.range_succ, List.map_append, radixValue_append, List.map_singleton, radixValue_singleton,
      List.length_singleton, Nat.pow_one]
    have hbase : 10 ^ (4 * (count + 1) - scale) ∣ 10000 := Nat.pow_dvd_pow 10 (by omega : _ ≤ 4)
    refine Nat.dvd_add (Nat.dvd_mul_left_of_dvd hbase _) ?_
    rw [digitOf]
    split_ifs with hneg
    · exact Nat.dvd_zero _
    · cases hget : digits[(weight + 1 + (count : ℤ)).toNat]? with
      | none => exact Nat.dvd_zero _
      | some digit => exact hscale _ digit hget _ (by omega) (by omega)

theorem isDigit_take (h : ∀ digit ∈ digits, digit < 10000) :
    ((fractionFrom digits scale (weight + 1) []).take scale).length = scale ∧
      ∀ ch ∈ (fractionFrom digits scale (weight + 1) []).take scale, ch.isDigit = true := by
  rw [fractionFrom_eq h scale (fractionGroups scale) _ _ rfl, List.nil_append]
  constructor
  · rw [List.length_take, length_groupsText h, fractionGroups]
    omega
  · intro ch hch
    exact isDigit_groupsText _ _ ch (List.mem_of_mem_take hch)

/-- Cutting the fraction at the scale loses nothing. -/
theorem digitsValue_take (h : ∀ digit ∈ digits, digit < 10000) (hscale : WithinScale weight scale digits) :
    digitsValue ((fractionFrom digits scale (weight + 1) []).take scale) * 10 ^ (4 * fractionGroups scale - scale) =
      digitsValue (groupsText digits (weight + 1) (fractionGroups scale)) := by
  rw [fractionFrom_eq h scale (fractionGroups scale) _ _ rfl, List.nil_append]
  have hdvd := dvd_fraction h hscale
  have hlen : ((groupsText digits (weight + 1) (fractionGroups scale)).drop scale).length =
      4 * fractionGroups scale - scale := by
    rw [List.length_drop, length_groupsText h]
  have hsplit := digitsValue_append ((groupsText digits (weight + 1) (fractionGroups scale)).take scale)
    ((groupsText digits (weight + 1) (fractionGroups scale)).drop scale)
  rw [List.take_append_drop, hlen] at hsplit
  have hlt : digitsValue ((groupsText digits (weight + 1) (fractionGroups scale)).drop scale) < 10 ^ _ :=
    digitsValue_lt fun ch hch => isDigit_groupsText _ _ ch (List.mem_of_mem_drop hch)
  rw [hlen] at hlt
  rw [hsplit, Nat.dvd_add_right (Nat.dvd_mul_left _ _)] at hdvd
  rw [hsplit, Nat.eq_zero_of_dvd_of_lt hdvd hlt, Nat.add_zero]

/-- The literal's value is the numeric's. -/
theorem value_eq (h : ∀ digit ∈ digits, digit < 10000) (hscale : WithinScale weight scale digits) :
    (digitsValue (wholeText digits weight) : ℚ) +
        digitsValue ((fractionFrom digits scale (weight + 1) []).take scale) / 10 ^ scale =
      numericValue weight digits := by
  have hbase : (10000 : ℚ) ≠ 0 := by norm_num
  have hpow : (10000 : ℚ) ^ fractionGroups scale = 10 ^ (4 * fractionGroups scale - scale) * 10 ^ scale := by
    rw [← pow_add, show (10000 : ℚ) = 10 ^ 4 by norm_num, ← pow_mul]
    congr 1
    rw [fractionGroups]
    omega
  have hcut := digitsValue_take h hscale
  -- the groups read as one number
  have hall := @radixValue_groups digits (weight + 1) (fractionGroups scale)
  rw [radixValue_append, ← digitsValue_wholeText h, ← digitsValue_groupsText h, ← hcut, List.length_map,
    List.length_range] at hall
  have hstored := numericValue_groups weight digits (weight + 1 + fractionGroups scale).toNat
    fun i hi => digit_zero_of_beyond h hscale (by omega)
  rw [hstored, numericValue_eq, ← hall, List.length_map, List.length_range]
  rcases lt_or_ge (weight + 1 + (fractionGroups scale : ℤ)) 0 with hneg | hpos
  · have hnone : (weight + 1 + (fractionGroups scale : ℤ)).toNat = 0 := by omega
    rw [hnone, List.range_zero, List.map_nil, radixValue_nil, Nat.add_eq_zero_iff] at hall
    have hwhole := (Nat.mul_eq_zero.1 hall.1).resolve_right (Nat.pow_pos (by decide)).ne'
    have hfraction := (Nat.mul_eq_zero.1 hall.2).resolve_right (Nat.pow_pos (by decide)).ne'
    rw [hwhole, hfraction]
    simp
  · have hplace : weight + 1 - ((weight + 1 + (fractionGroups scale : ℤ)).toNat : ℤ) = -(fractionGroups scale : ℤ) := by
      omega
    rw [hplace, zpow_neg, zpow_natCast, hpow]
    push_cast
    rw [hpow]
    field_simp

end Cut

section Wire

theorem wordAt_eq_none {bytes : List UInt8} {place : ℕ} : wordAt bytes place = none ↔ bytes.length ≤ place + 1 := by
  rw [wordAt]
  constructor
  · intro h
    by_contra hlen
    rw [List.getElem?_eq_getElem (by omega : place < bytes.length),
      List.getElem?_eq_getElem (by omega : place + 1 < bytes.length)] at h
    cases h
  · intro h
    rw [List.getElem?_eq_none h]
    cases bytes[place]? <;> rfl

theorem mapM_eq_none {A B : Type} {f : A → Option B} {items : List A} :
    items.mapM f = none ↔ ∃ item ∈ items, f item = none := by
  induction items with
  | nil => simp
  | cons item items ih =>
    rw [List.mapM_cons]
    cases hitem : f item with
    | none => simp [hitem]
    | some value =>
      cases hitems : items.mapM f with
      | none => simpa [hitem, hitems] using ih.1 hitems
      | some values =>
        rw [hitems] at ih
        simpa [hitem] using fun other hother => mt (fun hnone => ⟨other, hother, hnone⟩) (mt ih.2 (by simp))

theorem bind_some_eq_none {A B : Type} (x : Option A) (f : A → B) : (x.bind fun a => some (f a)) = none ↔ x = none := by
  cases x <;> simp

/-- The count of digits and the sign word of a numeric's bytes. -/
def digitCount (bytes : List UInt8) : ℕ := (wordAt bytes 0).getD 0

def signWord (bytes : List UInt8) : ℕ := (wordAt bytes 4).getD 0

/-- Four words, and all the digits of a number that is finite. -/
def LongEnough (bytes : List UInt8) : Prop :=
  8 ≤ bytes.length ∧ (signWord bytes = 0 ∨ signWord bytes = 0x4000 → 8 + 2 * digitCount bytes ≤ bytes.length)

def knownSigns : List ℕ := [0, 0x4000, 0xC000, 0xD000, 0xF000]

theorem numericText_eq_none (bytes : List UInt8) :
    numericText bytes = none ↔ ¬LongEnough bytes ∨ signWord bytes ∉ knownSigns := by
  by_cases hlen : 8 ≤ bytes.length
  · have hword : ∀ place, place ≤ 6 → wordAt bytes place = some ((wordAt bytes place).getD 0) := by
      intro place hplace
      cases hnone : wordAt bytes place with
      | none =>
        have hshort := wordAt_eq_none.1 hnone
        omega
      | some word => rfl
    have hdigits : ((List.range (digitCount bytes)).mapM fun position => wordAt bytes (8 + 2 * position)) = none ↔
        bytes.length < 8 + 2 * digitCount bytes := by
      rw [mapM_eq_none]
      simp only [List.mem_range, wordAt_eq_none]
      constructor
      · rintro ⟨position, hposition, hshort⟩
        omega
      · intro hshort
        exact ⟨digitCount bytes - 1, by omega, by omega⟩
    rw [numericText, hword 0 (by decide), hword 2 (by decide), hword 4 (by decide), hword 6 (by decide), ← digitCount,
      ← signWord]
    simp only [Option.bind_eq_bind, Option.bind_some, LongEnough, hlen, true_and, knownSigns, List.mem_cons,
      List.not_mem_nil, or_false]
    by_cases hnan : signWord bytes = 0xC000
    · simp [hnan]
    · by_cases hinf : signWord bytes = 0xD000
      · simp [hinf]
      · by_cases hneg : signWord bytes = 0xF000
        · simp [hneg]
        · rw [if_neg hnan, if_neg hinf, if_neg hneg]
          by_cases hfinite : signWord bytes = 0 ∨ signWord bytes = 0x4000
          · rw [if_pos hfinite]
            refine (bind_some_eq_none _ _).trans (hdigits.trans ?_)
            have hsign : signWord bytes = 0 ∨ signWord bytes = 0x4000 ∨ signWord bytes = 0xC000 ∨
                signWord bytes = 0xD000 ∨ signWord bytes = 0xF000 := by omega
            simp only [hfinite, hsign, true_implies, not_true_eq_false, or_false, Nat.not_le]
          · rw [if_neg hfinite]
            refine iff_of_true rfl (.inr ?_)
            omega
  · refine iff_of_true ?_ (.inl fun h => hlen h.1)
    have hscale : wordAt bytes 6 = none := wordAt_eq_none.2 (by omega)
    rw [numericText, hscale]
    cases wordAt bytes 0 <;> cases wordAt bytes 2 <;> cases wordAt bytes 4 <;> rfl

end Wire

section Main

/-- The binary form of a numeric. -/
def numericBytes (negative : Bool) (weight : Int16) (scale : UInt16) (digits : List ℕ) : List UInt8 :=
  beBytes 2 digits.length ++ signedBeBytes 2 weight.toInt ++ beBytes 2 (if negative then 0x4000 else 0) ++
    beBytes 2 scale.toNat ++ digits.flatMap (beBytes 2)

/-- A decimal literal, with a point only before digits. -/
def decimalLiteral (negative : Bool) (whole fraction : List Char) : List Char :=
  (if negative then ['-'] else []) ++ whole ++ if fraction = [] then [] else '.' :: fraction

def literalValue (negative : Bool) (whole fraction : List Char) : ℚ :=
  (if negative then -1 else 1) * ((digitsValue whole : ℚ) + digitsValue fraction / 10 ^ fraction.length)

theorem wordAt_beBytes (front : List UInt8) {word : ℕ} (hword : word < 2 ^ 16) (back : List UInt8) :
    wordAt (front ++ (beBytes 2 word ++ back)) front.length = some word := by
  have hbytes : beBytes 2 word = [UInt8.ofNat (word / 256), UInt8.ofNat word] := rfl
  have hvalue := bigEndian_beBytes_of_lt (by simpa using hword : word < 256 ^ 2)
  rw [hbytes] at hvalue
  rw [hbytes, wordAt, List.getElem?_append_right (Nat.le_refl _), List.getElem?_append_right (Nat.le_add_right _ 1),
    Nat.sub_self, Nat.add_sub_cancel_left]
  exact congrArg some hvalue

theorem mapM_words {digits : List ℕ} (h : ∀ digit ∈ digits, digit < 2 ^ 16) (front : List UInt8) :
    ((List.range digits.length).mapM fun position =>
      wordAt (front ++ digits.flatMap (beBytes 2)) (front.length + 2 * position)) = some digits := by
  induction digits generalizing front with
  | nil => rfl
  | cons digit digits ih =>
    rw [List.forall_mem_cons] at h
    have hrest := ih h.2 (front ++ beBytes 2 digit)
    have hlen : (front ++ beBytes 2 digit).length = front.length + 2 := by rw [List.length_append, length_beBytes]
    rw [hlen, List.append_assoc] at hrest
    rw [List.flatMap_cons, List.length_cons, List.range_succ_eq_map, List.mapM_cons, Nat.mul_zero, Nat.add_zero,
      wordAt_beBytes front h.1, List.mapM_map]
    have hshift : ((fun position => wordAt (front ++ (beBytes 2 digit ++ digits.flatMap (beBytes 2)))
        (front.length + 2 * position)) ∘ Nat.succ) = fun position =>
        wordAt (front ++ (beBytes 2 digit ++ digits.flatMap (beBytes 2))) (front.length + 2 + 2 * position) := by
      funext position
      rw [Function.comp_apply, Nat.succ_eq_add_one]
      congr 1
      omega
    rw [hshift, hrest]
    rfl

/-- The four words and the digits are found where they were put. -/
theorem numericText_words {count weight sign scale : ℕ} {digits : List ℕ} (hcount : digits.length = count)
    (hcount' : count < 2 ^ 16) (hweight : weight < 2 ^ 16) (hsign : sign = 0 ∨ sign = 0x4000) (hscale : scale < 2 ^ 16)
    (h : ∀ digit ∈ digits, digit < 2 ^ 16) :
    numericText (beBytes 2 count ++ (beBytes 2 weight ++ (beBytes 2 sign ++ (beBytes 2 scale ++
      digits.flatMap (beBytes 2))))) =
      some ((if sign = 0x4000 then ['-'] else []) ++ wholeText digits (Int.bmod weight (2 ^ 16)) ++
        if 0 < scale then '.' :: (fractionFrom digits scale (Int.bmod weight (2 ^ 16) + 1) []).take scale else []) := by
  have hsign' : sign < 2 ^ 16 := by omega
  have h0 := wordAt_beBytes [] hcount' (beBytes 2 weight ++ (beBytes 2 sign ++ (beBytes 2 scale ++
    digits.flatMap (beBytes 2))))
  have h2 := wordAt_beBytes (beBytes 2 count) hweight (beBytes 2 sign ++ (beBytes 2 scale ++ digits.flatMap (beBytes 2)))
  have h4 := wordAt_beBytes (beBytes 2 count ++ beBytes 2 weight) hsign' (beBytes 2 scale ++ digits.flatMap (beBytes 2))
  have h6 := wordAt_beBytes (beBytes 2 count ++ beBytes 2 weight ++ beBytes 2 sign) hscale (digits.flatMap (beBytes 2))
  have hwords := mapM_words h (beBytes 2 count ++ beBytes 2 weight ++ beBytes 2 sign ++ beBytes 2 scale)
  simp only [List.length_append, length_beBytes, List.length_nil, List.nil_append, List.append_assoc,
    Nat.reduceAdd] at h0 h2 h4 h6 hwords
  rw [hcount] at hwords
  have hnan : sign ≠ 0xC000 ∧ sign ≠ 0xD000 ∧ sign ≠ 0xF000 := by omega
  rw [numericText, h0, h2, h4, h6]
  simp only [Option.bind_eq_bind, Option.bind_some]
  rw [if_neg hnan.1, if_neg hnan.2.1, if_neg hnan.2.2, if_pos hsign, hwords, Option.bind_some]

theorem numericText_finite (negative : Bool) (weight : Int16) (scale : UInt16) {digits : List ℕ}
    (hcount : digits.length < 2 ^ 16) (h : ∀ digit ∈ digits, digit < 10000) :
    numericText (numericBytes negative weight scale digits) =
      some (decimalLiteral negative (wholeText digits weight.toInt)
        ((fractionFrom digits scale.toNat (weight.toInt + 1) []).take scale.toNat)) := by
  have hlow := weight.le_toInt
  have hhigh := weight.toInt_lt
  have hweight : Int.bmod ((weight.toInt % 256 ^ 2).toNat : ℤ) (2 ^ 16) = weight.toInt := by
    have hread := @signedBigEndian_signedBeBytes 2 weight.toInt (by omega) (by omega)
    rw [signedBigEndian, length_signedBeBytes, signedBeBytes, bigEndian_beBytes_of_lt (by omega)] at hread
    exact hread
  have hsign : (if negative then 0x4000 else 0) = 0 ∨ (if negative then 0x4000 else 0) = 0x4000 := by
    cases negative <;> decide
  have hwords := numericText_words rfl hcount (by omega : (weight.toInt % 256 ^ 2).toNat < 2 ^ 16) hsign scale.toNat_lt
    fun digit hdigit => (h digit hdigit).trans (by decide)
  have hlen := (@isDigit_take digits weight.toInt scale.toNat h).1
  rw [hweight] at hwords
  rw [numericBytes, List.append_assoc, List.append_assoc, List.append_assoc, signedBeBytes, hwords, decimalLiteral]
  generalize (fractionFrom digits scale.toNat (weight.toInt + 1) []).take scale.toNat = fraction at hlen
  have hpoint : (if 0 < scale.toNat then '.' :: fraction else []) = if fraction = [] then [] else '.' :: fraction := by
    cases fraction with
    | nil => simp [← hlen]
    | cons digit fraction => simp [← hlen]
  have hnegative : (if (if negative then 0x4000 else 0) = 0x4000 then ['-'] else []) = if negative then ['-'] else [] := by
    cases negative <;> rfl
  rw [hpoint, hnegative]

/-- A finite numeric is written with its scale's digits and its own value; nothing is written for
bytes that end early or have another sign word. -/
theorem numericText_exact :
    (∀ (negative : Bool) (weight : Int16) (scale : UInt16) (digits : List ℕ), digits.length < 2 ^ 16 →
      (∀ digit ∈ digits, digit < 10000) → WithinScale weight.toInt scale.toNat digits →
      ∃ whole fraction, numericText (numericBytes negative weight scale digits) =
          some (decimalLiteral negative whole fraction) ∧
        whole ≠ [] ∧ (∀ ch ∈ whole, ch.isDigit = true) ∧ (∀ ch ∈ fraction, ch.isDigit = true) ∧
        fraction.length = scale.toNat ∧
        literalValue negative whole fraction = (if negative then -1 else 1) * numericValue weight.toInt digits) ∧
    ∀ bytes, numericText bytes = none ↔ ¬LongEnough bytes ∨ signWord bytes ∉ knownSigns := by
  refine ⟨?_, numericText_eq_none⟩
  intro negative weight scale digits hcount h hscale
  obtain ⟨hlen, hdigits⟩ := @isDigit_take digits weight.toInt scale.toNat h
  refine ⟨_, _, numericText_finite negative weight scale hcount h, wholeText_ne_nil _, isDigit_wholeText _, hdigits,
    hlen, ?_⟩
  rw [literalValue, hlen, value_eq h hscale]

/-- -0.00120: one digit, two places below the point, of which the last group is cut. -/
theorem numericText_exact_small :
    ∃ whole fraction, numericText (numericBytes true (-1) 5 [12]) = some (decimalLiteral true whole fraction) ∧
      whole ≠ [] ∧ (∀ ch ∈ whole, ch.isDigit = true) ∧ (∀ ch ∈ fraction, ch.isDigit = true) ∧ fraction.length = 5 ∧
      literalValue true whole fraction = -1 * numericValue (-1) [12] := by
  have hscale : WithinScale (Int16.toInt (-1)) (UInt16.toNat 5) [12] := by
    intro i digit hdigit places hplaces hbeyond
    have hweight : Int16.toInt (-1) = -1 := by decide
    have hfive : (UInt16.toNat 5 : ℤ) = 5 := by decide
    cases i with
    | zero =>
      rw [hweight, hfive] at hbeyond
      omega
    | succ i => cases hdigit
  exact numericText_exact.1 true (-1) 5 [12] (by decide) (by decide) hscale

end Main

end TideOrm
