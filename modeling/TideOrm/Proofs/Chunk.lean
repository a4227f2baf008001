import TideOrm.Spec.Chunk
import Mathlib.Order.Basic
import Mathlib.Data.List.TakeWhile

/-! Chunked reads cover the result. Between two batches the cursor stands on a cut
of the ordered rows: what was handed out lies strictly before what is left, and
the cursor's condition selects exactly what is left. Every batch moves the cut
over whole runs of one key, unless the limit ends the read there. -/

namespace TideOrm

variable {Row K : Type} [LinearOrder K]

def Order.Before (order : Order) (a b : K) : Prop :=
  match order with
  | .asc => a < b
  | .desc => b < a

theorem Order.before_irrefl (order : Order) (a : K) : ¬ order.Before a a := by
  cases order <;> exact lt_irrefl a

theorem Order.before_of_ne {order : Order} {a b : K} (h : ¬ order.Before b a) (hne : a ≠ b) :
    order.Before a b := by
  cases order with
  | asc => exact lt_of_le_of_ne (not_lt.1 h) hne
  | desc => exact lt_of_le_of_ne (not_lt.1 h) hne.symm

theorem Order.before_asymm {order : Order} {a b : K} (h : order.Before a b) : ¬ order.Before b a := by
  cases order <;> exact lt_asymm h

theorem Order.before_of_not_before {order : Order} {a b c : K} (h : order.Before a b)
    (hc : ¬ order.Before c b) : order.Before a c := by
  cases order with
  | asc => exact lt_of_lt_of_le h (not_lt.1 hc)
  | desc => exact lt_of_le_of_lt (not_lt.1 hc) h

theorem passesCursor_after (order : Order) (at_ key : K) :
    passesCursor order (some (at_, false)) key = true ↔ order.Before at_ key := by
  cases order <;> simp [passesCursor, Order.Before]

theorem passesCursor_from (order : Order) (at_ key : K) :
    passesCursor order (some (at_, true)) key = true ↔ ¬ order.Before key at_ := by
  cases order <;> simp [passesCursor, Order.Before]

namespace ChunkCall

/-- The rows come in the cursor's order, and only a join repeats a key. -/
structure Ordered (c : ChunkCall Row K) : Prop where
  sorted : c.rows.Pairwise fun a b => ¬ c.order.Before (c.key b) (c.key a)
  unique : c.joinsRepeatKeys = false → c.rows.Pairwise fun a b => c.key a ≠ c.key b

/-- The cursor selects exactly what is left, and no key is on both sides. -/
structure Cut (c : ChunkCall Row K) (done left : List Row) (cursor : Option (K × Bool)) : Prop where
  rows : c.rows = done ++ left
  selects : c.rows.filter (fun row => passesCursor c.order cursor (c.key row)) = left
  apart : ∀ a ∈ done, ∀ b ∈ left, c.order.Before (c.key a) (c.key b)

theorem cut_start (c : ChunkCall Row K) : Cut c [] c.rows none where
  rows := rfl
  selects := List.filter_eq_self.2 fun _ _ => rfl
  apart := by simp

theorem Cut.fetch {c : ChunkCall Row K} {done left : List Row} {cursor : Option (K × Bool)}
    (h : Cut c done left cursor) (limit : ℕ) : c.fetch cursor limit = left.take limit := by
  rw [ChunkCall.fetch, h.selects]

theorem filter_split {p : Row → Bool} {done left : List Row} (hd : ∀ a ∈ done, p a = false)
    (hl : ∀ b ∈ left, p b = true) : (done ++ left).filter p = left := by
  rw [List.filter_append, List.filter_eq_nil_iff.2 fun a ha => by simp [hd a ha],
    List.filter_eq_self.2 hl, List.nil_append]

/-- A cursor after the last key handed out. -/
theorem cut_after {c : ChunkCall Row K} (ho : c.Ordered) {done left : List Row} {last : Row}
    (hrows : c.rows = done ++ left) (hlast : last ∈ done)
    (hmax : ∀ a ∈ done, ¬ c.order.Before (c.key last) (c.key a))
    (hapart : ∀ a ∈ done, ∀ b ∈ left, c.key a ≠ c.key b) :
    Cut c done left (some (c.key last, false)) := by
  have hsorted := ho.sorted
  rw [hrows, List.pairwise_append] at hsorted
  have hbefore : ∀ a ∈ done, ∀ b ∈ left, c.order.Before (c.key a) (c.key b) :=
    fun a ha b hb => Order.before_of_ne (hsorted.2.2 a ha b hb) (hapart a ha b hb)
  refine ⟨hrows, ?_, hbefore⟩
  rw [hrows]
  apply filter_split
  · intro a ha
    rw [Bool.eq_false_iff]
    exact fun h => hmax a ha ((passesCursor_after _ _ _).1 h)
  · intro b hb
    exact (passesCursor_after _ _ _).2 (hbefore last hlast b hb)

/-- A cursor at the first key that is left. -/
theorem cut_from {c : ChunkCall Row K} (ho : c.Ordered) {done left : List Row} {first : Row}
    (hrows : c.rows = done ++ left) (hfirst : first ∈ left)
    (hmin : ∀ b ∈ left, ¬ c.order.Before (c.key b) (c.key first))
    (hapart : ∀ a ∈ done, c.key a ≠ c.key first) :
    Cut c done left (some (c.key first, true)) := by
  have hsorted := ho.sorted
  rw [hrows, List.pairwise_append] at hsorted
  have hbefore : ∀ a ∈ done, c.order.Before (c.key a) (c.key first) :=
    fun a ha => Order.before_of_ne (hsorted.2.2 a ha first hfirst) (hapart a ha)
  refine ⟨hrows, ?_, fun a ha b hb => Order.before_of_not_before (hbefore a ha) (hmin b hb)⟩
  rw [hrows]
  apply filter_split
  · intro a ha
    rw [Bool.eq_false_iff]
    exact fun h => (passesCursor_from _ _ _).1 h (hbefore a ha)
  · intro b hb
    exact (passesCursor_from _ _ _).2 (hmin b hb)

/-- In order, the last row of a prefix is not before any other of it. -/
theorem last_max {c : ChunkCall Row K} {l : List Row} {last : Row}
    (hs : l.Pairwise fun a b => ¬ c.order.Before (c.key b) (c.key a)) (hlast : l.getLast? = some last) :
    ∀ a ∈ l, ¬ c.order.Before (c.key last) (c.key a) := by
  obtain ⟨init, rfl⟩ := List.getLast?_eq_some_iff.1 hlast
  intro a ha
  rw [List.pairwise_append] at hs
  rcases List.mem_append.1 ha with ha | ha
  · exact hs.2.2 a ha last (by simp)
  · rw [List.mem_singleton.1 ha]
    exact Order.before_irrefl _ _

/-- A chunk size at the end of its type still counts every row. -/
def Countable (c : ChunkCall Row K) : Prop := usizeMax ≤ c.chunkSize → c.rows.length ≤ usizeMax

/-- The rows of one key, longer than a batch holds. -/
def LongRun (c : ChunkCall Row K) (key : K) : Prop :=
  c.chunkSize < (c.rows.filter fun row => decide (c.key row = key)).length

/-- The error that names such a run. -/
def longRunError (c : ChunkCall Row K) (key : K) : Error :=
  let size := c.chunkSize
  let shown := c.displayKey key
  .query s!"chunk({size}) found more rows with the key {shown} than a batch holds: the join repeats it, so pass a larger chunk size"

theorem fetchRun_short {c : ChunkCall Row K} (hcount : c.Countable) {key : K}
    (h : ¬ c.LongRun key) : c.fetchRun key (saturatingAdd c.chunkSize 1) =
      c.rows.filter fun row => decide (c.key row = key) := by
  apply List.take_of_length_le
  have hfit := not_lt.1 h
  have hall := List.length_filter_le (fun row => decide (c.key row = key)) c.rows
  unfold Countable at hcount
  simp only [saturatingAdd]
  omega

/-- One row more than a batch holds tells a long run from one that fits. -/
theorem fetchRun_long {c : ChunkCall Row K} (hcount : c.Countable) {key : K} :
    c.chunkSize < (c.fetchRun key (saturatingAdd c.chunkSize 1)).length ↔ c.LongRun key := by
  have hall := List.length_filter_le (fun row => decide (c.key row = key)) c.rows
  unfold Countable at hcount
  simp only [fetchRun, LongRun, List.length_take, saturatingAdd]
  omega

/-- What `settleLastRun` makes of the batch at a cut: either nothing more will be
read after it, or the cut moves over the batch it hands out. -/
inductive Settled (c : ChunkCall Row K) (done left : List Row) (last : Row) (batchLimit : ℕ)
    (moreMayFollow : Bool) : Except Error (List Row × Bool) → Prop where
  | ends (h : (left.take batchLimit).length < batchLimit ∨ moreMayFollow = false) :
      Settled c done left last batchLimit moreMayFollow (.ok (left.take batchLimit, false))
  | cuts (settled left' : List Row) (startsAtLastKey : Bool) (hleft : left = settled ++ left')
      (hfull : (left.take batchLimit).length = batchLimit)
      (hne : settled ≠ []) (hlen : settled.length ≤ batchLimit)
      (hcut : Cut c (done ++ settled) left' (some (c.key last, startsAtLastKey))) :
      Settled c done left last batchLimit moreMayFollow (.ok (settled, startsAtLastKey))
  | tooLong (h : c.LongRun (c.key last)) :
      Settled c done left last batchLimit moreMayFollow (.error (longRunError c (c.key last)))

section Settle

variable {c : ChunkCall Row K} {done left : List Row} {cursor : Option (K × Bool)} {last : Row}
  {batchLimit : ℕ}

theorem Cut.sorted_left (ho : c.Ordered) (h : Cut c done left cursor) :
    left.Pairwise fun a b => ¬ c.order.Before (c.key b) (c.key a) := by
  have := ho.sorted
  rw [h.rows, List.pairwise_append] at this
  exact this.2.1

/-- The cut moves over a prefix that shares no key with the rest. -/
theorem Cut.move_after (ho : c.Ordered) (h : Cut c done left cursor) {batch rest : List Row}
    (hleft : left = batch ++ rest) (hlast : batch.getLast? = some last)
    (hapart : ∀ a ∈ batch, ∀ b ∈ rest, c.key a ≠ c.key b) :
    Cut c (done ++ batch) rest (some (c.key last, false)) := by
  have hmem : last ∈ batch := List.mem_of_getLast? hlast
  have hsl := h.sorted_left ho
  rw [hleft, List.pairwise_append] at hsl
  apply cut_after ho
  · rw [h.rows, hleft, List.append_assoc]
  · exact List.mem_append_right _ hmem
  · intro a ha
    rcases List.mem_append.1 ha with ha | ha
    · have hb := h.apart a ha last (by rw [hleft]; exact List.mem_append_left _ hmem)
      exact Order.before_asymm hb
    · exact last_max hsl.1 hlast a ha
  · intro a ha b hb
    rcases List.mem_append.1 ha with ha | ha
    · have hb' := h.apart a ha b (by rw [hleft]; exact List.mem_append_right _ hb)
      intro heq
      rw [heq] at hb'
      exact Order.before_irrefl _ _ hb'
    · exact hapart a ha b hb

/-- Without joins no two rows share a key, so any prefix can be handed out. -/
theorem Cut.move_unique (ho : c.Ordered) (h : Cut c done left cursor) (hj : c.joinsRepeatKeys = false)
    {batch rest : List Row} (hleft : left = batch ++ rest) (hlast : batch.getLast? = some last) :
    Cut c (done ++ batch) rest (some (c.key last, false)) := by
  have hu := ho.unique hj
  rw [h.rows, hleft, List.pairwise_append, List.pairwise_append] at hu
  exact h.move_after ho hleft hlast hu.2.1.2.2

/-- The run a batch of one key re-reads is that batch, when a batch can hold it. -/
theorem Cut.whole_run (h : Cut c done left cursor) {batch rest : List Row}
    (hleft : left = batch ++ rest) (hmem : last ∈ batch)
    (hone : ∀ a ∈ batch, c.key a = c.key last)
    (hfits : (c.rows.filter fun row => decide (c.key row = c.key last)).length ≤ batch.length) :
    (c.rows.filter fun row => decide (c.key row = c.key last)) = batch ∧
      ∀ b ∈ rest, c.key b ≠ c.key last := by
  have hlast : last ∈ left := by rw [hleft]; exact List.mem_append_left _ hmem
  have hdone : done.filter (fun row => decide (c.key row = c.key last)) = [] := by
    rw [List.filter_eq_nil_iff]
    intro a ha
    have hb := h.apart a ha last hlast
    simp only [decide_eq_true_eq]
    intro heq
    rw [heq] at hb
    exact Order.before_irrefl _ _ hb
  have hbatch : batch.filter (fun row => decide (c.key row = c.key last)) = batch := by
    rw [List.filter_eq_self]
    intro a ha
    simpa using hone a ha
  have hrun : (c.rows.filter fun row => decide (c.key row = c.key last)) =
      batch ++ rest.filter fun row => decide (c.key row = c.key last) := by
    rw [h.rows, hleft, List.filter_append, List.filter_append, hdone, hbatch, List.nil_append]
  rw [hrun, List.length_append] at hfits
  have hrest : rest.filter (fun row => decide (c.key row = c.key last)) = [] :=
    List.eq_nil_of_length_eq_zero (by omega)
  refine ⟨by rw [hrun, hrest, List.append_nil], ?_⟩
  intro b hb
  have := List.filter_eq_nil_iff.1 hrest b hb
  simpa using this

/-- A batch that ends inside a run, split before that run. -/
theorem split_last_run (key : Row → K) (k : K) (batch : List Row) :
    ∃ front tail, batch = front ++ tail ∧
      tail.length = (batch.reverse.takeWhile fun row => decide (key row = k)).length ∧
      (∀ a ∈ tail, key a = k) ∧ ∀ a, front.getLast? = some a → key a ≠ k := by
  have hsplit : batch.reverse = batch.reverse.takeWhile (fun row => decide (key row = k)) ++
      batch.reverse.dropWhile (fun row => decide (key row = k)) := List.takeWhile_append_dropWhile.symm
  refine ⟨(batch.reverse.dropWhile fun row => decide (key row = k)).reverse,
    (batch.reverse.takeWhile fun row => decide (key row = k)).reverse, ?_, by simp, ?_, ?_⟩
  · rw [← List.reverse_append, ← hsplit, List.reverse_reverse]
  · intro a ha
    have := List.mem_takeWhile_imp (List.mem_reverse.1 ha)
    simpa using this
  · intro a ha
    rw [List.getLast?_reverse] at ha
    have := List.head?_dropWhile_not (fun row => decide (key row = k)) batch.reverse
    rw [ha] at this
    simpa using this

/-- The cut moves over the front of a batch, up to its last run. -/
theorem Cut.move_from (ho : c.Ordered) (h : Cut c done left cursor) {front tail rest : List Row}
    (hleft : left = front ++ (tail ++ rest)) (hlast : (front ++ tail).getLast? = some last)
    (htail : ∀ a ∈ tail, c.key a = c.key last) (htne : tail ≠ [])
    (hfront : ∀ a, front.getLast? = some a → c.key a ≠ c.key last) :
    Cut c (done ++ front) (tail ++ rest) (some (c.key last, true)) := by
  have hmem : last ∈ tail := by
    rw [List.getLast?_append_of_ne_nil _ htne] at hlast
    exact List.mem_of_getLast? hlast
  have hsl := h.sorted_left ho
  rw [hleft, List.pairwise_append] at hsl
  have hrest := hsl.2.1
  rw [List.pairwise_append] at hrest
  apply cut_from ho
  · rw [h.rows, hleft, List.append_assoc]
  · exact List.mem_append_left _ hmem
  · intro b hb
    rcases List.mem_append.1 hb with hb | hb
    · rw [htail b hb]
      exact Order.before_irrefl _ _
    · exact hrest.2.2 last hmem b hb
  · intro a ha
    rcases List.mem_append.1 ha with ha | ha
    · have hb := h.apart a ha last (by rw [hleft]; simp [hmem])
      intro heq
      rw [heq] at hb
      exact Order.before_irrefl _ _ hb
    · -- the front's last row is before the run, and the front is in order
      obtain ⟨x, hx⟩ : ∃ x, front.getLast? = some x := by
        cases hf : front.getLast? with
        | none => rw [List.getLast?_eq_none_iff.1 hf] at ha; cases ha
        | some x => exact ⟨x, rfl⟩
      have hxl := hsl.2.2 x (List.mem_of_getLast? hx) last (List.mem_append_left _ hmem)
      have hbx := Order.before_of_ne hxl (hfront x hx)
      intro heq
      rw [← heq] at hbx
      exact last_max hsl.1 hx a ha hbx

theorem settleLastRun_settled (ho : c.Ordered) (hcount : c.Countable)
    (h : Cut c done left cursor) (moreMayFollow : Bool)
    (hlast : (left.take batchLimit).getLast? = some last)
    (hfull : moreMayFollow = true → batchLimit = c.chunkSize) :
    Settled c done left last batchLimit moreMayFollow
      (c.settleLastRun (left.take batchLimit) (c.key last) batchLimit moreMayFollow) := by
  have hleft : left = left.take batchLimit ++ left.drop batchLimit := (List.take_append_drop _ _).symm
  have hne : left.take batchLimit ≠ [] := by
    intro hnil
    rw [hnil] at hlast
    cases hlast
  have hlen : (left.take batchLimit).length ≤ batchLimit := List.length_take_le _ _
  unfold settleLastRun
  by_cases hmore : moreMayFollow = true
  · by_cases hb : (left.take batchLimit).length = batchLimit
    · cases hj : c.joinsRepeatKeys with
      | false =>
        simp only [Bool.false_and, Bool.false_eq_true, if_false]
        exact .cuts _ _ _ hleft hb hne hlen (h.move_unique ho hj hleft hlast)
      | true =>
        simp only [hb, hmore, decide_true, Bool.and_self, if_true]
        obtain ⟨front, tail, hsplit, htlen, htail, hfront⟩ :=
          split_last_run c.key (c.key last) (left.take batchLimit)
        rw [← htlen]
        have hsum : front.length + tail.length = batchLimit := by
          rw [← List.length_append, ← hsplit, hb]
        by_cases hall : tail.length = batchLimit
        · have hfnil : front = [] := List.eq_nil_of_length_eq_zero (by omega)
          rw [hfnil, List.nil_append] at hsplit
          simp only [if_pos hall]
          by_cases hlong : c.LongRun (c.key last)
          · rw [if_pos ((fetchRun_long hcount).2 hlong)]
            exact .tooLong hlong
          · rw [if_neg (mt (fetchRun_long hcount).1 hlong), fetchRun_short hcount hlong]
            have hfits := not_lt.1 hlong
            rw [← hfull hmore, ← hb] at hfits
            obtain ⟨hrun, hrest⟩ := h.whole_run hleft (List.mem_of_getLast? hlast)
              (fun a ha => htail a (hsplit ▸ ha)) hfits
            rw [hrun]
            refine .cuts _ _ _ hleft hb hne hlen (h.move_after ho hleft hlast ?_)
            intro a ha b hbm
            rw [htail a (hsplit ▸ ha)]
            exact (hrest b hbm).symm
        · rw [if_neg hall]
          have htake : (left.take batchLimit).take (batchLimit - tail.length) = front := by
            rw [hsplit, ← hsum, Nat.add_sub_cancel, List.take_left]
          have htne : tail ≠ [] := by
            intro hnil
            rw [hnil, List.append_nil] at hsplit
            exact hfront last (hsplit ▸ hlast) rfl
          rw [htake]
          have hleft' : left = front ++ (tail ++ left.drop batchLimit) := by
            rw [← List.append_assoc, ← hsplit, List.take_append_drop]
          refine .cuts front _ true hleft' hb ?_ (by omega)
            (h.move_from ho hleft' (hsplit ▸ hlast) htail htne hfront)
          intro hnil
          rw [hnil, List.length_nil, Nat.zero_add] at hsum
          exact hall hsum
    · simp only [hb, decide_false, Bool.and_false, Bool.false_and, Bool.false_eq_true, if_false]
      exact .ends (Or.inl (by omega))
  · simp only [hmore, Bool.and_false, Bool.false_eq_true, if_false]
    exact .ends (Or.inr rfl)

end Settle

def takeLimit (limit : Option ℕ) (rows : List Row) : List Row := limit.elim rows rows.take

section Limit

variable {remaining : Option ℕ} {batchLimit chunkSize : ℕ} {left : List Row}

theorem batchLimit_le (h : batchLimit = remaining.elim chunkSize fun limit => min limit chunkSize) :
    batchLimit ≤ chunkSize ∧ ∀ l, remaining = some l → batchLimit ≤ l := by
  cases remaining with
  | none => exact ⟨h.le, by simp⟩
  | some l =>
    simp only [Option.elim_some] at h
    exact ⟨by omega, by simp only [Option.some.injEq]; omega⟩

/-- Rows may follow a batch only when it was not the limit that cut it. -/
theorem batchLimit_full (h : batchLimit = remaining.elim chunkSize fun limit => min limit chunkSize)
    (hmore : (remaining.all fun limit => decide (batchLimit < limit)) = true) : batchLimit = chunkSize := by
  cases remaining with
  | none => exact h
  | some l =>
    simp only [Option.elim_some, Option.all_some, decide_eq_true_eq] at h hmore
    omega

theorem take_prefix_takeLimit (hle : ∀ l, remaining = some l → batchLimit ≤ l) :
    left.take batchLimit <+: takeLimit remaining left := by
  cases remaining with
  | none => exact List.take_prefix _ _
  | some l => exact List.take_prefix_take_left (hle l rfl)

/-- A short batch, or one the limit cut, is all that was asked for, and the loop ends after it. -/
theorem take_ends (hle : ∀ l, remaining = some l → batchLimit ≤ l)
    (h : (left.take batchLimit).length < batchLimit ∨
      (remaining.all fun limit => decide (batchLimit < limit)) = false) :
    left.take batchLimit = takeLimit remaining left ∧
      (remaining.map (fun limit => limit - (left.take batchLimit).length) = some 0 ∨
        (left.take batchLimit).length < batchLimit) := by
  by_cases hshort : (left.take batchLimit).length < batchLimit
  · refine ⟨?_, Or.inr hshort⟩
    rw [List.length_take] at hshort
    have hall : left.take batchLimit = left := List.take_of_length_le (by omega)
    rw [hall]
    cases remaining with
    | none => rfl
    | some l =>
      have := hle l rfl
      exact (List.take_of_length_le (by omega)).symm
  · have hcut := h.resolve_left hshort
    cases remaining with
    | none => simp at hcut
    | some l =>
      simp only [Option.all_some, decide_eq_false_iff_not, not_lt] at hcut
      have hl : batchLimit = l := le_antisymm (hle l rfl) hcut
      refine ⟨by rw [hl]; rfl, Or.inl ?_⟩
      simp only [Option.map_some, Option.some.injEq]
      omega

end Limit

/-- What a run of the loop hands out of the rows that are left, and how it ends. -/
structure Covers (c : ChunkCall Row K) (delivered : List (List Row)) (limit : Option ℕ) (left : List Row)
    (batches : List (List Row)) (outcome : Except Error Unit) : Prop where
  sizes : ∀ batch ∈ batches, batch ≠ [] ∧ batch.length ≤ c.chunkSize
  apart : batches.Pairwise fun a b => ∀ x ∈ a, ∀ y ∈ b, c.key x ≠ c.key y
  inOrder : batches.flatten <+: takeLimit limit left
  complete : outcome = .ok () → batches.flatten = takeLimit limit left
  accepted : ∀ earlier batch later, batches = earlier ++ batch :: later → later ≠ [] ∨ outcome = .ok () →
    c.callback (delivered ++ earlier) batch = .ok ()
  failed : ∀ e, outcome = .error e → (∃ key, c.LongRun key ∧ e = longRunError c key) ∨
    ∃ earlier batch, batches = earlier ++ [batch] ∧ c.callback (delivered ++ earlier) batch = .error e

section Loop

variable {c : ChunkCall Row K} {delivered : List (List Row)} {limit : Option ℕ} {left : List Row}

theorem Covers.nothing (h : takeLimit limit left = []) : Covers c delivered limit left [] (.ok ()) where
  sizes := by simp
  apart := .nil
  inOrder := by simp
  complete := fun _ => by simp [h]
  accepted := by simp
  failed := by simp

theorem Covers.tooLong {key : K} (h : c.LongRun key) :
    Covers c delivered limit left [] (.error (longRunError c key)) where
  sizes := by simp
  apart := .nil
  inOrder := by simp
  complete := by simp
  accepted := by simp
  failed := fun e he => Or.inl ⟨key, h, (Except.error.inj he).symm⟩

theorem eq_single {α : Type} {earlier later : List α} {a b : α} (h : [a] = earlier ++ b :: later) :
    earlier = [] ∧ b = a ∧ later = [] := by
  cases earlier with
  | nil => simpa [eq_comm] using h
  | cons x xs => simp at h

/-- One last batch, accepted or refused by the callback. -/
theorem Covers.single {batch : List Row} {outcome : Except Error Unit}
    (hcall : c.callback delivered batch = outcome) (hne : batch ≠ []) (hlen : batch.length ≤ c.chunkSize)
    (hpre : batch <+: takeLimit limit left) (hall : outcome = .ok () → batch = takeLimit limit left) :
    Covers c delivered limit left [batch] outcome where
  sizes := by simpa using ⟨hne, hlen⟩
  apart := List.pairwise_singleton _ _
  inOrder := by simpa using hpre
  complete := by simpa using hall
  accepted := by
    intro earlier b later heq hend
    obtain ⟨rfl, rfl, rfl⟩ := eq_single heq
    rw [List.append_nil, hcall]
    exact hend.resolve_left fun h => h rfl
  failed := fun e he => Or.inr ⟨[], batch, rfl, by rw [List.append_nil, hcall, he]⟩

/-- A batch in front of a run that covers the rows after it. -/
theorem Covers.cons {batch left' : List Row} {limit' : Option ℕ} {batches : List (List Row)}
    {outcome : Except Error Unit} (hcall : c.callback delivered batch = .ok ())
    (hne : batch ≠ []) (hlen : batch.length ≤ c.chunkSize)
    (htake : takeLimit limit left = batch ++ takeLimit limit' left')
    (hapart : ∀ x ∈ batch, ∀ y ∈ left', c.key x ≠ c.key y)
    (h : Covers c (delivered ++ [batch]) limit' left' batches outcome) :
    Covers c delivered limit left (batch :: batches) outcome where
  sizes := by
    intro b hb
    rcases List.mem_cons.1 hb with rfl | hb
    · exact ⟨hne, hlen⟩
    · exact h.sizes b hb
  apart := by
    refine List.pairwise_cons.2 ⟨?_, h.apart⟩
    intro b hb x hx y hy
    have hy' : y ∈ takeLimit limit' left' := h.inOrder.subset (List.mem_flatten.2 ⟨b, hb, hy⟩)
    apply hapart x hx
    cases limit' with
    | none => exact hy'
    | some l => exact List.mem_of_mem_take hy'
  inOrder := by
    rw [List.flatten_cons, htake]
    exact (List.prefix_append_right_inj batch).2 h.inOrder
  complete := by
    intro hok
    rw [List.flatten_cons, htake, h.complete hok]
  accepted := by
    intro earlier b later heq hend
    cases earlier with
    | nil =>
      obtain ⟨rfl, rfl⟩ := List.cons.inj heq
      rwa [List.append_nil]
    | cons x xs =>
      obtain ⟨rfl, htail⟩ := List.cons.inj heq
      have := h.accepted xs b later htail hend
      rwa [List.append_assoc] at this
  failed := by
    intro e he
    rcases h.failed e he with hrun | ⟨earlier, b, rfl, hb⟩
    · exact Or.inl hrun
    · refine Or.inr ⟨batch :: earlier, b, rfl, ?_⟩
      rwa [List.append_assoc] at hb

theorem takeLimit_append {batch left' : List Row} (h : ∀ l, limit = some l → batch.length ≤ l) :
    takeLimit limit (batch ++ left') =
      batch ++ takeLimit (limit.map fun l => l - batch.length) left' := by
  cases limit with
  | none => rfl
  | some l => simp [takeLimit, List.take_append, List.take_of_length_le (h l rfl)]

/-- The loop ends within one pass for each row that is left, and covers them. -/
theorem loop_covers (hpos : 0 < c.chunkSize) (ho : c.Ordered) (hcount : c.Countable) :
    ∀ (fuel : ℕ) (delivered : List (List Row)) (remaining : Option ℕ) (cursor : Option (K × Bool))
      (done left : List Row), Cut c done left cursor → left.length < fuel →
      ∃ batches outcome, c.loop fuel delivered remaining cursor = some (delivered ++ batches, outcome) ∧
        Covers c delivered remaining left batches outcome := by
  intro fuel
  induction fuel with
  | zero => intro _ _ _ _ left _ hfuel; exact absurd hfuel (Nat.not_lt_zero _)
  | succ fuel ih =>
    intro delivered remaining cursor done left hcut hfuel
    obtain ⟨batchLimit, hlimit⟩ :
        ∃ n, n = remaining.elim c.chunkSize fun limit => min limit c.chunkSize := ⟨_, rfl⟩
    obtain ⟨hsize, hle⟩ := batchLimit_le hlimit
    unfold loop
    simp only [← hlimit, hcut.fetch]
    by_cases hzero : batchLimit = 0
    · rw [if_pos hzero]
      refine ⟨[], .ok (), by rw [List.append_nil], Covers.nothing ?_⟩
      cases remaining with
      | none => exact absurd hlimit (by simp only [Option.elim_none]; omega)
      | some l =>
        simp only [Option.elim_some] at hlimit
        have : l = 0 := by omega
        simp [takeLimit, this]
    rw [if_neg hzero]
    cases hlast : (left.take batchLimit).getLast? with
    | none =>
      refine ⟨[], .ok (), by simp, Covers.nothing ?_⟩
      have hnil : left = [] :=
        (List.take_eq_nil_iff.1 (List.getLast?_eq_none_iff.1 hlast)).resolve_left hzero
      cases remaining <;> simp [takeLimit, hnil]
    | some last =>
      simp only
      have hset := settleLastRun_settled ho hcount hcut _ hlast (batchLimit_full hlimit)
      generalize c.settleLastRun (left.take batchLimit) (c.key last) batchLimit
        (remaining.all fun limit => decide (batchLimit < limit)) = res at hset
      cases hset with
      | tooLong hrun => exact ⟨[], _, by simp, Covers.tooLong hrun⟩
      | ends hend =>
        have hne : left.take batchLimit ≠ [] := by
          intro hnil
          rw [hnil] at hlast
          cases hlast
        have hlen : (left.take batchLimit).length ≤ c.chunkSize := (List.length_take_le _ _).trans hsize
        obtain ⟨hall, hexit⟩ := take_ends hle hend
        refine ⟨[left.take batchLimit], c.callback delivered (left.take batchLimit), ?_,
          Covers.single rfl hne hlen (take_prefix_takeLimit hle) fun _ => hall⟩
        cases hcall : c.callback delivered (left.take batchLimit) with
        | error e => simp only [hcall]
        | ok => simp only [hcall, if_pos hexit]
      | cuts settled left' startsAtLastKey hleft hbatch hne hlen hcut' =>
        have htake : takeLimit remaining left = settled ++
            takeLimit (remaining.map fun limit => limit - settled.length) left' := by
          rw [hleft]
          exact takeLimit_append fun l hl => hlen.trans (hle l hl)
        have hpre : settled <+: takeLimit remaining left := by
          rw [htake]
          exact List.prefix_append _ _
        cases hcall : c.callback delivered settled with
        | error e =>
          simp only [hcall]
          exact ⟨[settled], .error e, rfl, Covers.single hcall hne (hlen.trans hsize) hpre (by simp)⟩
        | ok =>
          simp only [hcall, hbatch, lt_irrefl, or_false]
          by_cases hexit : (remaining.map fun limit => limit - settled.length) = some 0
          · rw [if_pos hexit]
            refine ⟨[settled], .ok (), rfl, Covers.single hcall hne (hlen.trans hsize) hpre fun _ => ?_⟩
            rw [htake, hexit]
            simp [takeLimit]
          · rw [if_neg hexit]
            have hfuel' : left'.length < fuel := by
              have hpos' := List.length_pos_of_ne_nil hne
              rw [hleft, List.length_append] at hfuel
              omega
            obtain ⟨batches, outcome, hloop, hcov⟩ := ih (delivered ++ [settled])
              (remaining.map fun limit => limit - settled.length) _ _ _ hcut' hfuel'
            refine ⟨settled :: batches, outcome, by simpa using hloop,
              Covers.cons hcall hne (hlen.trans hsize) htake ?_ hcov⟩
            intro x hx y hy heq
            have hbefore := hcut'.apart x (List.mem_append_right _ hx) y hy
            rw [heq] at hbefore
            exact Order.before_irrefl _ _ hbefore

end Loop

end ChunkCall

namespace ChunkQuery

theorem prepare_chunkSize {q : ChunkQuery} {chunkSize : ℕ} {order : Order}
    (h : q.prepare chunkSize = .ok order) : 0 < chunkSize := by
  rcases Nat.eq_zero_or_pos chunkSize with rfl | hpos
  · cases hexec : q.executable <;>
      simp [prepare, hexec, ensureQueryIsChunkable, bind, Except.bind] at h
  · exact hpos

/-- A chunked read of rows that do not change ends, and either hands out the first
`limit` rows in batches, or stops with an error after some of them. -/
theorem chunk_covers (q : ChunkQuery) (rows : Order → List Row) (key : Row → K)
    (displayKey : K → String) (chunkSize : ℕ)
    (callback : List (List Row) → List Row → Except Error Unit) (fuel : ℕ)
    (hsorted : ∀ order, (rows order).Pairwise fun a b => ¬ order.Before (key b) (key a))
    (hunique : q.hasJoins = false → ∀ order, (rows order).Pairwise fun a b => key a ≠ key b)
    (hcount : usizeMax ≤ chunkSize → ∀ order, (rows order).length ≤ usizeMax)
    (hfuel : ∀ order, (rows order).length < fuel) :
    ∃ batches outcome, q.chunk rows key displayKey chunkSize callback fuel = some (batches, outcome) ∧
      ((∃ e, q.prepare chunkSize = .error e ∧ batches = [] ∧ outcome = .error e) ∨
        ∃ order, q.prepare chunkSize = .ok order ∧
          ChunkCall.Covers ⟨rows order, key, displayKey, order, q.hasJoins, chunkSize, callback⟩
            [] q.limitValue (rows order) batches outcome) := by
  unfold chunk
  cases hprep : q.prepare chunkSize with
  | error e => exact ⟨[], .error e, rfl, Or.inl ⟨e, rfl, rfl, rfl⟩⟩
  | ok order =>
    simp only
    obtain ⟨c, hc⟩ : ∃ c : ChunkCall Row K,
        c = ⟨rows order, key, displayKey, order, q.hasJoins, chunkSize, callback⟩ := ⟨_, rfl⟩
    have hpos : 0 < c.chunkSize := by rw [hc]; exact prepare_chunkSize hprep
    have ho : c.Ordered := by rw [hc]; exact ⟨hsorted order, fun hj => hunique hj order⟩
    have hn : c.Countable := by rw [hc]; exact fun hmax => hcount hmax order
    have hlen : c.rows.length < fuel := by rw [hc]; exact hfuel order
    obtain ⟨batches, outcome, hloop, hcov⟩ :=
      ChunkCall.loop_covers hpos ho hn fuel [] q.limitValue none [] c.rows c.cut_start hlen
    subst hc
    exact ⟨batches, outcome, hloop, Or.inr ⟨order, rfl, hcov⟩⟩

/-- Users joined with their posts: user 1 has two rows. -/
def usersWithPosts : ChunkQuery where
  executable := .ok ()
  tableName := "users"
  primaryKeyNames := ["id"]
  ownColumnName := some
  keyIsOriginal := fun _ => true
  hasWindowFunctions := false
  hasGroupBy := false
  hasHaving := false
  hasUnions := false
  hasJoins := true
  orderBy := []
  limitValue := some 4
  offsetValue := none

def usersWithPostsRows : Order → List (ℕ × ℕ)
  | .asc => [(1, 10), (1, 11), (2, 20), (3, 30), (3, 31)]
  | .desc => [(3, 30), (3, 31), (2, 20), (1, 10), (1, 11)]

theorem chunk_covers_users :
    ∃ batches outcome, usersWithPosts.chunk usersWithPostsRows Prod.fst (fun _ => "") 2
        (fun _ _ => .ok ()) 6 = some (batches, outcome) ∧
      ((∃ e, usersWithPosts.prepare 2 = .error e ∧ batches = [] ∧ outcome = .error e) ∨
        ∃ order, usersWithPosts.prepare 2 = .ok order ∧
          ChunkCall.Covers ⟨usersWithPostsRows order, Prod.fst, fun _ => "", order, true, 2,
            fun _ _ => .ok ()⟩ [] (some 4) (usersWithPostsRows order) batches outcome) := by
  refine chunk_covers usersWithPosts usersWithPostsRows Prod.fst (fun _ => "") 2 (fun _ _ => .ok ()) 6
    ?_ (by simp [usersWithPosts]) (fun h => absurd h (by decide)) ?_
  · intro order
    cases order <;> simp [usersWithPostsRows, Order.Before]
  · intro order
    cases order <;> decide

-- the limit, not the batch size, cuts the run of user 3
example : usersWithPosts.chunk usersWithPostsRows Prod.fst (fun _ => "") 2 (fun _ _ => .ok ()) 6 =
    some ([[(1, 10), (1, 11)], [(2, 20), (3, 30)]], .ok ()) := by rfl

end ChunkQuery

end TideOrm
