import Mathlib.Data.List.Sort
import Mathlib.Order.Basic

/-! A binary min-heap, seen as the ascending list its elements pop in. Only
`push`, `pop` and the loop that pops until a test holds are used of it, so this
is all that can be observed. The loop is what lazy deletion rests on: elements
that fail the test are stale and are thrown away. -/

namespace Lib

section

variable {α : Type}

/-- Pop until an element passes `current`, and return it with what is left. -/
def popUntilList (current : α → Bool) : List α → Option α × List α
  | [] => (none, [])
  | a :: rest => if current a then (some a, rest) else popUntilList current rest

theorem popUntilList_suffix (current : α → Bool) (l : List α) : (popUntilList current l).2 <:+ l := by
  induction l with
  | nil => exact List.suffix_refl _
  | cons a rest ih =>
    unfold popUntilList
    split_ifs
    · exact List.suffix_cons a rest
    · exact ih.trans (List.suffix_cons a rest)

theorem popUntilList_none {current : α → Bool} {l l' : List α}
    (h : popUntilList current l = (none, l')) : ∀ a ∈ l, current a = false := by
  induction l with
  | nil => simp
  | cons b rest ih =>
    unfold popUntilList at h
    split_ifs at h with hb
    · cases h
    · intro a ha
      rcases List.mem_cons.1 ha with rfl | ha
      · simpa using hb
      · exact ih h a ha

theorem popUntilList_some {current : α → Bool} {l l' : List α} {c : α}
    (h : popUntilList current l = (some c, l')) :
    ∃ stale, l = stale ++ c :: l' ∧ current c = true ∧ ∀ a ∈ stale, current a = false := by
  induction l with
  | nil => cases h
  | cons b rest ih =>
    unfold popUntilList at h
    split_ifs at h with hb
    · cases h
      exact ⟨[], rfl, hb, by simp⟩
    · obtain ⟨stale, hl, hc, hs⟩ := ih h
      refine ⟨b :: stale, by rw [hl]; rfl, hc, ?_⟩
      intro a ha
      rcases List.mem_cons.1 ha with rfl | ha
      · simpa using hb
      · exact hs a ha

end

structure MinHeap (α : Type) [LinearOrder α] where
  elems : List α
  sorted : elems.Pairwise (· ≤ ·)

namespace MinHeap

variable {α : Type} [LinearOrder α]

instance : Membership α (MinHeap α) := ⟨fun h a => a ∈ h.elems⟩

theorem mem_def {h : MinHeap α} {a : α} : a ∈ h ↔ a ∈ h.elems := Iff.rfl

def empty : MinHeap α := ⟨[], List.Pairwise.nil⟩

def len (h : MinHeap α) : ℕ := h.elems.length

def push (h : MinHeap α) (a : α) : MinHeap α :=
  ⟨h.elems.orderedInsert (· ≤ ·) a, h.sorted.orderedInsert a h.elems⟩

def ofList (l : List α) : MinHeap α := l.foldl push empty

def popUntil (h : MinHeap α) (current : α → Bool) : Option α × MinHeap α :=
  let popped := popUntilList current h.elems
  (popped.1, ⟨popped.2, h.sorted.sublist (popUntilList_suffix current h.elems).sublist⟩)

def pop (h : MinHeap α) : Option (α × MinHeap α) :=
  match h with
  | ⟨[], _⟩ => none
  | ⟨a :: rest, sorted⟩ => some (a, ⟨rest, sorted.of_cons⟩)

theorem pop_none {h : MinHeap α} (hp : h.pop = none) : ∀ a, ¬ a ∈ h := by
  match h with
  | ⟨[], _⟩ => exact fun _ => List.not_mem_nil
  | ⟨a :: rest, _⟩ => cases hp

/-- A pop takes the first of the elements. -/
theorem pop_some {h h' : MinHeap α} {a : α} (hp : h.pop = some (a, h')) :
    h.elems = a :: h'.elems ∧ ∀ b ∈ h, a ≤ b := by
  match h with
  | ⟨[], _⟩ => cases hp
  | ⟨b :: rest, sorted⟩ =>
    cases hp
    refine ⟨rfl, fun c hc => ?_⟩
    rcases List.mem_cons.1 hc with rfl | hc
    · exact le_rfl
    · exact List.rel_of_pairwise_cons sorted hc

@[simp] theorem mem_push {h : MinHeap α} {a b : α} : a ∈ h.push b ↔ a = b ∨ a ∈ h :=
  List.mem_orderedInsert (· ≤ ·)

@[simp] theorem not_mem_empty {a : α} : ¬ a ∈ (empty : MinHeap α) := List.not_mem_nil

theorem mem_foldl_push (l : List α) (h : MinHeap α) (a : α) :
    a ∈ l.foldl push h ↔ a ∈ l ∨ a ∈ h := by
  induction l generalizing h with
  | nil => simp
  | cons b rest ih =>
    rw [List.foldl_cons, ih, mem_push, List.mem_cons]
    tauto

theorem mem_ofList {l : List α} {a : α} : a ∈ ofList l ↔ a ∈ l := by
  rw [ofList, mem_foldl_push]
  simp

theorem nodup_push {h : MinHeap α} {a : α} (hn : h.elems.Nodup) (ha : ¬ a ∈ h) : (h.push a).elems.Nodup :=
  (List.perm_orderedInsert (· ≤ ·) a h.elems).nodup_iff.2 (List.nodup_cons.2 ⟨ha, hn⟩)

theorem nodup_foldl_push (l : List α) (h : MinHeap α) (hl : l.Nodup) (hn : h.elems.Nodup)
    (hd : ∀ a ∈ l, ¬ a ∈ h) : (l.foldl push h).elems.Nodup := by
  induction l generalizing h with
  | nil => exact hn
  | cons a rest ih =>
    obtain ⟨hfresh, hrest⟩ := List.nodup_cons.1 hl
    apply ih (h.push a) hrest (nodup_push hn (hd a List.mem_cons_self))
    intro b hb hmem
    rcases mem_push.1 hmem with rfl | hmem
    · exact hfresh hb
    · exact hd b (List.mem_cons_of_mem _ hb) hmem

theorem nodup_ofList {l : List α} (hl : l.Nodup) : (ofList l).elems.Nodup :=
  nodup_foldl_push l empty hl List.nodup_nil fun _ _ => not_mem_empty

theorem popUntil_none {h h' : MinHeap α} {current : α → Bool}
    (hp : h.popUntil current = (none, h')) : ∀ a ∈ h, current a = false := by
  have h1 : (popUntilList current h.elems).1 = none := congrArg Prod.fst hp
  exact popUntilList_none (Prod.ext h1 rfl)

/-- What a successful pop says: the element passes the test, is the least of
those that do, and only it and stale elements left the heap. -/
theorem popUntil_some {h h' : MinHeap α} {current : α → Bool} {c : α}
    (hp : h.popUntil current = (some c, h')) :
    c ∈ h ∧ current c = true ∧ (∀ a ∈ h, current a = true → c ≤ a) ∧
      (∀ a ∈ h, current a = true → a = c ∨ a ∈ h') ∧ ∀ a ∈ h', a ∈ h := by
  have h1 : (popUntilList current h.elems).1 = some c := congrArg Prod.fst hp
  have h2 : (popUntilList current h.elems).2 = h'.elems :=
    congrArg (fun r : Option α × MinHeap α => r.2.elems) hp
  obtain ⟨stale, hl, hc, hs⟩ := popUntilList_some (Prod.ext h1 h2)
  have hsort := h.sorted
  rw [hl, List.pairwise_append] at hsort
  have hlive : ∀ a ∈ h, current a = true → a = c ∨ a ∈ h' := by
    intro a ha hcur
    rw [mem_def, hl, List.mem_append, List.mem_cons] at ha
    rcases ha with ha | ha | ha
    · rw [hs a ha] at hcur; cases hcur
    · exact Or.inl ha
    · exact Or.inr ha
  refine ⟨by rw [mem_def, hl]; simp, hc, ?_, hlive, ?_⟩
  · intro a ha hcur
    rcases hlive a ha hcur with rfl | ha'
    · exact le_rfl
    · exact List.rel_of_pairwise_cons hsort.2.1 ha'
  · intro a ha
    rw [mem_def, hl]
    exact List.mem_append_right _ (List.mem_cons_of_mem _ ha)

end MinHeap

end Lib
