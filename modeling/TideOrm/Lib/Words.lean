import Mathlib.Data.List.Basic
import Mathlib.Data.List.Infix

/-! The pieces that separators cut a list into, and the lists that separators join. -/

namespace Lib

section

variable {α β : Type} {p : α → Bool}

/-- A list has no separator, or a first one. -/
theorem cut_induction {motive : List α → Prop} (single : ∀ text, (∀ a ∈ text, p a = false) → motive text)
    (cut : ∀ front a rest, (∀ b ∈ front, p b = false) → p a = true → motive rest → motive (front ++ a :: rest))
    (text : List α) : motive text := by
  have hfrom : ∀ front, (∀ b ∈ front, p b = false) → motive (front ++ text) := by
    induction text with
    | nil =>
      intro front hfront
      rw [List.append_nil]
      exact single front hfront
    | cons a rest ih =>
      intro front hfront
      cases ha : p a with
      | true => exact cut front a rest hfront ha (ih [] fun _ hb => (List.not_mem_nil hb).elim)
      | false =>
        rw [← List.singleton_append, ← List.append_assoc]
        exact ih _ (List.forall_mem_append.2 ⟨hfront, List.forall_mem_singleton.2 ha⟩)
  exact hfrom [] fun _ hb => (List.not_mem_nil hb).elim

theorem mem_splitOnP {text piece : List α} (h : piece ∈ text.splitOnP p) : piece <:+: text ∧ ∀ a ∈ piece, p a = false := by
  induction text using cut_induction (p := p) with
  | single text hall =>
    rw [List.splitOnP_eq_singleton hall, List.mem_singleton] at h
    subst h
    exact ⟨List.infix_refl _, hall⟩
  | cut front a rest hfront ha ih =>
    rw [List.splitOnP_append_cons_of_forall_mem hfront a ha, List.mem_cons] at h
    rcases h with rfl | h
    · exact ⟨(List.prefix_append _ _).isInfix, hfront⟩
    · obtain ⟨hwithin, hpiece⟩ := ih h
      exact ⟨hwithin.trans ((List.suffix_cons a rest).trans (List.suffix_append _ _)).isInfix, hpiece⟩

theorem splitOnP_congr {q : α → Bool} {text : List α} (h : ∀ a ∈ text, p a = q a) : text.splitOnP p = text.splitOnP q := by
  induction text with
  | nil => rfl
  | cons a text ih =>
    rw [List.splitOnP_cons_eq_if_modifyHead, List.splitOnP_cons_eq_if_modifyHead, h a List.mem_cons_self,
      ih fun b hb => h b (List.mem_cons_of_mem _ hb)]

theorem splitOnP_map (f : β → α) (text : List β) : (text.map f).splitOnP p = (text.splitOnP fun b => p (f b)).map (List.map f) := by
  induction text with
  | nil => rfl
  | cons b text ih =>
    rw [List.map_cons, List.splitOnP_cons_eq_if_modifyHead, List.splitOnP_cons_eq_if_modifyHead, ih]
    split_ifs
    · rfl
    · cases text.splitOnP fun b => p (f b) <;> rfl

/-- A front without separators goes to the first piece. -/
theorem splitOnP_append {front : List α} (h : ∀ a ∈ front, p a = false) (text : List α) :
    (front ++ text).splitOnP p = (text.splitOnP p).modifyHead (front ++ ·) := by
  induction front with
  | nil =>
    rw [List.nil_append]
    cases text.splitOnP p <;> rfl
  | cons a front ih =>
    rw [List.forall_mem_cons] at h
    rw [List.cons_append, List.splitOnP_cons_eq_if_modifyHead, if_neg (Bool.eq_false_iff.1 h.1), ih h.2]
    cases text.splitOnP p <;> rfl

/-- A text written item by item is cut where its items are. -/
theorem splitOnP_flatten {R : β → List α → Prop} {q : β → Bool} (hsep : ∀ b read, R b read → q b = true → ∃ a, read = [a] ∧ p a = true)
    (hplain : ∀ b read, R b read → q b = false → ∀ a ∈ read, p a = false) {items : List β} {reads : List (List α)}
    (h : List.Forall₂ R items reads) :
    List.Forall₂ (fun piece text => ∃ reads, List.Forall₂ R piece reads ∧ text = reads.flatten) (items.splitOnP q) (reads.flatten.splitOnP p) := by
  induction h with
  | nil => exact .cons ⟨[], .nil, rfl⟩ .nil
  | @cons b read items reads hread _ ih =>
    rw [List.splitOnP_cons_eq_if_modifyHead, List.flatten_cons]
    split_ifs with hb
    · obtain ⟨a, rfl, ha⟩ := hsep b read hread hb
      rw [List.singleton_append, List.splitOnP_cons_eq_if_modifyHead, if_pos ha]
      exact .cons ⟨[], .nil, rfl⟩ ih
    · rw [splitOnP_append (hplain b read hread (Bool.eq_false_iff.2 hb))]
      generalize items.splitOnP q = pieces at ih ⊢
      generalize reads.flatten.splitOnP p = texts at ih ⊢
      cases ih with
      | nil => exact .nil
      | cons hhead htail =>
        obtain ⟨reads', hreads, rfl⟩ := hhead
        exact .cons ⟨read :: reads', .cons hread hreads, rfl⟩ htail

/-- Words without separators are what the joined text is cut into. -/
theorem splitOnP_intercalate {sep : α} (hsep : p sep = true) {words : List (List α)} (hne : words ≠ [])
    (h : ∀ word ∈ words, ∀ a ∈ word, p a = false) : ([sep].intercalate words).splitOnP p = words := by
  induction words with
  | nil => exact absurd rfl hne
  | cons word words ih =>
    have hword := h word List.mem_cons_self
    cases words with
    | nil => rw [List.intercalate_singleton, List.splitOnP_eq_singleton hword]
    | cons other words =>
      rw [List.intercalate_cons_cons, List.append_assoc, List.singleton_append,
        List.splitOnP_append_cons_of_forall_mem hword sep hsep, ih (List.cons_ne_nil _ _) fun word hmem => h word (List.mem_cons_of_mem _ hmem)]

/-- What holds of texts and is kept by joining two holds of the joined texts. -/
theorem intercalate_induction {motive : List α → Prop} {sep : List α} (hjoin : ∀ left right, motive left → motive right →
    motive (left ++ sep ++ right)) {texts : List (List α)} (hne : texts ≠ []) (h : ∀ text ∈ texts, motive text) :
    motive (sep.intercalate texts) := by
  induction texts with
  | nil => exact absurd rfl hne
  | cons text texts ih =>
    have htext := h text List.mem_cons_self
    cases texts with
    | nil => rwa [List.intercalate_singleton]
    | cons other texts =>
      rw [List.intercalate_cons_cons]
      exact hjoin _ _ htext (ih (List.cons_ne_nil _ _) fun text hmem => h text (List.mem_cons_of_mem _ hmem))

/-- What keeps appending keeps joining. -/
theorem hom_intercalate {f : List α → List β} (hnil : f [] = []) (happend : ∀ left right, f (left ++ right) = f left ++ f right)
    (sep : List α) (texts : List (List α)) : f (sep.intercalate texts) = (f sep).intercalate (texts.map f) := by
  induction texts with
  | nil => exact hnil
  | cons text texts ih =>
    cases texts with
    | nil => rw [List.intercalate_singleton, List.map_singleton, List.intercalate_singleton]
    | cons other texts =>
      rw [List.intercalate_cons_cons, happend, happend, ih]
      exact List.intercalate_cons_cons.symm

theorem intercalate_nil_left (texts : List (List α)) : [].intercalate texts = texts.flatten := by
  induction texts with
  | nil => rfl
  | cons text texts ih =>
    cases texts with
    | nil => rw [List.intercalate_singleton, List.flatten_singleton]
    | cons other texts =>
      rw [List.intercalate_cons_cons, List.append_nil, ih]
      rfl

theorem intercalate_append (sep : List α) {front : List (List α)} (hne : front ≠ []) (text : List α) (back : List (List α)) :
    sep.intercalate (front ++ text :: back) = sep.intercalate front ++ sep ++ sep.intercalate (text :: back) := by
  induction front with
  | nil => exact absurd rfl hne
  | cons first front ih =>
    cases front with
    | nil => rw [List.singleton_append, List.intercalate_cons_cons, List.intercalate_singleton]
    | cons second front =>
      rw [List.cons_append, List.cons_append, List.intercalate_cons_cons, List.intercalate_cons_cons, ← List.cons_append,
        ih (List.cons_ne_nil _ _)]
      simp only [List.append_assoc]

end

end Lib
