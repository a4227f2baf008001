import Mathlib.Data.List.Forall2
import Mathlib.Tactic.Common

/-! A list worked off in pieces that are cut from its front. -/

namespace Lib

/-- How the next piece is cut off. -/
structure Cutter (α : Type) where
  cut : List α → List α × List α
  cut_append : ∀ l, (cut l).1 ++ (cut l).2 = l

namespace Cutter

variable {α β E : Type} (c : Cutter α)

theorem length_rest_lt {l : List α} (h : (c.cut l).1 ≠ []) : (c.cut l).2.length < l.length := by
  have hlength := congrArg List.length (c.cut_append l)
  have hpos := List.length_pos_of_ne_nil h
  rw [List.length_append] at hlength
  omega

/-- The pieces in order, up to an empty one. -/
def pieces (l : List α) : List (List α) :=
  if _h : (c.cut l).1 = [] then [] else (c.cut l).1 :: pieces (c.cut l).2
termination_by l.length
decreasing_by exact c.length_rest_lt _h

/-- `step` on each piece, and on how many results there are before it; the results joined. -/
def run (step : ℕ → List α → Except E (List β)) (results : List β) (l : List α) : Except E (List β) :=
  if _h : (c.cut l).1 = [] then .ok results
  else
    match step results.length (c.cut l).1 with
    | .ok more => run step (results ++ more) (c.cut l).2
    | .error e => .error e
termination_by l.length
decreasing_by exact c.length_rest_lt _h

/-- Each piece with the number of elements before it. -/
def numbered (start : ℕ) : List (List α) → List (ℕ × List α)
  | [] => []
  | piece :: pieces => (start, piece) :: numbered (start + piece.length) pieces

theorem pieces_of_nil {l : List α} (h : (c.cut l).1 = []) : c.pieces l = [] := by
  rw [pieces, dif_pos h]

theorem pieces_of_ne {l : List α} (h : (c.cut l).1 ≠ []) : c.pieces l = (c.cut l).1 :: c.pieces (c.cut l).2 := by
  rw [pieces, dif_neg h]

variable {c}

/-- No element is lost where every piece but the last takes some. -/
theorem flatten_pieces (h : ∀ l ≠ [], (c.cut l).1 ≠ []) (l : List α) : (c.pieces l).flatten = l := by
  induction l using pieces.induct c with
  | case1 l hnil =>
    rw [pieces_of_nil c hnil]
    by_contra hne
    exact h l (Ne.symm hne) hnil
  | case2 l hne ih => rw [pieces_of_ne c hne, List.flatten_cons, ih, c.cut_append]

theorem forall_pieces {P : List α → Prop} (h : ∀ l, (c.cut l).1 ≠ [] → P (c.cut l).1) (l : List α) :
    ∀ piece ∈ c.pieces l, P piece := by
  induction l using pieces.induct c with
  | case1 l hnil =>
    rw [pieces_of_nil c hnil]
    exact fun piece hpiece => absurd hpiece List.not_mem_nil
  | case2 l hne ih =>
    rw [pieces_of_ne c hne, List.forall_mem_cons]
    exact ⟨h l hne, ih⟩

/-- A numbered piece is where its number says in the whole. -/
theorem numbered_at {start offset : ℕ} {pieces : List (List α)} {piece : List α} (h : (offset, piece) ∈ numbered start pieces) :
    ∃ front back, pieces.flatten = front ++ (piece ++ back) ∧ offset = start + front.length := by
  induction pieces generalizing start with
  | nil => cases h
  | cons first pieces ih =>
    rw [numbered, List.mem_cons, Prod.mk.injEq] at h
    rcases h with ⟨rfl, rfl⟩ | h
    · exact ⟨[], pieces.flatten, rfl, rfl⟩
    · obtain ⟨front, back, hflatten, hoffset⟩ := ih h
      refine ⟨first ++ front, back, ?_, ?_⟩
      · rw [List.flatten_cons, hflatten, List.append_assoc]
      · rw [hoffset, List.length_append, Nat.add_assoc]

/-- As many results as elements. -/
theorem length_results {R : ℕ × List α → List β → Prop} {start : ℕ} {pieces : List (List α)} {parts : List (List β)}
    (h : List.Forall₂ R (numbered start pieces) parts)
    (hlength : ∀ n ∈ numbered start pieces, ∀ part, R n part → part.length = n.2.length) :
    parts.flatten.length = pieces.flatten.length := by
  induction pieces generalizing start parts with
  | nil => cases h; rfl
  | cons first pieces ih =>
    cases h with
    | cons hfirst hrest =>
      have hpart := hlength _ (List.mem_cons_self ..) _ hfirst
      rw [List.flatten_cons, List.flatten_cons, List.length_append, List.length_append, hpart,
        ih hrest fun n hn => hlength n (List.mem_cons_of_mem _ hn)]

/-- A result and the element it is for, found in the part of one piece. -/
theorem results_at {R : ℕ × List α → List β → Prop} {start i : ℕ} {pieces : List (List α)} {parts : List (List β)}
    (h : List.Forall₂ R (numbered start pieces) parts) (hlength : ∀ n ∈ numbered start pieces, ∀ part, R n part → part.length = n.2.length)
    (hi : i < pieces.flatten.length) : ∃ offset piece part, (offset, piece) ∈ numbered start pieces ∧ R (offset, piece) part ∧
      offset ≤ start + i ∧ start + i < offset + piece.length ∧ pieces.flatten[i]? = piece[start + i - offset]? ∧
      parts.flatten[i]? = part[start + i - offset]? := by
  induction pieces generalizing start i parts with
  | nil => cases hi
  | cons first pieces ih =>
    cases h with
    | @cons _ part _ parts hfirst hrest =>
      have hpart : part.length = first.length := hlength _ (List.mem_cons_self ..) _ hfirst
      rw [List.flatten_cons, List.length_append] at hi
      rw [List.flatten_cons, List.flatten_cons]
      by_cases hlt : i < first.length
      · refine ⟨start, first, part, List.mem_cons_self .., hfirst, by omega, by omega, ?_, ?_⟩
        · rw [List.getElem?_append_left hlt, Nat.add_sub_cancel_left]
        · rw [List.getElem?_append_left (by omega), Nat.add_sub_cancel_left]
      · obtain ⟨offset, piece, found, hmem, hfound, hle, hlt', hpiece, hresult⟩ := @ih (start + first.length) (i - first.length) parts
          hrest (fun n hn => hlength n (List.mem_cons_of_mem _ hn)) (by omega)
        have hshift : start + first.length + (i - first.length) = start + i := by omega
        rw [hshift] at hle hlt' hpiece hresult
        refine ⟨offset, piece, found, List.mem_cons_of_mem _ hmem, hfound, hle, hlt', ?_, ?_⟩
        · rw [List.getElem?_append_right (by omega), hpiece]
        · rw [List.getElem?_append_right (by omega), hpart, hresult]

/-- Where each piece gives as many results as it has elements, the run is the steps one by one. -/
theorem run_ok_iff {step : ℕ → List α → Except E (List β)} (l : List α) (earlier results : List β)
    (hlength : ∀ offset piece, (offset, piece) ∈ numbered earlier.length (c.pieces l) →
      ∀ more, step offset piece = .ok more → more.length = piece.length) :
    c.run step earlier l = .ok results ↔ ∃ parts, List.Forall₂ (fun (n : ℕ × List α) part => step n.1 n.2 = .ok part)
      (numbered earlier.length (c.pieces l)) parts ∧ results = earlier ++ parts.flatten := by
  induction l using pieces.induct c generalizing earlier with
  | case1 l hnil =>
    rw [run, dif_pos hnil, pieces_of_nil c hnil, numbered]
    constructor
    · rintro ⟨⟩
      exact ⟨[], .nil, (List.append_nil _).symm⟩
    · rintro ⟨parts, hparts, rfl⟩
      cases hparts
      rw [List.flatten_nil, List.append_nil]
  | case2 l hne ih =>
    rw [run, dif_neg hne, pieces_of_ne c hne, numbered]
    rw [pieces_of_ne c hne, numbered] at hlength
    cases hstep : step earlier.length (c.cut l).1 with
    | error e =>
      constructor
      · rintro ⟨⟩
      · rintro ⟨parts, hparts, -⟩
        cases hparts with
        | cons hfirst _ => rw [hstep] at hfirst; cases hfirst
    | ok more =>
      have hmore := hlength _ _ (List.mem_cons_self ..) more hstep
      have hstart : (earlier ++ more).length = earlier.length + (c.cut l).1.length := by rw [List.length_append, hmore]
      have hrest := ih (earlier ++ more) (by
        rw [hstart]
        exact fun offset piece hmem => hlength offset piece (List.mem_cons_of_mem _ hmem))
      rw [hstart] at hrest
      refine hrest.trans ?_
      constructor
      · rintro ⟨parts, hparts, rfl⟩
        exact ⟨more :: parts, .cons hstep hparts, by rw [List.flatten_cons, List.append_assoc]⟩
      · rintro ⟨parts, hparts, rfl⟩
        cases hparts with
        | cons hfirst hparts =>
          rw [hstep, Except.ok.injEq] at hfirst
          subst hfirst
          exact ⟨_, hparts, by rw [List.flatten_cons, List.append_assoc]⟩

end Cutter

end Lib
