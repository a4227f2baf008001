import TideOrm.Lib.HashMap

/-! Rows collected under keys, and lists cut into chunks. -/

namespace Lib

/-- The list in pieces of `n`, the last one shorter. -/
def chunks {α : Type} (n : ℕ) (l : List α) : List (List α) :=
  if n = 0 ∨ l = [] then [] else l.take n :: chunks n (l.drop n)
termination_by l.length
decreasing_by
  rename_i h
  have hpos := List.length_pos_iff.2 (not_or.1 h).2
  rw [List.length_drop]
  omega

section Chunks

variable {α : Type} {n : ℕ}

theorem chunks_nil (n : ℕ) : chunks n ([] : List α) = [] := by
  rw [chunks, if_pos (Or.inr rfl)]

theorem chunks_cons (hn : 0 < n) {l : List α} (hl : l ≠ []) : chunks n l = l.take n :: chunks n (l.drop n) := by
  rw [chunks, if_neg (not_or.2 ⟨by omega, hl⟩)]

/-- Induction over the pieces. -/
theorem chunks_induction (hn : 0 < n) {P : List α → Prop} (nil : P [])
    (cons : ∀ l, l ≠ [] → P (l.drop n) → P l) (l : List α) : P l := by
  induction hlen : l.length using Nat.strong_induction_on generalizing l with
  | h len ih =>
    rcases eq_or_ne l [] with rfl | hl
    · exact nil
    · have hpos := List.length_pos_iff.2 hl
      refine cons l hl (ih (l.drop n).length ?_ (l.drop n) rfl)
      rw [List.length_drop]
      omega

theorem flatten_chunks (hn : 0 < n) (l : List α) : (chunks n l).flatten = l := by
  induction l using chunks_induction hn with
  | nil => rw [chunks_nil, List.flatten_nil]
  | cons l hl ih => rw [chunks_cons hn hl, List.flatten_cons, ih, List.take_append_drop]

/-- A piece's elements are numbered on from where it starts. -/
theorem flatMap_chunks_zipIdx (hn : 0 < n) (l : List α) (start : ℕ) :
    ((chunks n l).zipIdx start).flatMap (fun (piece, batch) => piece.zipIdx (batch * n)) = l.zipIdx (start * n) := by
  induction l using chunks_induction hn generalizing start with
  | nil => rw [chunks_nil, List.zipIdx_nil, List.flatMap_nil, List.zipIdx_nil]
  | cons l hl ih =>
    rw [chunks_cons hn hl, List.zipIdx_cons, List.flatMap_cons, ih]
    conv_rhs => rw [← List.take_append_drop n l, List.zipIdx_append]
    rcases le_or_gt n l.length with hle | hlt
    · rw [List.length_take, min_eq_left hle, Nat.succ_mul]
    · rw [List.drop_eq_nil_of_le hlt.le, List.zipIdx_nil, List.zipIdx_nil]

theorem foldlM_flatMap {σ β ε : Type} (f : α → List β) (step : σ → β → Except ε σ) (l : List α) : ∀ s : σ,
    (l.flatMap f).foldlM step s = l.foldlM (fun s a => (f a).foldlM step s) s := by
  induction l with
  | nil => exact fun s => rfl
  | cons a rest ih =>
    intro s
    rw [List.flatMap_cons, List.foldlM_append, List.foldlM_cons]
    exact bind_congr fun s' => ih s'

end Chunks

end Lib

namespace AList

open Lib

variable {K V : Type} [DecidableEq K]

/-- Append a value to the list under its key. -/
def push (m : HashMap K (List V)) (k : K) (v : V) : HashMap K (List V) := m.insert k ((m.lookup k).getD [] ++ [v])

/-- What is collected under a key. -/
def group (m : HashMap K (List V)) (k : K) : List V := (m.lookup k).getD []

theorem group_push (m : HashMap K (List V)) (k k' : K) (v : V) :
    (m.push k v).group k' = m.group k' ++ if k' = k then [v] else [] := by
  rw [group, push, lookup_insert_cases]
  split_ifs with h
  · rw [h]
    rfl
  · rw [List.append_nil]
    rfl

/-- A value appended under distinct keys is appended under each of them. -/
theorem group_foldl_push (v : V) (keys : List K) : ∀ (m : HashMap K (List V)) (k : K), keys.Nodup →
    (keys.foldl (fun m key => m.push key v) m).group k = m.group k ++ if k ∈ keys then [v] else [] := by
  induction keys with
  | nil => intro m k _; simp
  | cons key rest ih =>
    intro m k hnodup
    obtain ⟨hnotin, hnodup⟩ := List.nodup_cons.1 hnodup
    rw [List.foldl_cons, ih _ _ hnodup, group_push, List.append_assoc]
    by_cases hk : k = key
    · subst hk
      simp [hnotin]
    · simp [hk]

/-- Values that join their keys one after another keep their order. -/
theorem group_foldl {step : HashMap K (List V) → V → HashMap K (List V)} {joins : K → V → Bool} (l : List V)
    (h : ∀ m, ∀ v ∈ l, ∀ k, (step m v).group k = m.group k ++ if joins k v then [v] else []) :
    ∀ (m : HashMap K (List V)) (k : K), (l.foldl step m).group k = m.group k ++ l.filter (joins k) := by
  induction l with
  | nil => intro m k; simp
  | cons v rest ih =>
    intro m k
    rw [List.foldl_cons, ih (fun m v' hv' => h m v' (List.mem_cons_of_mem v hv')), h m v List.mem_cons_self, List.filter_cons,
      List.append_assoc]
    split_ifs <;> rfl

end AList
