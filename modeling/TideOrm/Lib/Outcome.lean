import Mathlib.Data.Nat.Notation

/-! Commands on a state that may fail, and what holds after one: the state that a failed
command leaves is kept. -/

namespace Lib

/-- A command on a state. -/
abbrev Command (ε σ α : Type) := ExceptT ε (StateM σ) α

namespace Command

variable {ε σ α β : Type}

theorem bind_apply (x : Command ε σ α) (f : α → Command ε σ β) (s : σ) :
    (x >>= f) s = match x s with
      | (.ok a, s') => f a s'
      | (.error e, s') => (.error e, s') := by
  change (match x s with | (r, s') => ExceptT.bindCont f r s') = _
  rcases x s with ⟨_ | _, s'⟩ <;> rfl

/-- From `s` the command leaves a result and a state with `ok`, or fails in a state with `err`. -/
def Ensures (x : Command ε σ α) (s : σ) (ok : α → σ → Prop) (err : σ → Prop) : Prop :=
  match x s with
  | (.ok a, s') => ok a s'
  | (.error _, s') => err s'

variable {x : Command ε σ α} {s : σ} {ok : α → σ → Prop} {err : σ → Prop}

theorem ensures_pure {a : α} (h : ok a s) : Ensures (pure a : Command ε σ α) s ok err := h

theorem ensures_throw {e : ε} (h : err s) : Ensures (throw e : Command ε σ α) s ok err := h

theorem ensures_get {ok : σ → σ → Prop} (h : ok s s) : Ensures (get : Command ε σ σ) s ok err := h

theorem ensures_set {s' : σ} {ok : PUnit → σ → Prop} (h : ok ⟨⟩ s') : Ensures (set s' : Command ε σ PUnit) s ok err := h

theorem Ensures.bind {f : α → Command ε σ β} {ok' : β → σ → Prop}
    (h : Ensures x s (fun a s' => Ensures (f a) s' ok' err) err) : Ensures (x >>= f) s ok' err := by
  unfold Ensures at *
  rw [bind_apply]
  rcases hx : x s with ⟨e | a, s'⟩
  · rw [hx] at h
    exact h
  · rw [hx] at h
    exact h

theorem Ensures.mono {ok' : α → σ → Prop} {err' : σ → Prop} (h : Ensures x s ok err) (hok : ∀ a s', ok a s' → ok' a s')
    (herr : ∀ s', err s' → err' s') : Ensures x s ok' err' := by
  unfold Ensures at *
  rcases hx : x s with ⟨e | a, s'⟩
  · rw [hx] at h
    exact herr s' h
  · rw [hx] at h
    exact hok a s' h

/-- What holds of the state after a command, whether it failed or not. -/
theorem Ensures.state {P : σ → Prop} (h : Ensures x s (fun _ => P) P) : P (x s).2 := by
  unfold Ensures at h
  rcases hx : x s with ⟨e | a, s'⟩
  · rw [hx] at h
    exact h
  · rw [hx] at h
    exact h

theorem Ensures.of_ok {a : α} (h : Ensures x s ok err) (ha : (x s).1 = .ok a) : ok a (x s).2 := by
  unfold Ensures at h
  rcases hx : x s with ⟨e | b, s'⟩
  · rw [hx] at ha
    cases ha
  · rw [hx] at h ha
    obtain rfl := Except.ok.inj ha
    exact h

end Command

end Lib
