import Mathlib.Logic.Function.Basic
import Mathlib.Data.Nat.Notation

/-! Programs of steps on a shared state, each of them atomic, run alone or with others that may take steps in
between. -/

namespace Lib

inductive Program (σ α : Type) where
  | done (result : α)
  | step (next : σ → σ) (rest : σ → Program σ α)

namespace Program

variable {σ α β ε : Type}

protected def bind (p : Program σ α) (f : α → Program σ β) : Program σ β :=
  match p with
  | done a => f a
  | step next rest => .step next fun s => (rest s).bind f

instance : Monad (Program σ) where
  pure := done
  bind := Program.bind

/-- One step. -/
def atomically (f : σ → α × σ) : Program σ α := .step (fun s => (f s).2) fun s => .done (f s).1

/-- The program run alone. -/
def exec : Program σ α → σ → α × σ
  | done a, s => (a, s)
  | step next rest, s => (rest s).exec (next s)

theorem exec_bind (p : Program σ α) (f : α → Program σ β) (s : σ) : (p >>= f).exec s = (f (p.exec s).1).exec (p.exec s).2 := by
  induction p generalizing s with
  | done a => rfl
  | step next rest ih => exact ih s (next s)

/-- Every step of the program moves the state as `guarantee` allows. -/
def Guarantees (guarantee : σ → σ → Prop) : Program σ α → Prop
  | done _ => True
  | step next rest => ∀ s, guarantee s (next s) ∧ (rest s).Guarantees guarantee

variable {guarantee : σ → σ → Prop}

theorem guarantees_bind {p : Program σ α} {f : α → Program σ β} (hp : p.Guarantees guarantee)
    (hf : ∀ a, (f a).Guarantees guarantee) : (p >>= f).Guarantees guarantee := by
  induction p with
  | done a => exact hf a
  | step next rest ih => exact fun s => ⟨(hp s).1, ih s (hp s).2⟩

theorem guarantees_atomically {f : σ → α × σ} (h : ∀ s, guarantee s (f s).2) : (atomically f).Guarantees guarantee :=
  fun s => ⟨h s, trivial⟩

theorem Guarantees.mono {guarantee' : σ → σ → Prop} {p : Program σ α} (h : p.Guarantees guarantee)
    (hmono : ∀ s s', guarantee s s' → guarantee' s s') : p.Guarantees guarantee' := by
  induction p with
  | done a => trivial
  | step next rest ih => exact fun s => ⟨hmono s _ (h s).1, ih s (h s).2⟩

/-- What every step keeps holds after the program. -/
theorem exec_invariant {I : σ → Prop} {p : Program σ α} (h : p.Guarantees fun s s' => I s → I s') {s : σ} (hI : I s) :
    I (p.exec s).2 := by
  induction p generalizing s with
  | done a => exact hI
  | step next rest ih => exact ih s (h s).2 ((h s).1 hI)

end Program

/-- A program that may fail. -/
abbrev Call (ε σ α : Type) := ExceptT ε (Program σ) α

namespace Call

variable {σ α β ε : Type}

def atomically (f : σ → α × σ) : Call ε σ α := ExceptT.lift (Program.atomically f)

/-- One step that may fail. -/
def attempt (f : σ → Except ε α × σ) : Call ε σ α := ExceptT.mk (Program.atomically f)

/-- The call as one step, which leaves the state as it was if it fails. -/
def transaction (body : Call ε σ α) : Call ε σ α :=
  ExceptT.mk (Program.atomically fun s => match body.run.exec s with
    | (.ok a, s') => (.ok a, s')
    | (.error e, _) => (.error e, s))

def exec (x : Call ε σ α) (s : σ) : Except ε α × σ := x.run.exec s

theorem atomically_bind_assoc {γ δ : Type} (f : σ → α × σ) (g : α → Call ε σ γ) (k : γ → Call ε σ δ) :
    (atomically f >>= g) >>= k = atomically f >>= fun a => g a >>= k := rfl

theorem exec_pure (a : α) (s : σ) : exec (pure a : Call ε σ α) s = (.ok a, s) := rfl

theorem exec_throw (e : ε) (s : σ) : exec (throw e : Call ε σ α) s = (.error e, s) := rfl

theorem exec_atomically (f : σ → α × σ) (s : σ) : exec (atomically f : Call ε σ α) s = (.ok (f s).1, (f s).2) := rfl

theorem exec_attempt (f : σ → Except ε α × σ) (s : σ) : exec (attempt f) s = f s := rfl

theorem exec_tryCatch (x : Call ε σ α) (h : ε → Call ε σ α) (s : σ) : exec (tryCatch x h) s = match exec x s with
    | (.ok a, s') => (.ok a, s')
    | (.error e, s') => exec (h e) s' := by
  change Program.exec (Program.bind x.run _) s = _
  refine (Program.exec_bind x.run _ s).trans ?_
  rw [exec]
  rcases x.run.exec s with ⟨_ | _, s'⟩ <;> rfl

theorem exec_bind (x : Call ε σ α) (f : α → Call ε σ β) (s : σ) : exec (x >>= f) s = match exec x s with
    | (.ok a, s') => exec (f a) s'
    | (.error e, s') => (.error e, s') := by
  change Program.exec (x.run >>= ExceptT.bindCont f) s = _
  rw [Program.exec_bind, exec]
  rcases x.run.exec s with ⟨_ | _, s'⟩ <;> rfl

/-- A check made before the call's first step. -/
theorem liftExcept_bind_cases (x : Except ε α) (f : α → Call ε σ β) :
    (∃ e, x = .error e ∧ (liftExcept x >>= f : Call ε σ β) = throw e) ∨ ∃ a, x = .ok a ∧ (liftExcept x >>= f : Call ε σ β) = f a := by
  rcases x with e | a
  · exact Or.inl ⟨e, rfl, rfl⟩
  · exact Or.inr ⟨a, rfl, rfl⟩

theorem exec_forM_cons (b : β) (l : List β) (f : β → Call ε σ PUnit) (s : σ) : exec ((b :: l).forM f) s = match exec (f b) s with
    | (.ok _, s') => exec (l.forM f) s'
    | (.error e, s') => (.error e, s') := by
  have hcons : (b :: l).forM f = f b >>= fun _ => l.forM f := rfl
  rw [hcons, exec_bind]
  rcases (f b).exec s with ⟨_ | _, s'⟩ <;> rfl

theorem exec_forM_same {l : List β} {f : β → Call ε σ PUnit} {s : σ} (h : ∀ b ∈ l, exec (f b) s = (.ok (), s)) :
    exec (l.forM f) s = (.ok (), s) := by
  induction l with
  | nil => rfl
  | cons b l ih =>
    rw [List.forall_mem_cons] at h
    rw [exec_forM_cons, h.1]
    exact ih h.2

theorem exec_transaction (body : Call ε σ α) (s : σ) : exec (transaction body) s = match exec body s with
    | (.ok a, s') => (.ok a, s')
    | (.error e, _) => (.error e, s) := rfl

variable {guarantee : σ → σ → Prop}

theorem guarantees_bind {x : Call ε σ α} {f : α → Call ε σ β} (hx : x.run.Guarantees guarantee)
    (hf : ∀ a, (f a).run.Guarantees guarantee) : (x >>= f).run.Guarantees guarantee := by
  refine Program.guarantees_bind hx fun result => ?_
  cases result with
  | error e => trivial
  | ok a => exact hf a

theorem guarantees_atomically {f : σ → α × σ} (h : ∀ s, guarantee s (f s).2) :
    (atomically f : Call ε σ α).run.Guarantees guarantee :=
  Program.guarantees_bind (Program.guarantees_atomically h) fun _ => trivial

theorem guarantees_attempt {f : σ → Except ε α × σ} (h : ∀ s, guarantee s (f s).2) :
    (attempt f).run.Guarantees guarantee := Program.guarantees_atomically h

theorem guarantees_tryCatch {x : Call ε σ α} {h : ε → Call ε σ α} (hx : x.run.Guarantees guarantee)
    (hh : ∀ e, (h e).run.Guarantees guarantee) : (tryCatch x h).run.Guarantees guarantee := by
  refine Program.guarantees_bind hx fun result => ?_
  cases result with
  | error e => exact hh e
  | ok a => trivial

theorem guarantees_pure (a : α) : (pure a : Call ε σ α).run.Guarantees guarantee := trivial

theorem guarantees_throw (e : ε) : (throw e : Call ε σ α).run.Guarantees guarantee := trivial

theorem guarantees_liftExcept (x : Except ε α) : (liftExcept x : Call ε σ α).run.Guarantees guarantee := by
  rcases x with e | a
  · exact guarantees_throw e
  · exact guarantees_pure a

theorem guarantees_forM {l : List β} {f : β → Call ε σ PUnit} (h : ∀ b ∈ l, (f b).run.Guarantees guarantee) :
    (l.forM f).run.Guarantees guarantee := by
  induction l with
  | nil => trivial
  | cons b l ih =>
    rw [List.forall_mem_cons] at h
    exact guarantees_bind h.1 fun _ => ih h.2

/-- A transaction whose statements keep an invariant moves from where it holds to where it does. -/
theorem guarantees_transaction {I : σ → Prop} {body : Call ε σ α} (h : body.run.Guarantees fun s s' => I s → I s') :
    (transaction body).run.Guarantees fun s s' => I s → I s' := by
  refine Program.guarantees_atomically fun s hI => ?_
  have hexec := Program.exec_invariant h hI
  cases hbody : body.run.exec s with
  | mk result s' =>
    rw [hbody] at hexec
    cases result with
    | error e => exact hI
    | ok a => exact hexec

end Call

/-- Programs that share a state. -/
structure Threads (σ α : Type) where
  programs : ℕ → Program σ α
  state : σ

namespace Threads

variable {σ α : Type}

/-- One thread takes its next step, if it has any left. -/
def advance (t : Threads σ α) (i : ℕ) : Threads σ α :=
  match t.programs i with
  | .done _ => t
  | .step next rest => ⟨Function.update t.programs i (rest t.state), next t.state⟩

/-- The threads take steps in any order. -/
def schedule (t : Threads σ α) (moves : List ℕ) : Threads σ α := moves.foldl advance t

/-- Thread `i` goes on with `p`. -/
def start (t : Threads σ α) (i : ℕ) (p : Program σ α) : Threads σ α := ⟨Function.update t.programs i p, t.state⟩

theorem start_self (t : Threads σ α) (i : ℕ) (p : Program σ α) : (t.start i p).programs i = p := Function.update_self ..

theorem start_of_ne (t : Threads σ α) {i j : ℕ} (h : j ≠ i) (p : Program σ α) : (t.start i p).programs j = t.programs j :=
  Function.update_of_ne h ..

variable {guarantee : σ → σ → Prop} {t : Threads σ α}

theorem advance_guarantees (h : ∀ i, (t.programs i).Guarantees guarantee) (i : ℕ) :
    (∀ j, ((t.advance i).programs j).Guarantees guarantee) ∧
      ((t.advance i).state = t.state ∨ guarantee t.state (t.advance i).state) := by
  rw [advance]
  cases hp : t.programs i with
  | done a => exact ⟨h, Or.inl rfl⟩
  | step next rest =>
    have hi := h i
    rw [hp] at hi
    refine ⟨fun j => ?_, Or.inr (hi t.state).1⟩
    dsimp only
    by_cases hij : j = i
    · subst hij
      rw [Function.update_self]
      exact (hi t.state).2
    · rw [Function.update_of_ne hij]
      exact h j

theorem schedule_guarantees (h : ∀ i, (t.programs i).Guarantees guarantee) (moves : List ℕ) (j : ℕ) :
    ((t.schedule moves).programs j).Guarantees guarantee := by
  induction moves generalizing t with
  | nil => exact h j
  | cons i moves ih => exact ih (advance_guarantees h i).1

/-- What every allowed move keeps holds after any schedule. -/
theorem schedule_invariant {I : σ → Prop} (h : ∀ i, (t.programs i).Guarantees guarantee)
    (hkeep : ∀ s s', guarantee s s' → I s → I s') (hI : I t.state) (moves : List ℕ) : I (t.schedule moves).state := by
  induction moves generalizing t with
  | nil => exact hI
  | cons i moves ih =>
    obtain ⟨hadvance, hmove⟩ := advance_guarantees h i
    refine ih hadvance ?_
    rcases hmove with hsame | hmove
    · rwa [hsame]
    · exact hkeep _ _ hmove hI

end Threads

/-- What others may make of the state between two steps. -/
structure Rely (σ : Type) where
  moves : σ → σ → Prop
  refl : ∀ s, moves s s
  trans : ∀ {s s₁ s'}, moves s s₁ → moves s₁ s' → moves s s'

/-- Nobody else is there. -/
def Rely.alone (σ : Type) : Rely σ := ⟨Eq, fun _ => rfl, Eq.trans⟩

namespace Program

variable {σ α β : Type} {R : Rely σ} {p : Program σ α} {f : α → Program σ β} {s s₁ s' : σ} {a : α} {b : β}

/-- The program runs to its end, with moves of others before, between and after its steps. -/
inductive Runs (R : Rely σ) : Program σ α → σ → α → σ → Prop
  | done {a : α} {s s' : σ} : R.moves s s' → Runs R (.done a) s a s'
  | step {next : σ → σ} {rest : σ → Program σ α} {s s₁ s' : σ} {a : α} :
    R.moves s s₁ → Runs R (rest s₁) (next s₁) a s' → Runs R (.step next rest) s a s'

theorem Runs.prepend (hmove : R.moves s s₁) (h : Runs R p s₁ a s') : Runs R p s a s' := by
  cases h with
  | done hend => exact .done (R.trans hmove hend)
  | step hbefore hrest => exact .step (R.trans hmove hbefore) hrest

theorem Runs.mono {R' : Rely σ} (hmono : ∀ s s', R.moves s s' → R'.moves s s') (h : Runs R p s a s') : Runs R' p s a s' := by
  induction h with
  | done hend => exact .done (hmono _ _ hend)
  | step hbefore _ ih => exact .step (hmono _ _ hbefore) ih

/-- A program whose own steps are such moves makes one in all. -/
theorem Runs.moves (h : Runs R p s a s') (hp : p.Guarantees R.moves) : R.moves s s' := by
  induction h with
  | done hend => exact hend
  | step hbefore _ ih => exact R.trans hbefore (R.trans (hp _).1 (ih (hp _).2))

theorem runs_bind (h : Runs R (p >>= f) s b s') : ∃ a s₁, Runs R p s a s₁ ∧ Runs R (f a) s₁ b s' := by
  induction p generalizing s with
  | done a => exact ⟨a, s, .done (R.refl s), h⟩
  | step next rest ih =>
    cases h with
    | step hbefore hrest =>
      obtain ⟨a, s₂, hfirst, hthen⟩ := ih _ hrest
      exact ⟨a, s₂, .step hbefore hfirst, hthen⟩

theorem runs_exec (p : Program σ α) (s : σ) : Runs R p s (p.exec s).1 (p.exec s).2 := by
  induction p generalizing s with
  | done a => exact .done (R.refl s)
  | step next rest ih => exact .step (R.refl s) (ih s (next s))

end Program

namespace Call

open Program

variable {ε σ α β : Type} {R : Rely σ} {s s' : σ} {a : α} {b : β}

theorem runs_bind {x : Call ε σ α} {f : α → Call ε σ β} (h : Runs R (x >>= f).run s (.ok b) s') :
    ∃ a s₁, Runs R x.run s (.ok a) s₁ ∧ Runs R (f a).run s₁ (.ok b) s' := by
  obtain ⟨result, s₁, hfirst, hthen⟩ := Program.runs_bind h
  rcases result with e | a
  · cases hthen
  · exact ⟨a, s₁, hfirst, hthen⟩

theorem runs_attempt {f : σ → Except ε α × σ} {result : Except ε α} (h : Runs R (attempt f).run s result s') :
    ∃ s₁, R.moves s s₁ ∧ (f s₁).1 = result ∧ R.moves (f s₁).2 s' := by
  cases h with
  | step hbefore hrest =>
    cases hrest with
    | done hend => exact ⟨_, hbefore, rfl, hend⟩

theorem runs_pure {result : Except ε α} (h : Runs R (pure a : Call ε σ α).run s result s') : result = .ok a ∧ R.moves s s' := by
  cases h with
  | done hend => exact ⟨rfl, hend⟩

/-- What each turn of a loop brings about, and nothing undoes, holds at its end. -/
theorem runs_forM {l : List β} {f : β → Call ε σ PUnit} {I : σ → Prop} {P : β → σ → Prop} (hI : ∀ {s s'}, R.moves s s' → I s → I s')
    (hP : ∀ {b s s'}, R.moves s s' → P b s → P b s') (hf : ∀ b ∈ l, (f b).run.Guarantees R.moves)
    (h : ∀ b ∈ l, ∀ {s s'}, I s → Runs R (f b).run s (.ok ()) s' → P b s') (hs : I s) (hrun : Runs R (l.forM f).run s (.ok ()) s') :
    ∀ b ∈ l, P b s' := by
  induction l generalizing s with
  | nil => exact fun b hb => (List.not_mem_nil hb).elim
  | cons b l ih =>
    rw [List.forall_mem_cons] at hf h
    obtain ⟨_, s₁, hfirst, hthen⟩ := runs_bind (f := fun _ => l.forM f) hrun
    have hrest := ih hf.2 h.2 (hI (hfirst.moves hf.1) hs) hthen
    exact List.forall_mem_cons.2 ⟨hP (hthen.moves (guarantees_forM hf.2)) (h.1 hs hfirst), hrest⟩

end Call

namespace Threads

open Program

variable {σ α : Type} {t : Threads σ α} {R : Rely σ} {i : ℕ}

/-- What a thread has done by its end, when the others moved as `R` says. -/
theorem runs_of_schedule (hothers : ∀ j, j ≠ i → (t.programs j).Guarantees R.moves) (moves : List ℕ) {a : α}
    (hdone : (t.schedule moves).programs i = .done a) : Runs R (t.programs i) t.state a (t.schedule moves).state := by
  induction moves generalizing t with
  | nil =>
    rw [schedule, List.foldl_nil] at hdone ⊢
    rw [hdone]
    exact .done (R.refl _)
  | cons j moves ih =>
    have hrest : (∀ k, k ≠ i → ((t.advance j).programs k).Guarantees R.moves) →
        Runs R ((t.advance j).programs i) (t.advance j).state a ((t.advance j).schedule moves).state := fun h => ih h hdone
    change Runs R (t.programs i) t.state a ((t.advance j).schedule moves).state
    generalize ((t.advance j).schedule moves).state = final at hrest ⊢
    rw [advance] at hrest
    cases hp : t.programs j with
    | done b =>
      rw [hp] at hrest
      exact hrest hothers
    | step next rest =>
      rw [hp] at hrest
      dsimp only at hrest
      by_cases hji : j = i
      · subst hji
        rw [hp]
        refine .step (R.refl _) ?_
        rw [Function.update_self] at hrest
        refine hrest fun k hk => ?_
        rw [Function.update_of_ne hk]
        exact hothers k hk
      · have hj := hothers j hji
        rw [hp] at hj
        rw [Function.update_of_ne (Ne.symm hji)] at hrest
        refine (hrest fun k hk => ?_).prepend (hj t.state).1
        by_cases hkj : k = j
        · subst hkj
          rw [Function.update_self]
          exact (hj t.state).2
        · rw [Function.update_of_ne hkj]
          exact hothers k hk

end Threads

namespace Program

variable {σ α : Type} (env : σ → σ → Prop) (event : σ → Prop)

/-- As long as `event` has not come, what others do keeps `P`. -/
def Stable (P : σ → Prop) : Prop := ∀ s s', P s → ¬event s → env s s' → event s' ∨ P s'

/-- Started where `P` holds, the program passes a state with `event`, or its result has `post`, whatever moves of
`env` others make between its steps. -/
def Meets (post : α → Prop) : (σ → Prop) → Program σ α → Prop
  | P, done a => Stable env event P ∧ ∀ s, P s → ¬event s → post a
  | P, step next rest => Stable env event P ∧ ∀ s, P s → ¬event s → event (next s) ∨ ∃ P', P' (next s) ∧ (rest s).Meets post P'

variable {env event} {post : α → Prop} {P : σ → Prop} {p : Program σ α}

theorem stable_true : Stable env event fun _ => True := fun _ _ _ _ _ => Or.inr trivial

theorem Meets.stable (h : Meets env event post P p) : Stable env event P := by
  cases p with
  | done a => exact h.1
  | step next rest => exact h.1

/-- Less need hold where the program starts. -/
theorem Meets.imp {P' : σ → Prop} (h : Meets env event post P' p) (hstable : Stable env event P) (hP : ∀ s, P s → P' s) :
    Meets env event post P p := by
  cases p with
  | done a => exact ⟨hstable, fun s hs => h.2 s (hP s hs)⟩
  | step next rest => exact ⟨hstable, fun s hs => h.2 s (hP s hs)⟩

theorem Meets.map {β : Type} {post' : β → Prop} {g : α → β} (h : Meets env event post P p) (hg : ∀ a, post a → post' (g a)) :
    Meets env event post' P (p >>= fun a => done (g a)) := by
  induction p generalizing P with
  | done a => exact ⟨h.1, fun s hs hevent => hg a (h.2 s hs hevent)⟩
  | step next rest ih =>
    refine ⟨h.1, fun s hs hevent => (h.2 s hs hevent).imp id ?_⟩
    rintro ⟨P', hP', hrest⟩
    exact ⟨P', hP', ih s hrest⟩

end Program

namespace Call

open Program

variable {ε σ α β : Type} {env : σ → σ → Prop} {event : σ → Prop} {post : Except ε α → Prop} {P : σ → Prop}

theorem meets_atomically {f : σ → β × σ} {g : β → Call ε σ α} (hstable : Stable env event P)
    (h : ∀ s, P s → ¬event s → event (f s).2 ∨ ∃ P', P' (f s).2 ∧ Meets env event post P' (g (f s).1).run) :
    Meets env event post P (atomically f >>= g).run := ⟨hstable, h⟩

theorem meets_attempt {f : σ → Except ε β × σ} {g : β → Call ε σ α} (hstable : Stable env event P)
    (h : ∀ s, P s → ¬event s → event (f s).2 ∨ ∃ P', P' (f s).2 ∧ Meets env event post P' (ExceptT.bindCont g (f s).1)) :
    Meets env event post P (attempt f >>= g).run := ⟨hstable, h⟩

theorem meets_throw {e : ε} (hstable : Stable env event P) (h : post (.error e)) :
    Meets env event post P (throw e : Call ε σ α).run := ⟨hstable, fun _ _ _ => h⟩

theorem meets_map {x : Call ε σ β} {g : β → α} {post' : Except ε β → Prop} (h : Meets env event post' P x.run)
    (hg : ∀ result, post' result → post (result.map g)) : Meets env event post P (x >>= fun b => pure (g b)).run := by
  have hcont : (ExceptT.bindCont (fun b => pure (g b)) : Except ε β → Program σ (Except ε α)) = fun result => done (result.map g) := by
    funext result
    cases result <;> rfl
  change Meets env event post P (x.run >>= ExceptT.bindCont fun b => pure (g b))
  rw [hcont]
  exact h.map hg

end Call

namespace Threads

open Program

variable {σ α : Type} {t : Threads σ α} {env : σ → σ → Prop} {event : σ → Prop} {post : α → Prop} {P : σ → Prop} {i : ℕ}

/-- A thread that ends without `post` passed a state with `event` on its way. -/
theorem event_of_meets (hothers : ∀ j, j ≠ i → (t.programs j).Guarantees env) (hmeets : Meets env event post P (t.programs i))
    (hP : P t.state) (moves : List ℕ) {a : α} (hdone : (t.schedule moves).programs i = .done a) (hpost : ¬post a) :
    ∃ front, front <+: moves ∧ event (t.schedule front).state := by
  by_cases hevent : event t.state
  · exact ⟨[], List.nil_prefix, hevent⟩
  induction moves generalizing t P with
  | nil =>
    rw [schedule, List.foldl_nil] at hdone
    rw [hdone] at hmeets
    exact absurd (hmeets.2 t.state hP hevent) hpost
  | cons j moves ih =>
    -- what the first move leaves, or the event
    have hfirst : event (t.advance j).state ∨ (∀ k, k ≠ i → ((t.advance j).programs k).Guarantees env) ∧
        ∃ P', P' (t.advance j).state ∧ Meets env event post P' ((t.advance j).programs i) := by
      rw [advance]
      cases hp : t.programs j with
      | done b => exact Or.inr ⟨hothers, P, hP, hmeets⟩
      | step next rest =>
        by_cases hji : j = i
        · subst hji
          rw [hp] at hmeets
          rcases hmeets.2 t.state hP hevent with hnext | ⟨P', hP', hrest⟩
          · exact Or.inl hnext
          · refine Or.inr ⟨fun k hk => ?_, P', hP', ?_⟩
            · dsimp only
              rw [Function.update_of_ne hk]
              exact hothers k hk
            · dsimp only
              rwa [Function.update_self]
        · have hj := hothers j hji
          rw [hp] at hj
          rcases hmeets.stable t.state (next t.state) hP hevent (hj t.state).1 with hnext | hnext
          · exact Or.inl hnext
          · refine Or.inr ⟨fun k hk => ?_, P, hnext, ?_⟩
            · dsimp only
              by_cases hkj : k = j
              · subst hkj
                rw [Function.update_self]
                exact (hj t.state).2
              · rw [Function.update_of_ne hkj]
                exact hothers k hk
            · dsimp only
              rwa [Function.update_of_ne (Ne.symm hji)]
    by_cases hnext : event (t.advance j).state
    · exact ⟨[j], List.prefix_append [j] moves, hnext⟩
    · obtain ⟨hguarantees, P', hP', hrest⟩ := hfirst.resolve_left hnext
      obtain ⟨front, hfront, hreached⟩ := ih hguarantees hrest hP' hdone hnext
      exact ⟨j :: front, List.cons_prefix_cons.2 ⟨rfl, hfront⟩, hreached⟩

end Threads

end Lib
