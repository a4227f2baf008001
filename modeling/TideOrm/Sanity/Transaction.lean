import TideOrm.Spec.Transaction

/-! What one step of a connection can do to the open records, the undo steps pending in
them and the log. Whether a transaction may commit is decided by its flags; nothing
else here depends on them. -/

namespace TideOrm

open Lib

/-- An application of the first includes what the second invalidates. -/
def Invalidation.Covers : Invalidation → Invalidation → Prop
  | .all, _ => True
  | .table name, .table name' => toAsciiLowercase name = toAsciiLowercase name'
  | .database name, .database name' => name = name'
  | _, _ => False

theorem charToLower_idem (ch : Char) : ch.toLower.toLower = ch.toLower := by
  by_cases h : ch.val ≥ 'A'.val ∧ ch.val ≤ 'Z'.val
  · -- a lowercase letter is not an uppercase one
    have hval : ch.toLower.val = ch.val + ('a'.val - 'A'.val) := congrArg Char.val (dif_pos h)
    apply dif_neg
    rw [hval]
    rintro ⟨-, h2⟩
    obtain ⟨h1, h3⟩ := h
    simp only [ge_iff_le, UInt32.le_iff_toNat_le, UInt32.toNat_add] at h1 h2 h3
    have hA : 'A'.val.toNat = 65 := rfl
    have hZ : 'Z'.val.toNat = 90 := rfl
    have hshift : ('a'.val - 'A'.val).toNat = 32 := rfl
    omega
  · have hsame : ch.toLower = ch := dif_neg h
    rw [hsame, hsame]

theorem toAsciiLowercase_idem (s : String) : toAsciiLowercase (toAsciiLowercase s) = toAsciiLowercase s := by
  have hchar : Char.toLower ∘ Char.toLower = Char.toLower := funext charToLower_idem
  simp [toAsciiLowercase, hchar]

namespace PendingInvalidations

/-- The record's replay includes `inv`. -/
def Covers (r : PendingInvalidations) (inv : Invalidation) : Prop := ∃ noted ∈ r.replayed, noted.Covers inv

/-- The same transaction with the same undo steps, and no less to replay. -/
structure Keeps (r r' : PendingInvalidations) : Prop where
  tx : r'.tx = r.tx
  undo : r'.undo = r.undo
  covers : ∀ inv, r.Covers inv → r'.Covers inv

/-- No less is noted in the second record. -/
structure Within (r r' : PendingInvalidations) : Prop where
  undo : ∀ step ∈ r.undo, step ∈ r'.undo
  covers : ∀ inv, r.Covers inv → r'.Covers inv

theorem Keeps.refl (r : PendingInvalidations) : r.Keeps r := ⟨rfl, rfl, fun _ h => h⟩

theorem Keeps.trans {r r' r'' : PendingInvalidations} (h : r.Keeps r') (h' : r'.Keeps r'') : r.Keeps r'' :=
  ⟨h'.tx.trans h.tx, h'.undo.trans h.undo, fun inv hi => h'.covers inv (h.covers inv hi)⟩

/-- The same transaction with no less noted. -/
structure Grown (r r' : PendingInvalidations) : Prop extends r.Within r' where
  tx : r'.tx = r.tx

theorem Keeps.grown {r r' : PendingInvalidations} (h : r.Keeps r') : r.Grown r' :=
  ⟨⟨fun _ hs => h.undo ▸ hs, h.covers⟩, h.tx⟩

theorem Within.trans {r r' r'' : PendingInvalidations} (h : r.Within r') (h' : r'.Within r'') : r.Within r'' :=
  ⟨fun s hs => h'.undo s (h.undo s hs), fun inv hi => h'.covers inv (h.covers inv hi)⟩

theorem covers_iff (r : PendingInvalidations) (inv : Invalidation) : r.Covers inv ↔ r.all = true ∨
    match inv with
    | .table name => ∃ t ∈ r.tables, toAsciiLowercase t = toAsciiLowercase name
    | .database name => name ∈ r.databases
    | .all => False := by
  unfold Covers replayed
  cases hall : r.all with
  | true => simp [Invalidation.Covers]
  | false =>
    simp only [Bool.false_eq_true, if_false, false_or, List.mem_append, List.mem_map]
    cases inv with
    | table name =>
      constructor
      · rintro ⟨_, ⟨d, -, rfl⟩ | ⟨t, ht, rfl⟩, h⟩
        · exact h.elim
        · exact ⟨t, ht, h⟩
      · rintro ⟨t, ht, h⟩
        exact ⟨.table t, Or.inr ⟨t, ht, rfl⟩, h⟩
    | database name =>
      constructor
      · rintro ⟨_, ⟨d, hd, rfl⟩ | ⟨t, -, rfl⟩, h⟩
        · exact (show d = name from h) ▸ hd
        · exact h.elim
      · intro h
        exact ⟨.database name, Or.inl ⟨name, h, rfl⟩, rfl⟩
    | all =>
      refine iff_false_intro ?_
      rintro ⟨_, ⟨d, -, rfl⟩ | ⟨t, -, rfl⟩, h⟩
      · exact h
      · exact h

theorem keeps_note (r : PendingInvalidations) (inv : Invalidation) : r.Keeps (r.note inv) := by
  refine ⟨by cases inv <;> rfl, by cases inv <;> rfl, fun inv' h => ?_⟩
  rw [covers_iff] at h ⊢
  cases inv <;> cases inv' <;> simp only [note] at h ⊢ <;> grind

theorem note_covers (r : PendingInvalidations) (inv : Invalidation) : (r.note inv).Covers inv := by
  rw [covers_iff]
  cases inv with
  | table name => exact Or.inr ⟨toAsciiLowercase name, by simp [note], toAsciiLowercase_idem name⟩
  | database name => exact Or.inr (by simp [note])
  | all => exact Or.inl rfl

/-- A record that replays `noted` covers whatever that covers. -/
theorem covers_of_covers {r : PendingInvalidations} {noted inv : Invalidation} (h : noted.Covers inv)
    (hr : r.Covers noted) : r.Covers inv := by
  rw [covers_iff] at hr ⊢
  rcases hr with hall | hr
  · exact Or.inl hall
  · cases noted with
    | all => exact hr.elim
    | table name =>
      cases inv with
      | table name' =>
        obtain ⟨t, ht, heq⟩ := hr
        exact Or.inr ⟨t, ht, heq.trans h⟩
      | database _ | all => exact h.elim
    | database name =>
      cases inv with
      | database name' => exact Or.inr ((show name = name' from h) ▸ hr)
      | table _ | all => exact h.elim

theorem keeps_abort (r : PendingInvalidations) (reason : Abort) : r.Keeps (r.abort reason) :=
  ⟨rfl, rfl, fun _ h => h⟩

theorem keeps_deferOrDrop (r : PendingInvalidations) (savepoints : ℕ) (free : Bool) :
    r.Keeps (r.deferOrDrop savepoints free) := by
  unfold deferOrDrop
  split_ifs
  · exact Keeps.refl r
  · exact ⟨rfl, rfl, fun _ h => h⟩

theorem keeps_dropInto (r enclosing : PendingInvalidations) (free : Bool) :
    enclosing.Keeps (r.dropInto enclosing free) := by
  have hdropped : ∀ told : PendingInvalidations, enclosing.Keeps told →
      enclosing.Keeps (if r.deferred = 0 then told else told.deferOrDrop r.deferred free) := by
    intro told htold
    split_ifs
    · exact htold
    · exact htold.trans (keeps_deferOrDrop _ _ _)
  unfold dropInto
  dsimp only
  cases r.aborted with
  | none => exact hdropped enclosing (Keeps.refl enclosing)
  | some reason =>
    dsimp only
    by_cases hends : reason.endsTheConnectionTransaction = true
    · rw [if_pos hends]
      exact hdropped _ (keeps_abort enclosing reason)
    · rw [if_neg hends]
      exact hdropped enclosing (Keeps.refl enclosing)

theorem keeps_failStatement (r : PendingInvalidations) (deadlocked sqlite rolledBack : Bool) :
    r.Keeps (Connection.failStatement deadlocked sqlite rolledBack r) := by
  have hnote : r.Keeps (r.noteFailedStatement deadlocked) := by
    cases deadlocked <;> exact ⟨rfl, rfl, fun _ h => h⟩
  unfold Connection.failStatement
  dsimp only
  split_ifs
  · exact hnote.trans (keeps_abort _ _)
  · refine hnote.trans ((keeps_abort _ .sqliteRollback).trans ?_)
    unfold clearSqliteRollback
    split_ifs
    · exact ⟨rfl, rfl, fun _ h => h⟩
    · exact Keeps.refl _
  · exact hnote

end PendingInvalidations

namespace Connection

open PendingInvalidations

/-- The undo steps of the open transactions, those of the outermost first. -/
def pendingSteps (records : List PendingInvalidations) : List ℕ :=
  records.reverse.flatMap PendingInvalidations.undo

theorem pendingSteps_cons (r : PendingInvalidations) (rest : List PendingInvalidations) :
    pendingSteps (r :: rest) = pendingSteps rest ++ r.undo := by
  simp [pendingSteps]

theorem pendingSteps_append (inner outer : List PendingInvalidations) :
    pendingSteps (inner ++ outer) = pendingSteps outer ++ pendingSteps inner := by
  simp [pendingSteps]

theorem pendingSteps_keeps {records records' : List PendingInvalidations}
    (h : List.Forall₂ Keeps records records') : pendingSteps records' = pendingSteps records := by
  induction h with
  | nil => rfl
  | cons hr _ ih => rw [pendingSteps_cons, pendingSteps_cons, ih, hr.undo]

theorem keeps_refl (records : List PendingInvalidations) : List.Forall₂ Keeps records records :=
  List.forall₂_same.2 fun r _ => Keeps.refl r

theorem keeps_trans {a b c : List PendingInvalidations} (h : List.Forall₂ Keeps a b)
    (h' : List.Forall₂ Keeps b c) : List.Forall₂ Keeps a c := by
  induction h generalizing c with
  | nil => exact h'
  | cons hr _ ih =>
    cases h' with
    | cons hr' h' => exact .cons (hr.trans hr') (ih h')

theorem keeps_modify {note : PendingInvalidations → PendingInvalidations}
    (h : ∀ r : PendingInvalidations, r.Keeps (note r)) (records : List PendingInvalidations) (i : ℕ) :
    List.Forall₂ Keeps records (records.modify i note) := by
  induction records generalizing i with
  | nil =>
    rw [List.modify_nil]
    exact .nil
  | cons r rest ih =>
    cases i with
    | zero =>
      rw [List.modify_zero_cons]
      exact .cons (h r) (keeps_refl rest)
    | succ i =>
      rw [List.modify_succ_cons]
      exact .cons (Keeps.refl r) (ih i)

/-- A record at some place was one at that place before. -/
theorem keeps_getElem? {records records' : List PendingInvalidations} (h : List.Forall₂ Keeps records records') :
    ∀ {i : ℕ} {r' : PendingInvalidations}, r' ∈ records'[i]? → ∃ r ∈ records[i]?, r.Keeps r' := by
  induction h with
  | nil => simp
  | @cons r r' rest rest' hr _ ih =>
    intro i r0 hr0
    cases i with
    | zero =>
      obtain rfl : r' = r0 := by simpa using hr0
      exact ⟨r, rfl, hr⟩
    | succ i => exact ih hr0

variable (c : Connection)

/-- A note in a record that keeps its work. -/
theorem keeps_record {note : PendingInvalidations → PendingInvalidations}
    (h : ∀ r : PendingInvalidations, r.Keeps (note r)) (i : ℕ) :
    List.Forall₂ Keeps c.records (c.record i note).records := keeps_modify h c.records i

section

variable (i : ℕ) (note : PendingInvalidations → PendingInvalidations)

@[simp] theorem records_record : (c.record i note).records = c.records.modify i note := rfl

@[simp] theorem log_record : (c.record i note).log = c.log := rfl

@[simp] theorem cache_record : (c.record i note).cache = c.cache := rfl

@[simp] theorem nextTx_record : (c.record i note).nextTx = c.nextTx := rfl

@[simp] theorem nextStep_record : (c.record i note).nextStep = c.nextStep := rfl

end

/-- What invalidating again leaves: each invalidation is applied, and noted in the
`i`-th open record. -/
theorem foldl_invalidate (i : ℕ) (l : List Invalidation) : ∀ c : Connection,
    List.Forall₂ Keeps c.records (l.foldl (invalidate i) c).records ∧
    (∀ inv ∈ l, ∀ r ∈ (l.foldl (invalidate i) c).records[i]?, r.Covers inv) ∧
    (l.foldl (invalidate i) c).log = c.log ++ l.map .applied ∧
    (l.foldl (invalidate i) c).cache = l.foldl Invalidation.apply c.cache ∧
    (l.foldl (invalidate i) c).nextTx = c.nextTx ∧ (l.foldl (invalidate i) c).nextStep = c.nextStep := by
  induction l with
  | nil => intro c; exact ⟨keeps_refl _, by simp, by simp, rfl, rfl, rfl⟩
  | cons inv rest ih =>
    intro c
    obtain ⟨hkeeps, hcovers, hlog, hcache, htx, hstep⟩ := ih (c.invalidate i inv)
    have hnote : List.Forall₂ Keeps c.records (c.invalidate i inv).records :=
      keeps_record c (fun r => keeps_note r inv) i
    refine ⟨keeps_trans hnote hkeeps, ?_, ?_, hcache, htx, hstep⟩
    · intro noted hmem r hr
      rcases List.mem_cons.1 hmem with rfl | hmem
      · -- the record it was noted in has kept it since
        obtain ⟨r0, hr0, hr0r⟩ := keeps_getElem? hkeeps hr
        obtain ⟨r1, -, rfl⟩ : ∃ r1, c.records[i]? = some r1 ∧ r1.note noted = r0 := by
          simpa [invalidate] using hr0
        exact hr0r.covers noted (note_covers r1 noted)
      · exact hcovers noted hmem r hr
    · rw [List.foldl_cons, hlog]
      simp [invalidate]

/-- All that a step can do: change flags and note invalidations, open a transaction,
register an undo step, record an invalidation, commit the innermost transaction, or
drop it. -/
inductive Move (c c' : Connection) : Prop
  | quiet (invs : List Invalidation) (hkeeps : List.Forall₂ Keeps c.records c'.records)
      (hlog : c'.log = c.log ++ invs.map .applied)
      (htx : c'.nextTx = c.nextTx) (hstep : c'.nextStep = c.nextStep)
  | began (r : PendingInvalidations) (hrecords : c'.records = r :: c.records) (hr : r.tx = c.nextTx)
      (hundo : r.undo = []) (hlog : c'.log = c.log)
      (htx : c'.nextTx = c.nextTx + 1) (hstep : c'.nextStep = c.nextStep)
  | registered (inner : List PendingInvalidations) (r : PendingInvalidations) (outer : List PendingInvalidations)
      (hrecords : c.records = inner ++ r :: outer)
      (hrecords' : c'.records = inner ++ { r with undo := r.undo ++ [c.nextStep] } :: outer)
      (hlog : c'.log = c.log ++ [.registered c.nextStep (inner.map PendingInvalidations.tx)
        ((r :: outer).map PendingInvalidations.tx)])
      (htx : c'.nextTx = c.nextTx) (hstep : c'.nextStep = c.nextStep + 1)
  | recorded (i : ℕ) (inv : Invalidation) (hkeeps : List.Forall₂ Keeps c.records c'.records)
      (hcovers : ∀ r ∈ c'.records[i]?, r.Covers inv)
      (hlog : c'.log = c.log ++ [.recorded inv (c.openTxs.drop i), .applied inv])
      (htx : c'.nextTx = c.nextTx) (hstep : c'.nextStep = c.nextStep)
  | committed (r : PendingInvalidations) (rest : List PendingInvalidations) (hrecords : c.records = r :: rest)
      (hkeeps : List.Forall₂ Keeps (rest.modifyHead fun e => { e with undo := e.undo ++ r.undo }) c'.records)
      (hcovers : ∀ inv, r.Covers inv → ∀ e ∈ c'.records[0]?, e.Covers inv)
      (hlog : c'.log = c.log ++ .committed r.tx :: r.replayed.map .applied)
      (hcache : c'.cache = r.replayed.foldl Invalidation.apply c.cache)
      (htx : c'.nextTx = c.nextTx) (hstep : c'.nextStep = c.nextStep)
  | dropped (r : PendingInvalidations) (rest : List PendingInvalidations) (invs : List Invalidation)
      (hrecords : c.records = r :: rest) (hkeeps : List.Forall₂ Keeps rest c'.records)
      (hlog : c'.log = c.log ++ invs.map .applied ++ .dropped r.tx :: r.undo.reverse.map .ran)
      (htx : c'.nextTx = c.nextTx) (hstep : c'.nextStep = c.nextStep)

theorem move_record {note : PendingInvalidations → PendingInvalidations}
    (h : ∀ r : PendingInvalidations, r.Keeps (note r)) (i : ℕ) : Move c (c.record i note) :=
  .quiet [] (keeps_record c h i) (by simp) (by simp) (by simp)

/-- A record dropped after some steps of `rest` that keep its work. -/
theorem move_drop {c outer : Connection} {r : PendingInvalidations} {rest : List PendingInvalidations}
    (hrecords : c.records = r :: rest) (deferred : ℕ) (invs : List Invalidation) (hkeeps : List.Forall₂ Keeps rest outer.records)
    (hlog : outer.log = c.log ++ invs.map .applied) (htx : outer.nextTx = c.nextTx)
    (hstep : outer.nextStep = c.nextStep) (free : Bool) : Move c (outer.drop { r with deferred } free) := by
  refine .dropped r rest invs hrecords ?_ ?_ ?_ ?_
  · exact keeps_trans hkeeps (keeps_record outer (fun e => keeps_dropInto _ e free) 0)
  · simp [drop, hlog]
  · simp [drop, htx]
  · simp [drop, hstep]

theorem move_replay {c outer : Connection} {r : PendingInvalidations} {rest : List PendingInvalidations}
    (hrecords : c.records = r :: rest) (houter : outer = { c with records := rest }) :
    Move c (outer.replay { r with deferred := 0 }) := by
  subst houter
  unfold replay replayInvalidations
  obtain ⟨hkeeps, hcovers, hlog, hcache, htx, hstep⟩ := foldl_invalidate 0 r.replayed
    { record { c with records := rest } 0 fun enclosing => { enclosing with undo := enclosing.undo ++ r.undo } with
      log := c.log ++ [.committed r.tx] }
  refine .committed r rest hrecords ?_ ?_ ?_ ?_ ?_ ?_
  · rw [List.modifyHead_eq_modify_zero]
    exact hkeeps
  · intro inv hinv e he
    obtain ⟨noted, hnoted, hcover⟩ := hinv
    exact (covers_of_covers hcover) (hcovers noted hnoted e he)
  · rw [show ({ r with deferred := 0 } : PendingInvalidations).replayed = r.replayed from rfl, hlog]
    simp
  · exact hcache.trans (by simp)
  · exact htx.trans (by simp)
  · exact hstep.trans (by simp)

theorem move_end (ending : Ending) : Move c (c.endScope ending) := by
  cases hrecords : c.records with
  | nil =>
    have hsame : c.endScope ending = c := by simp [endScope, hrecords]
    rw [hsame]
    exact .quiet [] (keeps_refl _) (by simp) rfl rfl
  | cons r rest =>
    have hdrop : Move c (drop { c with records := rest } { r with deferred := 0 } true) := by
      apply move_drop hrecords 0 []
      · exact keeps_refl rest
      · simp
      · rfl
      · rfl
    obtain ⟨hkeeps, -, hlog, -, htx, hstep⟩ := foldl_invalidate 0 r.replayed { c with records := rest }
    cases ending with
    | success canCommit commits =>
      simp only [endScope, hrecords]
      split_ifs
      · exact hdrop
      · exact hdrop
      · exact move_replay hrecords rfl
      · exact move_drop hrecords 0 r.replayed hkeeps hlog htx hstep true
    | failure => simpa only [endScope, hrecords] using hdrop
    | cancelled free =>
      simp only [endScope, hrecords]
      exact move_drop hrecords r.deferred []
        (keeps_record { c with records := rest } (fun e => keeps_deferOrDrop e 1 free) 0)
        (by simp) (by simp) (by simp) free
    | cancelledEnding committing =>
      simp only [endScope, hrecords]
      split_ifs
      · exact move_drop hrecords 0 r.replayed
          (keeps_trans hkeeps (keeps_record _ (fun e => keeps_abort e .savepoint) 0))
          hlog htx hstep true
      · exact move_drop hrecords 0 []
          (keeps_record { c with records := rest } (fun e => keeps_abort e .savepoint) 0)
          (by simp) (by simp) (by simp) true

theorem move_step (op : TxOp) : Move c (c.step op) := by
  cases op with
  | beginScope =>
    simp only [step, beginScope]
    cases hrecords : c.records with
    | nil => exact .began (.new c.nextTx none) (by rw [hrecords]) rfl rfl rfl rfl rfl
    | cons r rest =>
      dsimp only
      split_ifs
      · exact .quiet [] (keeps_refl _) (by simp) rfl rfl
      · exact .began (.new c.nextTx (some r)) (by rw [hrecords]) rfl rfl rfl rfl rfl
  | beginFails => exact move_record c (fun r => keeps_abort r .savepoint) 0
  | undo i =>
    simp only [step]
    split_ifs with hi
    · obtain ⟨inner, r, outer, hrecords, rfl, hmodify⟩ :=
        List.exists_of_modify (fun r : PendingInvalidations => { r with undo := r.undo ++ [c.nextStep] }) hi
      refine .registered inner r outer hrecords hmodify ?_ rfl rfl
      simp [openTxs, hrecords]
    · exact .quiet [] (keeps_refl _) (by simp) rfl rfl
  | invalidate i inv =>
    obtain ⟨hkeeps, hcovers, hlog, -, htx, hstep⟩ := foldl_invalidate i [inv]
      { c with log := c.log ++ [.recorded inv (c.openTxs.drop i)] }
    exact .recorded i inv hkeeps (hcovers inv (by simp)) (hlog.trans (by simp)) htx hstep
  | failStatement i deadlocked sqlite rolledBack =>
    exact move_record c (fun r => keeps_failStatement r deadlocked sqlite rolledBack) i
  | endScope ending => exact move_end c ending
  | cache now op => exact .quiet [] (keeps_refl _) (by simp [step]) rfl rfl

end Connection

end TideOrm
