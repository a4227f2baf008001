import TideOrm.Spec.Executor

/-! An abort stays: the record it is noted in lets nothing through until it is dropped,
and then the record around it does not either. -/

namespace TideOrm

section Marks

variable {r : PendingInvalidations} {m : Abort}

theorem aborted_abort (h : r.aborted = some m) (reason : Abort) : (r.abort reason).aborted = some m := by
  simp [PendingInvalidations.abort, h]

theorem abort_aborted (r : PendingInvalidations) (reason : Abort) : (r.abort reason).aborted.isSome = true := by
  cases h : r.aborted <;> simp [PendingInvalidations.abort, h]

theorem aborted_deferOrDrop (h : r.aborted = some m) (savepoints : ℕ) (free : Bool) :
    (r.deferOrDrop savepoints free).aborted = some m := by
  unfold PendingInvalidations.deferOrDrop
  split_ifs
  · exact h
  · exact aborted_abort h .cancelled

theorem aborted_noteFailedStatement (h : r.aborted = some m) (deadlocked : Bool) :
    (r.noteFailedStatement deadlocked).aborted = some m := by
  cases deadlocked with
  | false => exact h
  | true => exact aborted_abort (r := { r with statementFailed := true }) h .deadlock

theorem aborted_dropInto (inner : PendingInvalidations) (h : r.aborted = some m) (free : Bool) :
    (inner.dropInto r free).aborted = some m := by
  have hdropped : ∀ told : PendingInvalidations, told.aborted = some m →
      (if inner.deferred = 0 then told else told.deferOrDrop inner.deferred free).aborted = some m := by
    intro told htold
    split_ifs
    · exact htold
    · exact aborted_deferOrDrop htold _ _
  unfold PendingInvalidations.dropInto
  dsimp only
  cases inner.aborted with
  | none => exact hdropped r h
  | some reason =>
    dsimp only
    by_cases hends : reason.endsTheConnectionTransaction = true
    · rw [if_pos hends]
      exact hdropped _ (aborted_abort h reason)
    · rw [if_neg hends]
      exact hdropped r h

/-- A record dropped with an abort that ends the connection's transaction marks the
one around it. -/
theorem dropInto_aborted {inner : PendingInvalidations} (h : inner.aborted = some m)
    (hends : m.endsTheConnectionTransaction = true) (free : Bool) :
    (inner.dropInto r free).aborted.isSome = true := by
  obtain ⟨m', hm'⟩ := Option.isSome_iff_exists.1 (abort_aborted r m)
  unfold PendingInvalidations.dropInto
  simp only [h, hends, if_true]
  split_ifs
  · exact Option.isSome_iff_exists.2 ⟨m', hm'⟩
  · exact Option.isSome_iff_exists.2 ⟨m', aborted_deferOrDrop hm' _ _⟩

theorem ends_of_ne (h : m ≠ .cancelled) : m.endsTheConnectionTransaction = true := by
  cases m
  case cancelled => exact absurd rfl h
  all_goals rfl

end Marks

namespace Session

variable {s s' : Session}

/-- Every record lives on with its abort. -/
structure Soft (s s' : Session) : Prop where
  next : s'.next = s.next
  dead : ∀ tx, s.records tx = none → s'.records tx = none
  alive : ∀ tx live, s.records tx = some live → ∃ live', s'.records tx = some live' ∧
    live'.enclosing = live.enclosing ∧ ∀ m, live.record.aborted = some m → live'.record.aborted = some m

theorem Soft.refl (s : Session) : Soft s s :=
  ⟨rfl, fun _ h => h, fun _ live h => ⟨live, h, rfl, fun _ hm => hm⟩⟩

theorem Soft.trans {s'' : Session} (h : Soft s s') (h' : Soft s' s'') : Soft s s'' := by
  refine ⟨h'.next.trans h.next, fun tx hdead => h'.dead tx (h.dead tx hdead), fun tx live hlive => ?_⟩
  obtain ⟨live', hlive', henclosing, hmark⟩ := h.alive tx live hlive
  obtain ⟨live'', hlive'', henclosing', hmark'⟩ := h'.alive tx live' hlive'
  exact ⟨live'', hlive'', henclosing'.trans henclosing, fun m hm => hmark' m (hmark m hm)⟩

theorem Soft.setGate (h : Soft s s') (gate : ℕ) (held : Option Held) : Soft s (s'.setGate gate held) :=
  ⟨h.next, h.dead, h.alive⟩

theorem Soft.emit (h : Soft s s') (event : SessionEvent) : Soft s (s'.emit event) := ⟨h.next, h.dead, h.alive⟩

theorem soft_modify (s : Session) (tx : ℕ) {f : LiveRecord → LiveRecord}
    (henclosing : ∀ live, (f live).enclosing = live.enclosing)
    (hmark : ∀ live m, live.record.aborted = some m → (f live).record.aborted = some m) :
    Soft s (s.modify tx f) := by
  refine ⟨rfl, fun t hdead => ?_, fun t live hlive => ?_⟩
  · by_cases ht : t = tx
    · subst ht
      simp [modify, hdead]
    · simp [modify, ht, hdead]
  · by_cases ht : t = tx
    · subst ht
      exact ⟨f live, by simp [modify, hlive], henclosing live, hmark live⟩
    · exact ⟨live, by simp [modify, ht, hlive], rfl, fun _ hm => hm⟩

theorem soft_tell (s : Session) (enclosing : Option ℕ) {note : PendingInvalidations → PendingInvalidations}
    (hmark : ∀ r m, r.aborted = some m → (note r).aborted = some m) : Soft s (s.tell enclosing note) := by
  cases enclosing with
  | none => exact Soft.refl s
  | some tx => exact soft_modify s tx (fun _ => rfl) fun live m hm => hmark live.record m hm

theorem soft_freeSlot (s : Session) (enclosing : Option ℕ) : Soft s (s.freeSlot enclosing) := by
  cases enclosing with
  | none => exact Soft.refl s
  | some tx => exact soft_modify s tx (fun _ => rfl) fun _ _ hm => hm

theorem log_tell (s : Session) (enclosing : Option ℕ) (note : PendingInvalidations → PendingInvalidations) :
    (s.tell enclosing note).log = s.log := by
  cases enclosing <;> rfl

theorem log_freeSlot (s : Session) (enclosing : Option ℕ) : (s.freeSlot enclosing).log = s.log := by
  cases enclosing <;> rfl

/-- The events a step adds to the log. -/
def events (s : Session) (op : SessionOp) : List SessionEvent := (s.step op).log.drop s.log.length

/-- What the drop of the record `tx` finds and leaves. -/
structure Drops (s mid : Session) (tx : ℕ) (live : LiveRecord) : Prop where
  childless : ∀ other child, s.records other = some child → other < s.next → child.enclosing ≠ some tx
  told : ∀ e m outer, live.enclosing = some e → live.record.aborted = some m → m.endsTheConnectionTransaction = true →
    mid.records e = some outer → outer.record.aborted.isSome = true

/-- All that a step can do to the records. -/
inductive Moves (s s' : Session) (op : SessionOp) : Prop
  | soft (h : Soft s s') (added : List SessionEvent) (hlog : s'.log = s.log ++ added)
      (hadmitted : ∀ tx, .admitted tx ∈ added → ∃ live, s.records tx = some live ∧ live.record.aborted = none)
      (hadded : ∀ tx, .committed tx ∉ added ∧ .dropped tx ∉ added)
  | checked (tx : ℕ) (live : LiveRecord) (hop : op = .checked tx true) (hlive : s.records tx = some live)
      (hrecords : s'.records =
        Function.update s.records tx (some { live with record := live.record.clearSqliteRollback }))
      (hnext : s'.next = s.next) (hlog : s'.log = s.log)
  | began (live : LiveRecord) (hrecords : s'.records = Function.update s.records s.next (some live))
      (hnext : s'.next = s.next + 1) (hlog : s'.log = s.log)
      (henclosing : ∀ e, live.enclosing = some e → ∃ outer, s.records e = some outer)
  | committed (tx : ℕ) (live : LiveRecord) (hlive : s.records tx = some live) (hactive : live.record.aborted = none)
      (mid : Session) (hsoft : Soft s mid) (hrecords : s'.records = Function.update mid.records tx none)
      (hnext : s'.next = s.next) (hlog : s'.log = s.log ++ [.committed tx])
  | dropped (tx : ℕ) (live : LiveRecord) (hlive : s.records tx = some live) (mid : Session) (hsoft : Soft s mid)
      (hdrops : Drops s mid tx live) (hrecords : s'.records = Function.update mid.records tx none)
      (hnext : s'.next = s.next) (added : List SessionEvent) (hlog : s'.log = s.log ++ added)
      (hadded : added = [.dropped tx] ∨ added = [.failed tx, .dropped tx])

theorem Moves.stay (s : Session) (op : SessionOp) : Moves s s op :=
  .soft (Soft.refl s) [] (by simp) (by simp) (by simp)

theorem inUse_false {tx : ℕ} {live : LiveRecord} (h : s.inUse tx live = false) {other : ℕ} {child : LiveRecord}
    (hchild : s.records other = some child) (hlt : other < s.next) : child.enclosing ≠ some tx := by
  intro henclosing
  rw [inUse, Bool.or_eq_false_iff, List.any_eq_false] at h
  have := h.2 other (List.mem_range.2 hlt)
  simp [hchild, henclosing] at this

/-- A record dropped after some notes in the one around it. -/
theorem moves_drop {op : SessionOp} {mid : Session} {tx : ℕ} {live live' : LiveRecord} (hlive : s.records tx = some live)
    (henclosing : live'.enclosing = live.enclosing) (hmark : live'.record.aborted = live.record.aborted)
    (hsoft : Soft s mid) (hfree : ∀ other child, s.records other = some child → other < s.next → child.enclosing ≠ some tx)
    (added : List SessionEvent) (hlog : mid.log = s.log ++ added) (hadded : added = [] ∨ added = [.failed tx]) :
    Moves s (mid.dropRecord tx live') op := by
  have htell : Soft mid (mid.tell live'.enclosing fun enclosing => live'.record.dropInto enclosing (mid.free live')) :=
    soft_tell mid _ fun r m hm => aborted_dropInto _ hm _
  refine .dropped tx live hlive _ (hsoft.trans htell) ⟨hfree, ?_⟩ rfl (htell.next.trans hsoft.next)
    (added ++ [.dropped tx]) ?_ ?_
  · intro e m outer he hm hends houter
    rw [henclosing, he] at houter
    rw [← hmark] at hm
    simp only [tell, modify, Function.update_self, Option.map_eq_some_iff] at houter
    obtain ⟨before, -, rfl⟩ := houter
    exact dropInto_aborted hm hends _
  · rw [dropRecord, hlog, List.append_assoc]
  · rcases hadded with rfl | rfl
    · exact Or.inl rfl
    · exact Or.inr rfl

/-- The scope's record is kept, or dropped. -/
theorem moves_letGo {op : SessionOp} {mid : Session} {tx : ℕ} {live : LiveRecord} (hlive : s.records tx = some live)
    (live' : LiveRecord) (henclosing : live'.enclosing = live.enclosing) (hmark : live'.record.aborted = live.record.aborted)
    (hsoft : Soft s mid) (kept : Bool) (added : List SessionEvent) (hlog : mid.log = s.log ++ added)
    (hadded : added = [] ∨ added = [.failed tx]) : Moves s (mid.letGo tx live' kept) op := by
  have hslot := hsoft.trans (soft_freeSlot mid live'.enclosing)
  unfold letGo
  dsimp only
  split_ifs with huse
  · refine .soft ?_ added ?_ ?_ ?_
    · refine ⟨hslot.next, fun t hdead => ?_, fun t other hother => ?_⟩
      · by_cases ht : t = tx
        · subst ht
          rw [hlive] at hdead
          cases hdead
        · simpa [modify, ht] using hslot.dead t hdead
      · by_cases ht : t = tx
        · subst ht
          rw [hlive] at hother
          obtain rfl := Option.some.inj hother
          obtain ⟨now, hnow, -, -⟩ := hslot.alive t live hlive
          exact ⟨{ live' with ended := true }, by simp [modify, hnow], henclosing, fun m hm => hmark.trans hm⟩
        · obtain ⟨now, hnow, hrest⟩ := hslot.alive t other hother
          exact ⟨now, by simp [modify, ht, hnow], hrest⟩
    · rw [show (Session.modify _ tx _).log = (mid.freeSlot live'.enclosing).log from rfl, log_freeSlot, hlog]
    · rcases hadded with rfl | rfl <;> simp
    · rcases hadded with rfl | rfl <;> simp
  · rw [Bool.or_eq_true, not_or, Bool.not_eq_true, Bool.not_eq_true] at huse
    refine moves_drop hlive henclosing hmark hslot ?_ added ((log_freeSlot _ _).trans hlog) hadded
    intro other child hchild hlt
    obtain ⟨child', hchild', hsame, -⟩ := hsoft.alive other child hchild
    rw [← hsame]
    exact inUse_false huse.2 hchild' (hsoft.next ▸ hlt)

theorem moves_letThrough {op : SessionOp} {tx : ℕ} {live : LiveRecord} (hlive : s.records tx = some live) (held : Held)
    {f : LiveRecord → LiveRecord} (henclosing : ∀ live, (f live).enclosing = live.enclosing)
    (hmark : ∀ live : LiveRecord, (f live).record = live.record) :
    Moves s ((s.letThrough tx live held).modify tx f) op := by
  have hsoft : Soft (s.letThrough tx live held) ((s.letThrough tx live held).modify tx f) :=
    soft_modify _ tx henclosing fun live m hm => by rw [hmark, hm]
  unfold letThrough at hsoft ⊢
  cases haborted : live.record.aborted with
  | none =>
    simp only [ensureTransactionActive, haborted] at hsoft ⊢
    refine .soft ((((Soft.refl s).setGate _ _).emit _).trans hsoft) [.admitted tx] rfl ?_ (by simp)
    intro t ht
    obtain rfl : t = tx := by simpa using ht
    exact ⟨live, hlive, haborted⟩
  | some m =>
    simp only [ensureTransactionActive, haborted] at hsoft ⊢
    exact .soft (((Soft.refl s).emit _).trans hsoft) [.refused tx _] rfl (by simp) (by simp)

theorem modify_id (s : Session) (tx : ℕ) : s.modify tx (fun live => live) = s := by
  simp [modify, Function.update_eq_self]

/-- What every reachable state keeps: a record that another one names as the one around it
has not been dropped, and neither has a live one. -/
structure Inv (s : Session) : Prop where
  fresh : ∀ tx, s.next ≤ tx → s.records tx = none ∧ .dropped tx ∉ s.log
  enclosing : ∀ tx live e, s.records tx = some live → live.enclosing = some e → e < tx ∧ .dropped e ∉ s.log
  alive : ∀ tx live, s.records tx = some live → .dropped tx ∉ s.log

theorem Inv.lt (h : s.Inv) {tx : ℕ} {live : LiveRecord} (hlive : s.records tx = some live) : tx < s.next := by
  by_contra hle
  rw [(h.fresh tx (by omega)).1] at hlive
  cases hlive

theorem moves_step (s : Session) (op : SessionOp) : Moves s (s.step op) op := by
  cases op with
  | beginTransaction => exact .began _ rfl rfl rfl (by simp)
  | statement tx =>
    simp only [step]
    split
    · exact .stay s _
    · next live hlive =>
      split_ifs
      · have hlet : Moves s ((s.letThrough tx live (.statement tx)).modify tx fun live => live) (.statement tx) :=
          moves_letThrough hlive (.statement tx) (fun _ => rfl) fun _ => rfl
        rwa [modify_id] at hlet
      · exact .stay s _
  | endStatement tx result =>
    simp only [step]
    split
    · exact .stay s _
    · next live hlive =>
      split_ifs
      · cases result with
        | succeeded => exact .soft ((Soft.refl s).setGate _ _) [] (by simp [endStatement, setGate]) (by simp) (by simp)
        | cancelled => exact .soft ((Soft.refl s).setGate _ _) [] (by simp [endStatement, setGate]) (by simp) (by simp)
        | failed deadlocked sqlite =>
          have hnote := soft_modify s tx
            (f := fun live => { live with record := live.record.noteFailedStatement deadlocked })
            (fun _ => rfl) fun live m hm => aborted_noteFailedStatement hm deadlocked
          simp only [endStatement]
          split_ifs
          · have habort := soft_modify (s.modify tx fun live =>
                { live with record := live.record.noteFailedStatement deadlocked }) tx
              (f := fun live => { live with record := live.record.abort .sqliteRollback })
              (fun _ => rfl) fun live m hm => aborted_abort hm .sqliteRollback
            exact .soft ((hnote.trans habort).setGate _ _) [] (by simp [setGate, modify]) (by simp) (by simp)
          · exact .soft (hnote.setGate _ _) [] (by simp [setGate, modify]) (by simp) (by simp)
      · exact .stay s _
  | checked tx active =>
    simp only [step]
    split
    · exact .stay s _
    · next live hlive =>
      split_ifs with hheld hactive
      · subst hactive
        refine .checked tx live rfl hlive ?_ rfl rfl
        simp [modify, setGate, hlive]
      · exact .soft ((Soft.refl s).setGate _ _) [] (by simp [setGate]) (by simp) (by simp)
      · exact .stay s _
  | startSavepoint tx =>
    simp only [step]
    split
    · exact .stay s _
    · next live hlive =>
      split_ifs
      · exact moves_letThrough hlive (.starting tx) (fun _ => rfl) fun _ => rfl
      · exact .stay s _
  | savepointStarted tx =>
    simp only [step]
    split
    · exact .stay s _
    · next live hlive =>
      split_ifs
      · refine .began _ rfl rfl rfl fun e he => ?_
        obtain rfl := Option.some.inj he
        exact ⟨live, hlive⟩
      · exact .stay s _
  | savepointFails tx =>
    simp only [step]
    split
    · exact .stay s _
    · next live hlive =>
      split_ifs
      · have habort := soft_modify (s.setGate live.gate none) tx
          (f := fun live => { live with record := live.record.abort .savepoint, slot := false })
          (fun _ => rfl) fun live m hm => aborted_abort hm .savepoint
        exact .soft (((Soft.refl s).setGate _ _).trans habort) [] (by simp [modify, setGate]) (by simp) (by simp)
      · exact .stay s _
  | endScope tx ending kept =>
    simp only [step]
    split
    · exact .stay s _
    · next live hlive =>
      split_ifs
      · have hends : ∀ mid, Soft s mid → mid.log = s.log ++ [.failed tx] → ∀ kept', Moves s (mid.letGo tx
            { live with record := { live.record with deferred := 0 } } kept') (.endScope tx ending kept) :=
          fun mid hsoft hlog kept' => moves_letGo hlive { live with record := { live.record with deferred := 0 } }
            rfl rfl hsoft kept' [.failed tx] hlog (Or.inr rfl)
        have hfails := hends _ ((Soft.refl s).emit (.failed tx)) rfl kept
        cases ending with
        | success canCommit commits =>
          simp only [endScope]
          split_ifs with haborted
          · exact hfails
          · exact hfails
          · exact .committed tx live hlive (by simpa using haborted) _ (soft_freeSlot s live.enclosing) rfl
              (soft_freeSlot s live.enclosing).next rfl
          · exact hfails
        | failure => exact hfails
        | leaked =>
          exact hends _ (((Soft.refl s).emit _).trans (soft_tell _ _ fun r m hm => aborted_abort hm .leaked))
            (log_tell _ _ _) true
        | cancelledEnding =>
          exact hends _ (((Soft.refl s).emit _).trans (soft_tell _ _ fun r m hm => aborted_abort hm .savepoint))
            (log_tell _ _ _) kept
      · exact .stay s _
  | cancelScope tx kept =>
    simp only [step]
    split
    · exact .stay s _
    · next live hlive =>
      split_ifs
      · exact moves_letGo hlive live rfl rfl (soft_tell s _ fun r m hm => aborted_deferOrDrop hm 1 _) kept []
          ((log_tell _ _ _).trans (List.append_nil _).symm) (Or.inl rfl)
      · exact .stay s _
  | release tx =>
    simp only [step]
    split
    · exact .stay s _
    · next live hlive =>
      split_ifs with hlast
      · rw [Bool.and_eq_true, Bool.not_eq_true'] at hlast
        refine moves_drop hlive rfl rfl (Soft.refl s) (fun other child hchild hlt => ?_) [] (by simp) (Or.inl rfl)
        exact inUse_false hlast.2 hchild hlt
      · exact .stay s _

theorem Moves.next {op : SessionOp} (hmoves : Moves s s' op) : s.next ≤ s'.next := by
  cases hmoves with
  | soft hsoft => exact hsoft.next.ge
  | checked _ _ _ _ _ hnext => exact hnext.ge
  | began _ _ hnext => omega
  | committed _ _ _ _ _ _ _ hnext => exact hnext.ge
  | dropped _ _ _ _ _ _ _ hnext => exact hnext.ge

theorem Soft.before {mid : Session} (h : Soft s mid) {tx : ℕ} {live' : LiveRecord} (hlive' : mid.records tx = some live') :
    ∃ live, s.records tx = some live ∧ live'.enclosing = live.enclosing := by
  cases hlive : s.records tx with
  | none =>
    rw [h.dead tx hlive] at hlive'
    cases hlive'
  | some live =>
    obtain ⟨live'', hlive'', henclosing, -⟩ := h.alive tx live hlive
    obtain rfl := Option.some.inj (hlive'.symm.trans hlive'')
    exact ⟨live, rfl, henclosing⟩

/-- A record alive after a step was alive before it, in the same place, or is new. -/
theorem Moves.before {op : SessionOp} (hmoves : Moves s s' op) {tx : ℕ} {live' : LiveRecord}
    (hlive' : s'.records tx = some live') :
    (∃ live, s.records tx = some live ∧ live'.enclosing = live.enclosing) ∨
      (tx = s.next ∧ s'.next = s.next + 1 ∧ s'.log = s.log ∧
        ∀ e, live'.enclosing = some e → ∃ outer, s.records e = some outer) := by
  -- the record taken out is not the one asked about
  have hrest : ∀ {mid : Session} {t : ℕ}, Soft s mid → s'.records = Function.update mid.records t none →
      ∃ live, s.records tx = some live ∧ live'.enclosing = live.enclosing := by
    intro mid t hsoft hrecords
    by_cases ht : tx = t
    · simp [hrecords, ht] at hlive'
    · rw [hrecords, Function.update_of_ne ht] at hlive'
      exact hsoft.before hlive'
  cases hmoves with
  | soft hsoft => exact Or.inl (hsoft.before hlive')
  | checked t live _ hlive hrecords =>
    by_cases ht : tx = t
    · subst ht
      rw [hrecords, Function.update_self] at hlive'
      obtain rfl := Option.some.inj hlive'
      exact Or.inl ⟨live, hlive, rfl⟩
    · rw [hrecords, Function.update_of_ne ht] at hlive'
      exact Or.inl ⟨live', hlive', rfl⟩
  | began live hrecords hnext hlog henclosing =>
    by_cases ht : tx = s.next
    · rw [hrecords, ht, Function.update_self] at hlive'
      obtain rfl := Option.some.inj hlive'
      exact Or.inr ⟨ht, hnext, hlog, henclosing⟩
    · rw [hrecords, Function.update_of_ne ht] at hlive'
      exact Or.inl ⟨live', hlive', rfl⟩
  | committed _ _ _ _ _ hsoft hrecords => exact Or.inl (hrest hsoft hrecords)
  | dropped _ _ _ _ hsoft _ hrecords => exact Or.inl (hrest hsoft hrecords)

theorem Moves.mem_log {op : SessionOp} (hmoves : Moves s s' op) {event : SessionEvent} (h : event ∈ s.log) :
    event ∈ s'.log := by
  cases hmoves with
  | soft _ added hlog => exact hlog ▸ List.mem_append_left _ h
  | checked _ _ _ _ _ _ hlog => exact hlog ▸ h
  | began _ _ _ hlog => exact hlog ▸ h
  | committed _ _ _ _ _ _ _ _ hlog => exact hlog ▸ List.mem_append_left _ h
  | dropped _ _ _ _ _ _ _ _ added hlog => exact hlog ▸ List.mem_append_left _ h

/-- A record is dropped when it is alive and no live record names it as the one around it. -/
theorem Moves.dropped_mem {op : SessionOp} (hmoves : Moves s s' op) {tx : ℕ} (hmem : .dropped tx ∈ s'.log) :
    .dropped tx ∈ s.log ∨ ((s.records tx).isSome = true ∧ s'.records tx = none ∧
      ∀ other child, s.records other = some child → other < s.next → child.enclosing ≠ some tx) := by
  cases hmoves with
  | soft _ added hlog _ hadded =>
    rw [hlog, List.mem_append] at hmem
    exact Or.inl (hmem.resolve_right (hadded tx).2)
  | checked _ _ _ _ _ _ hlog => exact Or.inl (hlog ▸ hmem)
  | began _ _ _ hlog => exact Or.inl (hlog ▸ hmem)
  | committed _ _ _ _ _ _ _ _ hlog => exact Or.inl (by simpa [hlog] using hmem)
  | dropped t live hlive mid hsoft hdrops hrecords _ added hlog hadded =>
    have hcases : .dropped tx ∈ s.log ∨ tx = t := by
      rcases hadded with rfl | rfl <;> simpa [hlog] using hmem
    refine hcases.imp_right ?_
    rintro rfl
    exact ⟨by simp [hlive], by simp [hrecords], hdrops.childless⟩

/-- What becomes of a live record: it keeps its abort, SQLite's answer takes back the one
noted for it, it commits unmarked, or it is dropped and the one around it is told. -/
theorem Moves.fate {op : SessionOp} (hmoves : Moves s s' op) (h : s.Inv) {tx : ℕ} {live : LiveRecord}
    (hlive : s.records tx = some live) :
    (∃ live', s'.records tx = some live' ∧ live'.enclosing = live.enclosing ∧
      ∀ m, live.record.aborted = some m → live'.record.aborted = some m ∨
        (op = .checked tx true ∧ m = .sqliteRollback ∧ live'.record.aborted = none)) ∨
    (s'.records tx = none ∧ live.record.aborted = none) ∨
    (s'.records tx = none ∧
      ∀ e m outer, live.enclosing = some e → live.record.aborted = some m → m.endsTheConnectionTransaction = true →
        s'.records e = some outer → outer.record.aborted.isSome = true) := by
  cases hmoves with
  | soft hsoft =>
    obtain ⟨live', hlive', henclosing, hmark⟩ := hsoft.alive tx live hlive
    exact Or.inl ⟨live', hlive', henclosing, fun m hm => Or.inl (hmark m hm)⟩
  | checked t other hop hother hrecords =>
    by_cases ht : tx = t
    · subst ht
      obtain rfl : live = other := Option.some.inj (hlive.symm.trans hother)
      refine Or.inl ⟨{ live with record := live.record.clearSqliteRollback }, by rw [hrecords, Function.update_self],
        rfl, fun m hm => ?_⟩
      unfold PendingInvalidations.clearSqliteRollback
      split_ifs with hsqlite
      · exact Or.inr ⟨hop, Option.some.inj (hm.symm.trans hsqlite), rfl⟩
      · exact Or.inl hm
    · exact Or.inl ⟨live, by simp [hrecords, ht, hlive], rfl, fun m hm => Or.inl hm⟩
  | began other hrecords =>
    have hne : tx ≠ s.next := Nat.ne_of_lt (h.lt hlive)
    exact Or.inl ⟨live, by simp [hrecords, hne, hlive], rfl, fun m hm => Or.inl hm⟩
  | committed t other hother hactive mid hsoft hrecords =>
    by_cases ht : tx = t
    · subst ht
      obtain rfl : live = other := Option.some.inj (hlive.symm.trans hother)
      exact Or.inr (Or.inl ⟨by simp [hrecords], hactive⟩)
    · obtain ⟨live', hlive', henclosing, hmark⟩ := hsoft.alive tx live hlive
      exact Or.inl ⟨live', by simp [hrecords, ht, hlive'], henclosing, fun m hm => Or.inl (hmark m hm)⟩
  | dropped t other hother mid hsoft hdrops hrecords =>
    by_cases ht : tx = t
    · subst ht
      obtain rfl : live = other := Option.some.inj (hlive.symm.trans hother)
      refine Or.inr (Or.inr ⟨by simp [hrecords], fun e m outer he hm hends houter => ?_⟩)
      have hne : e ≠ tx := by
        rintro rfl
        simp [hrecords] at houter
      rw [hrecords, Function.update_of_ne hne] at houter
      exact hdrops.told e m outer he hm hends houter
    · obtain ⟨live', hlive', henclosing, hmark⟩ := hsoft.alive tx live hlive
      exact Or.inl ⟨live', by simp [hrecords, ht, hlive'], henclosing, fun m hm => Or.inl (hmark m hm)⟩

theorem inv_new : new.Inv := ⟨fun _ _ => ⟨rfl, by simp [new]⟩, by simp [new], by simp [new]⟩

theorem Inv.moves (h : s.Inv) {op : SessionOp} (hmoves : Moves s s' op) : s'.Inv := by
  have hfresh : ∀ tx, s.next ≤ tx → .dropped tx ∉ s'.log := by
    intro tx hle hmem
    rcases hmoves.dropped_mem hmem with hold | ⟨halive, -⟩
    · exact (h.fresh tx hle).2 hold
    · simp [(h.fresh tx hle).1] at halive
  refine ⟨fun tx hle => ⟨?_, hfresh tx (hmoves.next.trans hle)⟩, fun tx live' e hlive' he => ?_,
    fun tx live' hlive' hmem => ?_⟩
  · by_contra hsome
    obtain ⟨live', hlive'⟩ := Option.ne_none_iff_exists'.1 hsome
    rcases hmoves.before hlive' with ⟨live, hlive, -⟩ | ⟨rfl, hnext, -⟩
    · have := h.lt hlive
      have := hmoves.next
      omega
    · omega
  · rcases hmoves.before hlive' with ⟨live, hlive, hsame⟩ | ⟨rfl, -, hlog, henclosing⟩
    · rw [hsame] at he
      obtain ⟨hlt, hnot⟩ := h.enclosing tx live e hlive he
      refine ⟨hlt, fun hmem => ?_⟩
      rcases hmoves.dropped_mem hmem with hold | ⟨-, -, hchildless⟩
      · exact hnot hold
      · exact hchildless tx live hlive (h.lt hlive) he
    · obtain ⟨outer, houter⟩ := henclosing e he
      exact ⟨h.lt houter, hlog ▸ h.alive e outer houter⟩
  · rcases hmoves.dropped_mem hmem with hold | ⟨-, hdead, -⟩
    · rcases hmoves.before hlive' with ⟨live, hlive, -⟩ | ⟨rfl, -⟩
      · exact h.alive tx live hlive hold
      · exact (h.fresh _ (Nat.le_refl _)).2 hold
    · rw [hdead] at hlive'
      cases hlive'

theorem Inv.step (h : s.Inv) (op : SessionOp) : (s.step op).Inv := h.moves (moves_step s op)

theorem Inv.run (h : s.Inv) (ops : List SessionOp) : (s.run ops).Inv := by
  induction ops generalizing s with
  | nil => exact h
  | cons op ops ih => exact ih (h.step op)

/-- A record that is gone stays so, dropped or not. -/
theorem run_dead {tx : ℕ} (ops : List SessionOp) (hlt : tx < s.next) (hdead : s.records tx = none) :
    (s.run ops).records tx = none ∧ (.dropped tx ∈ (s.run ops).log → .dropped tx ∈ s.log) := by
  induction ops generalizing s with
  | nil => exact ⟨hdead, fun h => h⟩
  | cons op ops ih =>
    have hmoves := moves_step s op
    have hdead' : (s.step op).records tx = none := by
      by_contra hsome
      obtain ⟨live', hlive'⟩ := Option.ne_none_iff_exists'.1 hsome
      rcases hmoves.before hlive' with ⟨live, hlive, -⟩ | ⟨rfl, -⟩
      · rw [hdead] at hlive
        cases hlive
      · omega
    obtain ⟨hrest, hlog⟩ := ih (hlt.trans_le hmoves.next) hdead'
    refine ⟨hrest, fun hmem => ?_⟩
    rcases hmoves.dropped_mem (hlog hmem) with hold | ⟨halive, -⟩
    · exact hold
    · simp [hdead] at halive

/-- The record around another never changes. -/
theorem run_enclosing (h : s.Inv) {tx : ℕ} {live live' : LiveRecord} (ops : List SessionOp)
    (hlive : s.records tx = some live) (hlive' : (s.run ops).records tx = some live') :
    live'.enclosing = live.enclosing := by
  induction ops generalizing s live with
  | nil =>
    obtain rfl := Option.some.inj (hlive.symm.trans hlive')
    rfl
  | cons op ops ih =>
    have hdead : (s.step op).records tx ≠ none := by
      intro hdead
      have := (run_dead ops ((h.lt hlive).trans_le (moves_step s op).next) hdead).1
      rw [show s.run (op :: ops) = (s.step op).run ops from rfl, this] at hlive'
      cases hlive'
    rcases (moves_step s op).fate h hlive with ⟨mid, hmid, hsame, -⟩ | ⟨hgone, -⟩ | ⟨hgone, -⟩
    · exact (ih (h.step op) hmid hlive').trans hsame
    · exact absurd hgone hdead
    · exact absurd hgone hdead

/-- The record of `tx` is marked with the reason. -/
def Marked (s : Session) (tx : ℕ) (m : Abort) : Prop :=
  ∃ live, s.records tx = some live ∧ live.record.aborted = some m

/-- The step takes the mark of a record back. -/
def Lifts (s : Session) (op : SessionOp) (tx : ℕ) : Prop :=
  (∃ m, s.Marked tx m) ∧ ∃ live, (s.step op).records tx = some live ∧ live.record.aborted = none

/-- `between` leads from the record `tx` outwards to `e`, which is not one of them. -/
inductive Encloses (s : Session) : List ℕ → ℕ → ℕ → Prop
  | self (e : ℕ) : Encloses s [] e e
  | outer {tx p e : ℕ} {between : List ℕ} {live : LiveRecord} (hlive : s.records tx = some live)
      (henclosing : live.enclosing = some p) (h : Encloses s between p e) : Encloses s (tx :: between) tx e

/-- The record the abort has reached: the first on the way to `e` that has yet to be
dropped, or `e`. -/
def reached (s : Session) (between : List ℕ) (e : ℕ) : ℕ :=
  (between.find? fun tx => decide (.dropped tx ∉ s.log)).getD e

theorem reached_of_alive {between : List ℕ} {tx e : ℕ} (h : .dropped tx ∉ s.log) :
    s.reached (tx :: between) e = tx := by
  simp [reached, h]

theorem reached_of_dropped {between : List ℕ} {tx e : ℕ} (h : .dropped tx ∈ s.log) :
    s.reached (tx :: between) e = s.reached between e := by
  simp [reached, h]

/-- No record on the way to `e` is marked for a cancelled savepoint, and no mark is taken
back of the record the abort has reached. -/
def Undisturbed (between : List ℕ) (e : ℕ) : Session → List SessionOp → Prop
  | _, [] => True
  | s, op :: ops => (∀ tx ∈ between, ¬(s.step op).Marked tx .cancelled) ∧ ¬s.Lifts op (s.reached between e) ∧
      Undisturbed between e (s.step op) ops

theorem Undisturbed.right {between : List ℕ} {e : ℕ} {ops : List SessionOp} : ∀ {ops' : List SessionOp} {s : Session},
    Undisturbed between e s (ops' ++ ops) → Undisturbed between e (s.run ops') ops := by
  intro ops'
  induction ops' with
  | nil => exact fun h => h
  | cons op ops' ih => exact fun h => ih h.2.2

theorem Undisturbed.tail {tx : ℕ} {between : List ℕ} {e : ℕ} {ops : List SessionOp} : ∀ {s : Session},
    .dropped tx ∈ s.log → Undisturbed (tx :: between) e s ops → Undisturbed between e s ops := by
  induction ops with
  | nil => exact fun _ _ => trivial
  | cons op ops ih =>
    intro s hdropped h
    refine ⟨fun t ht => h.1 t (List.mem_cons_of_mem _ ht), ?_, ih ((moves_step s op).mem_log hdropped) h.2.2⟩
    rw [← reached_of_dropped hdropped]
    exact h.2.1

/-- A mark that is not taken back stays until the record is gone. -/
theorem marked_run {e : ℕ} {m : Abort} {ops : List SessionOp} : ∀ {s : Session}, s.Inv → s.Marked e m →
    Undisturbed [] e s ops → (s.run ops).Marked e m ∨ (s.run ops).records e = none := by
  induction ops with
  | nil => exact fun _ hm _ => Or.inl hm
  | cons op ops ih =>
    rintro s h ⟨live, hlive, hm⟩ ⟨-, hlifts, hrest⟩
    have hmoves := moves_step s op
    have hgone : (s.step op).records e = none → ((s.step op).run ops).records e = none := fun hdead =>
      (run_dead ops ((h.lt hlive).trans_le hmoves.next) hdead).1
    rcases hmoves.fate h hlive with ⟨live', hlive', -, hmark⟩ | ⟨hdead, -⟩ | ⟨hdead, -⟩
    · refine ih (h.step op) ⟨live', hlive', (hmark m hm).resolve_right fun hlift => ?_⟩ hrest
      exact hlifts ⟨⟨m, live, hlive, hm⟩, live', hlive', hlift.2.2⟩
    · exact Or.inr (hgone hdead)
    · exact Or.inr (hgone hdead)

/-- When a marked record has been dropped, the one around it was told. -/
theorem told_run {tx p e : ℕ} {between : List ℕ} {m : Abort} (hends : m.endsTheConnectionTransaction = true)
    {ops : List SessionOp} : ∀ {s : Session}, s.Inv →
    (∃ live, s.records tx = some live ∧ live.record.aborted = some m ∧ live.enclosing = some p) →
    Undisturbed (tx :: between) e s ops → .dropped tx ∈ (s.run ops).log →
    ∃ ops' ops'', ops = ops' ++ ops'' ∧ .dropped tx ∈ (s.run ops').log ∧ .dropped p ∉ (s.run ops').log ∧
      p < (s.run ops').next ∧
      (∀ t ∈ between, ¬(s.run ops').Marked t .cancelled) ∧
      ∀ outer, (s.run ops').records p = some outer → outer.record.aborted.isSome = true := by
  induction ops with
  | nil =>
    rintro s h ⟨live, hlive, -⟩ - hmem
    exact absurd hmem (h.alive tx live hlive)
  | cons op ops ih =>
    rintro s h ⟨live, hlive, hm, hp⟩ ⟨hmarks, hlifts, hrest⟩ hmem
    rw [reached_of_alive (h.alive tx live hlive)] at hlifts
    have hmoves := moves_step s op
    have hlt := h.lt hlive
    rcases hmoves.fate h hlive with ⟨live', hlive', hsame, hmark⟩ | ⟨-, hnone⟩ | ⟨hgone, htold⟩
    · obtain ⟨ops', ops'', rfl, hfound⟩ := ih (h.step op) ⟨live', hlive', (hmark m hm).resolve_right fun hlift =>
        hlifts ⟨⟨m, live, hlive, hm⟩, live', hlive', hlift.2.2⟩, hsame.trans hp⟩ hrest hmem
      exact ⟨op :: ops', ops'', rfl, hfound⟩
    · rw [hm] at hnone
      cases hnone
    · obtain ⟨hlower, hnot⟩ := h.enclosing tx live p hlive hp
      refine ⟨[op], ops, rfl, (run_dead ops (hlt.trans_le hmoves.next) hgone).2 hmem, fun hbad => ?_,
        (hlower.trans hlt).trans_le hmoves.next, fun t ht => hmarks t (List.mem_cons_of_mem _ ht), fun outer houter => htold p m outer hp hm hends houter⟩
      rcases hmoves.dropped_mem hbad with hold | ⟨-, -, hchildless⟩
      · exact hnot hold
      · exact hchildless tx live hlive hlt hp

/-- The way outwards is the same later, if all on it have yet to be dropped. -/
theorem Encloses.later (ops ops' : List SessionOp) {between : List ℕ} : ∀ {tx e : ℕ}, Encloses s between tx e → s.Inv →
    (between ≠ [] → ∃ live, (s.run ops).records tx = some live) →
    (∀ t ∈ between, .dropped t ∈ ((s.run ops).run ops').log) → Encloses (s.run ops) between tx e := by
  induction between with
  | nil =>
    intro tx e hway _ _ _
    cases hway
    exact .self tx
  | cons t between ih =>
    intro tx e hway h halive hdropped
    cases hway with
    | @outer _ p _ _ live hlive henclosing hrest =>
      obtain ⟨live', hlive'⟩ := halive (by simp)
      have hsame := run_enclosing h ops hlive hlive'
      refine .outer hlive' (hsame.trans henclosing) (ih hrest h (fun hne => ?_) fun t' ht' => hdropped t' (by simp [ht']))
      obtain ⟨hlt, hnot⟩ := (h.run ops).enclosing t live' p hlive' (hsame.trans henclosing)
      -- `p` cannot have been dropped before the record in it
      cases hp : (s.run ops).records p with
      | some outer => exact ⟨outer, rfl⟩
      | none =>
        have hmem : .dropped p ∈ ((s.run ops).run ops').log := by
          cases hrest with
          | self => exact absurd rfl hne
          | outer _ _ _ => exact hdropped p (by simp)
        exact absurd ((run_dead ops' (hlt.trans ((h.run ops).lt hlive')) hp).2 hmem) hnot

theorem run_append (s : Session) (ops ops' : List SessionOp) : s.run (ops ++ ops') = (s.run ops).run ops' :=
  List.foldl_append

/-- Once the records on the way to `e` have been dropped, `e` is marked. -/
theorem marked_of_dropped {between : List ℕ} : ∀ {s : Session} {tx e : ℕ} {m : Abort} {ops : List SessionOp}, s.Inv →
    Encloses s between tx e → s.Marked tx m → m.endsTheConnectionTransaction = true → Undisturbed between e s ops →
    (∀ t ∈ between, .dropped t ∈ (s.run ops).log) →
    ∀ live, (s.run ops).records e = some live → live.record.aborted.isSome = true := by
  induction between with
  | nil =>
    intro s tx e m ops h hway hm _ hops _ live hlive
    cases hway
    rcases marked_run h hm hops with ⟨live', hlive', hm'⟩ | hdead
    · obtain rfl := Option.some.inj (hlive.symm.trans hlive')
      simp [hm']
    · rw [hdead] at hlive
      cases hlive
  | cons t between ih =>
    intro s tx e m ops h hway hm hends hops hdropped live hlive
    cases hway with
    | @outer _ p _ _ inner hinner henclosing hrest =>
      obtain ⟨live', hlive', hm'⟩ := hm
      obtain rfl := Option.some.inj (hinner.symm.trans hlive')
      obtain ⟨ops', ops'', rfl, hdrop, hnot, hlt, hmarks, htold⟩ :=
        told_run hends h ⟨inner, hinner, hm', henclosing⟩ hops (hdropped t (by simp))
      have hinv := h.run ops'
      rw [run_append] at hdropped hlive
      have hdropped' : ∀ t' ∈ between, .dropped t' ∈ ((s.run ops').run ops'').log := fun t' ht' =>
        hdropped t' (by simp [ht'])
      cases hp : (s.run ops').records p with
      | none =>
        -- a record that is gone here is never dropped, and is not the one at the end
        obtain ⟨hdead, hlog⟩ := run_dead ops'' hlt hp
        cases hrest with
        | self =>
          rw [hdead] at hlive
          cases hlive
        | outer _ _ _ => exact absurd (hlog (hdropped' p (by simp))) hnot
      | some outer =>
        obtain ⟨m', hm'⟩ := Option.isSome_iff_exists.1 (htold outer hp)
        have hmarked : (s.run ops').Marked p m' := ⟨outer, hp, hm'⟩
        have hops' := (hops.right).tail hdrop
        cases hrest with
        | self =>
          rcases marked_run hinv hmarked hops' with ⟨last, hlast, hm''⟩ | hdead
          · obtain rfl := Option.some.inj (hlive.symm.trans hlast)
            simp [hm'']
          · rw [hdead] at hlive
            cases hlive
        | @outer _ q _ rest around haround hq hrest =>
          have hends' : m'.endsTheConnectionTransaction = true := by
            refine ends_of_ne ?_
            rintro rfl
            exact hmarks p (by simp) hmarked
          have hway' := (Encloses.outer haround hq hrest).later ops' ops'' h (fun _ => ⟨outer, hp⟩) hdropped'
          exact ih hinv hway' hmarked hends' hops' hdropped' live hlive

/-- A statement is let through, and a commit made, only by a live record that is not marked. -/
theorem events_active {op : SessionOp} {tx : ℕ} (h : .admitted tx ∈ s.events op ∨ .committed tx ∈ s.events op) :
    ∃ live, s.records tx = some live ∧ live.record.aborted = none := by
  unfold events at h
  cases moves_step s op with
  | soft _ added hlog hadmitted hadded =>
    rw [hlog, List.drop_left] at h
    exact hadmitted tx (h.resolve_right (hadded tx).1)
  | checked _ _ _ _ _ _ hlog => simp [hlog] at h
  | began _ _ _ hlog => simp [hlog] at h
  | committed t live hlive hactive _ _ _ _ hlog =>
    rw [hlog, List.drop_left] at h
    obtain rfl : tx = t := by simpa using h
    exact ⟨live, hlive, hactive⟩
  | dropped _ _ _ _ _ _ _ _ added hlog hadded =>
    rw [hlog, List.drop_left] at h
    rcases hadded with rfl | rfl <;> simp at h

/-- Once a record is marked aborted for a reason that ends the connection's transaction, it
lets no statement through and does not commit while the mark stands, and neither does a
record around it once the ones on the way to that have been dropped, while the mark each
of them had when it learned of the abort stands; only the mark of SQLite's rollback is
ever taken back, by its own check, and no other. -/
theorem aborted_stays_aborted (ops : List SessionOp) :
    (∀ {tx e : ℕ} {m : Abort} {between : List ℕ} {later : List SessionOp}, (new.run ops).Marked tx m →
      m.endsTheConnectionTransaction = true → Encloses (new.run ops) between tx e →
      Undisturbed between e (new.run ops) later → (∀ t ∈ between, .dropped t ∈ ((new.run ops).run later).log) →
      ∀ op, .admitted e ∉ ((new.run ops).run later).events op ∧ .committed e ∉ ((new.run ops).run later).events op) ∧
    ∀ op tx, (new.run ops).Lifts op tx → op = .checked tx true ∧ ∀ m, (new.run ops).Marked tx m → m = .sqliteRollback := by
  have h := inv_new.run ops
  constructor
  · intro tx e m between later hm hends hway hops hdropped op
    have hnone : ¬∃ live, ((new.run ops).run later).records e = some live ∧ live.record.aborted = none := by
      rintro ⟨live, hlive, hactive⟩
      have := marked_of_dropped h hway hm hends hops hdropped live hlive
      simp [hactive] at this
    exact ⟨fun hmem => hnone (events_active (Or.inl hmem)), fun hmem => hnone (events_active (Or.inr hmem))⟩
  · rintro op tx ⟨⟨m, live, hlive, hm⟩, live', hlive', hactive⟩
    rcases (moves_step (new.run ops) op).fate h hlive with ⟨after, hafter, -, hmark⟩ | ⟨hdead, -⟩ | ⟨hdead, -⟩
    · obtain rfl := Option.some.inj (hlive'.symm.trans hafter)
      rcases hmark m hm with hkept | ⟨hop, hsqlite, -⟩
      · rw [hactive] at hkept
        cases hkept
      · refine ⟨hop, ?_⟩
        rintro m' ⟨before, hbefore, hm'⟩
        obtain rfl := Option.some.inj (hlive.symm.trans hbefore)
        exact (Option.some.inj (hm'.symm.trans hm)).trans hsqlite
    · rw [hdead] at hlive'
      cases hlive'
    · rw [hdead] at hlive'
      cases hlive'

/-- A savepoint in which a statement has deadlocked. -/
def deadlockedSavepoint : List SessionOp :=
  [.beginTransaction, .startSavepoint 0, .savepointStarted 0, .statement 1, .endStatement 1 (.failed true false)]

theorem deadlocked_marked : (new.run deadlockedSavepoint).Marked 1 .deadlock := ⟨_, rfl, rfl⟩

theorem deadlocked_encloses : Encloses (new.run deadlockedSavepoint) [1] 1 0 := .outer rfl rfl (.self 0)

/-- The savepoint has ended, so the transaction around it lets nothing through. -/
theorem deadlocked_savepoint_ended :
    .admitted 0 ∉ ((new.run deadlockedSavepoint).run [.endScope 1 .failure false]).events (.statement 0) := by
  have hdropped : ∀ t ∈ [1], .dropped t ∈ ((new.run deadlockedSavepoint).run [.endScope 1 .failure false]).log := by
    decide
  refine ((aborted_stays_aborted deadlockedSavepoint).1 deadlocked_marked rfl deadlocked_encloses ?_ hdropped
    (.statement 0)).1
  refine ⟨fun tx htx => ?_, ?_, trivial⟩
  · obtain rfl : tx = 1 := by simpa using htx
    rintro ⟨live, hlive, -⟩
    exact absurd (show (none : Option LiveRecord) = some live from hlive) (by simp)
  · rintro ⟨-, live, hlive, -⟩
    exact absurd (show (none : Option LiveRecord) = some live from hlive) (by simp)

/-- While the savepoint is open, the transaction around it still lets statements through. -/
theorem deadlocked_savepoint_open :
    (new.run deadlockedSavepoint).Marked 1 .deadlock ∧ Abort.deadlock.endsTheConnectionTransaction = true ∧
      Encloses (new.run deadlockedSavepoint) [1] 1 0 ∧
      .admitted 0 ∈ (new.run deadlockedSavepoint).events (.statement 0) :=
  ⟨deadlocked_marked, rfl, deadlocked_encloses, by decide⟩

end Session

end TideOrm
