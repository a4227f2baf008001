import TideOrm.Sanity.Transaction

/-! The undo steps and invalidations of nested transactions. A step registered in a
transaction is handed outwards by each commit, so it runs, once, exactly when that
transaction or one around it does not commit; an invalidation is handed outwards the
same way, and applied when the outermost one commits. -/

namespace TideOrm.Connection

open Lib PendingInvalidations

variable {c c' : Connection}

theorem openTxs_grown {records records' : List PendingInvalidations} (h : List.Forall₂ Grown records records') :
    records'.map PendingInvalidations.tx = records.map PendingInvalidations.tx := by
  induction h with
  | nil => rfl
  | cons hr _ ih => rw [List.map_cons, List.map_cons, ih, hr.tx]

theorem openTxs_keeps {records records' : List PendingInvalidations} (h : List.Forall₂ Keeps records records') :
    records'.map PendingInvalidations.tx = records.map PendingInvalidations.tx :=
  openTxs_grown (h.imp fun _ _ hr => hr.grown)

theorem openTxs_handed (r : PendingInvalidations) (rest : List PendingInvalidations) :
    (rest.modifyHead fun e => { e with undo := e.undo ++ r.undo }).map PendingInvalidations.tx =
      rest.map PendingInvalidations.tx := by
  cases rest <;> rfl

/-- Every transaction is open, has committed or was dropped, and no two of these. -/
structure TxInv (c : Connection) : Prop where
  nodup : c.openTxs.Nodup
  isOpen : ∀ tx ∈ c.openTxs, tx < c.nextTx ∧ .committed tx ∉ c.log ∧ .dropped tx ∉ c.log
  committed : ∀ tx, .committed tx ∈ c.log → tx < c.nextTx ∧ .dropped tx ∉ c.log
  dropped : ∀ tx, .dropped tx ∈ c.log → tx < c.nextTx

/-- Events that end no transaction. -/
theorem TxInv.of_log (h : c.TxInv) {events : List TxEvent} (hopen : c'.openTxs = c.openTxs)
    (hlog : c'.log = c.log ++ events) (htx : c'.nextTx = c.nextTx)
    (hevents : ∀ tx, .committed tx ∉ events ∧ .dropped tx ∉ events) : c'.TxInv := by
  constructor
  · exact hopen ▸ h.nodup
  · intro tx hmem
    rw [hopen] at hmem
    simpa [hlog, htx, (hevents tx).1, (hevents tx).2] using h.isOpen tx hmem
  · intro tx hmem
    rw [hlog, List.mem_append] at hmem
    have := h.committed tx (hmem.resolve_right (hevents tx).1)
    simpa [hlog, htx, (hevents tx).2] using this
  · intro tx hmem
    rw [hlog, List.mem_append] at hmem
    rw [htx]
    exact h.dropped tx (hmem.resolve_right (hevents tx).2)

/-- Events that end the innermost transaction. -/
theorem TxInv.ended (h : c.TxInv) {t : ℕ} {events : List TxEvent} (hopen : c.openTxs = t :: c'.openTxs)
    (hlog : c'.log = c.log ++ events) (htx : c'.nextTx = c.nextTx)
    (hcommitted : ∀ tx, .committed tx ∈ events → tx = t ∧ .dropped tx ∉ events)
    (hdropped : ∀ tx, .dropped tx ∈ events → tx = t) : c'.TxInv := by
  have hnodup := h.nodup
  rw [hopen, List.nodup_cons] at hnodup
  obtain ⟨hlt, hnc, hnd⟩ := h.isOpen t (hopen ▸ List.mem_cons_self)
  constructor
  · exact hnodup.2
  · intro tx hmem
    have hne : tx ≠ t := fun heq => hnodup.1 (heq ▸ hmem)
    obtain ⟨h1, h2, h3⟩ := h.isOpen tx (hopen ▸ List.mem_cons_of_mem _ hmem)
    rw [hlog, htx]
    refine ⟨h1, fun hc => ?_, fun hd => ?_⟩
    · rcases List.mem_append.1 hc with hc | hc
      · exact h2 hc
      · exact hne (hcommitted tx hc).1
    · rcases List.mem_append.1 hd with hd | hd
      · exact h3 hd
      · exact hne (hdropped tx hd)
  · intro tx hmem
    rw [hlog] at hmem ⊢
    rw [htx]
    rcases List.mem_append.1 hmem with hc | hc
    · obtain ⟨h1, h2⟩ := h.committed tx hc
      refine ⟨h1, fun hd => ?_⟩
      rcases List.mem_append.1 hd with hd | hd
      · exact h2 hd
      · exact hnc (hdropped tx hd ▸ hc)
    · obtain ⟨rfl, hno⟩ := hcommitted tx hc
      refine ⟨hlt, fun hd => ?_⟩
      rcases List.mem_append.1 hd with hd | hd
      · exact hnd hd
      · exact hno hd
  · intro tx hmem
    rw [hlog] at hmem
    rw [htx]
    rcases List.mem_append.1 hmem with hd | hd
    · exact h.dropped tx hd
    · exact hdropped tx hd ▸ hlt

theorem TxInv.move (h : c.TxInv) (hmove : Move c c') : c'.TxInv := by
  cases hmove with
  | quiet invs hkeeps hlog htx _ => exact h.of_log (openTxs_keeps hkeeps) hlog htx (by simp)
  | recorded i inv hkeeps _ hlog htx _ => exact h.of_log (openTxs_keeps hkeeps) hlog htx (by simp)
  | registered inner r outer hrecords hrecords' hlog htx _ =>
    refine h.of_log ?_ hlog htx (by simp)
    simp [openTxs, hrecords, hrecords']
  | began r hrecords hr hundo hlog htx _ =>
    have hopen : c'.openTxs = c.nextTx :: c.openTxs := by simp [openTxs, hrecords, hr]
    constructor
    · rw [hopen, List.nodup_cons]
      exact ⟨fun hmem => lt_irrefl _ (h.isOpen _ hmem).1, h.nodup⟩
    · intro tx hmem
      rw [hopen, List.mem_cons] at hmem
      rw [hlog, htx]
      rcases hmem with rfl | hmem
      · exact ⟨Nat.lt_succ_self _, fun hc => lt_irrefl _ (h.committed _ hc).1,
          fun hd => lt_irrefl _ (h.dropped _ hd)⟩
      · obtain ⟨h1, h2⟩ := h.isOpen tx hmem
        exact ⟨Nat.lt_succ_of_lt h1, h2⟩
    · intro tx hmem
      rw [hlog] at hmem ⊢
      obtain ⟨h1, h2⟩ := h.committed tx hmem
      exact ⟨htx ▸ Nat.lt_succ_of_lt h1, h2⟩
    · intro tx hmem
      rw [hlog] at hmem
      exact htx ▸ Nat.lt_succ_of_lt (h.dropped tx hmem)
  | committed r rest hrecords hkeeps _ hlog _ htx _ =>
    have hopen : c.openTxs = r.tx :: c'.openTxs := by
      simp [openTxs, hrecords, openTxs_keeps hkeeps, openTxs_handed]
    exact h.ended hopen hlog htx (by simp) (by simp)
  | dropped r rest invs hrecords hkeeps hlog htx _ =>
    have hopen : c.openTxs = r.tx :: c'.openTxs := by
      simp [openTxs, hrecords, openTxs_keeps hkeeps]
    rw [List.append_assoc] at hlog
    exact h.ended hopen hlog htx (by simp) (by simp)

/-- Of two steps, the one registered later has run when the other runs if no transaction
around the other was open inside that of the later one, and else it has not. -/
def OrderedLog (log : List TxEvent) : Prop :=
  ∀ l a, l ++ [.ran a] <+: log → ∀ b ia wa ib wb, .registered a ia wa ∈ l → .registered b ib wb ∈ l → a < b →
    (.ran b ∈ l ↔ ∀ tx ∈ wa, tx ∉ ib)

theorem OrderedLog.snoc {log : List TxEvent} {e : TxEvent} (h : OrderedLog log)
    (he : ∀ a, e = .ran a → ∀ b ia wa ib wb, .registered a ia wa ∈ log → .registered b ib wb ∈ log → a < b →
      (.ran b ∈ log ↔ ∀ tx ∈ wa, tx ∉ ib)) : OrderedLog (log ++ [e]) := by
  intro l a hl
  rcases List.prefix_concat_iff.1 hl with heq | hl
  · obtain ⟨rfl, he'⟩ := List.append_inj' heq rfl
    exact he a (List.singleton_inj.1 he').symm
  · exact h l a hl

theorem OrderedLog.append {log : List TxEvent} : ∀ events : List TxEvent, (∀ a, .ran a ∉ events) →
    OrderedLog log → OrderedLog (log ++ events)
  | [], _, h => by simpa using h
  | e :: rest, hno, h => by
    have hsnoc : OrderedLog (log ++ [e]) := h.snoc fun a heq => absurd (heq ▸ List.mem_cons_self) (hno a)
    simpa using OrderedLog.append rest (fun a hmem => hno a (List.mem_cons_of_mem _ hmem)) hsnoc

/-- Steps run one after the other, each in its place. -/
theorem OrderedLog.ran {log : List TxEvent} : ∀ steps : List ℕ, OrderedLog log →
    (∀ before a after, steps = before ++ a :: after → ∀ b ia wa ib wb, .registered a ia wa ∈ log →
      .registered b ib wb ∈ log → a < b → (.ran b ∈ log ∨ b ∈ before ↔ ∀ tx ∈ wa, tx ∉ ib)) →
    OrderedLog (log ++ steps.map .ran)
  | [], h, _ => by simpa using h
  | a :: rest, h, hsteps => by
    have hsnoc : OrderedLog (log ++ [.ran a]) := by
      refine h.snoc fun a' heq b ia wa ib wb ha hb hab => ?_
      obtain rfl := TxEvent.ran.inj heq
      simpa using hsteps [] a rest rfl b ia wa ib wb ha hb hab
    have hrest := OrderedLog.ran rest hsnoc fun before a' after heq b ia wa ib wb ha hb hab => by
      have hran := hsteps (a :: before) a' after (by rw [heq]; rfl) b ia wa ib wb (by simpa using ha)
        (by simpa using hb) hab
      rw [← hran]
      simp [or_assoc]
    simpa using hrest

/-- What was noted within `within` is now in the record `r`, with `outer` around it: the
transactions inside it have committed. -/
def HeldBy (c : Connection) (within : List ℕ) (r : PendingInvalidations)
    (outer : List PendingInvalidations) : Prop :=
  ∃ inner done, c.records = inner ++ r :: outer ∧
    within = done ++ r.tx :: outer.map PendingInvalidations.tx ∧ ∀ tx ∈ done, .committed tx ∈ c.log

/-- Where a step registered within some transactions is. -/
inductive StepFate (c : Connection) (s : ℕ) (within : List ℕ) : Prop
  | pending (r : PendingInvalidations) (outer : List PendingInvalidations) (hheld : c.HeldBy within r outer)
      (hstep : s ∈ r.undo)
  | ran (hdropped : ∃ tx ∈ within, .dropped tx ∈ c.log) (hran : c.log.count (.ran s) = 1)
  | kept (hcommitted : ∀ tx ∈ within, .committed tx ∈ c.log) (hran : .ran s ∉ c.log)
      (hgone : s ∉ pendingSteps c.records)

/-- The step an event registers. -/
def registeredStep : TxEvent → Option ℕ
  | .registered step _ _ => some step
  | _ => none

/-- `y` runs before `x` if both do: it was registered later, when no transaction around
`x` was open inside its own, or earlier, within one open inside that of `x`. -/
def Under (log : List TxEvent) (x y : ℕ) : Prop :=
  ∀ ix wx iy wy, .registered x ix wx ∈ log → .registered y iy wy ∈ log →
    (x < y ∧ ∀ tx ∈ wx, tx ∉ iy) ∨ (y < x ∧ ¬ ∀ tx ∈ wy, tx ∉ ix)

/-- Other steps being registered changes nothing. -/
theorem Under.mono {log log' : List TxEvent} {x y : ℕ} (h : Under log x y)
    (hx : ∀ i w, .registered x i w ∈ log' → .registered x i w ∈ log)
    (hy : ∀ i w, .registered y i w ∈ log' → .registered y i w ∈ log) : Under log' x y :=
  fun ix wx iy wy hregx hregy => h ix wx iy wy (hx ix wx hregx) (hy iy wy hregy)

/-- The steps pending in the open records lie in the order they run in, from the last;
of the steps that are not pending, those that a commit dropped are older than all that
are. -/
structure StepInv (c : Connection) : Prop where
  nodup : (pendingSteps c.records).Nodup
  under : (pendingSteps c.records).Pairwise (Under c.log)
  pending : ∀ s ∈ pendingSteps c.records, s < c.nextStep ∧ .ran s ∉ c.log
  ran : ∀ s, .ran s ∈ c.log → s < c.nextStep
  registered : (c.log.filterMap registeredStep).Pairwise (· < ·)
  registeredLt : ∀ s inside within, .registered s inside within ∈ c.log → s < c.nextStep
  older : ∀ b inside within, .registered b inside within ∈ c.log →
    b ∈ pendingSteps c.records ∨ .ran b ∈ c.log ∨ ∀ s ∈ pendingSteps c.records, b < s
  mixed : ∀ a ∈ pendingSteps c.records, ∀ b ia wa ib wb, .registered a ia wa ∈ c.log →
    .registered b ib wb ∈ c.log → .ran b ∈ c.log → a < b → ∀ tx ∈ wa, tx ∉ ib
  ordered : OrderedLog c.log

/-- Events that neither register nor run a step, while the steps stay pending or the
outermost commit drops them. -/
theorem StepInv.of_log (h : c.StepInv) {events : List TxEvent}
    (hsteps : pendingSteps c'.records = pendingSteps c.records ∨ pendingSteps c'.records = [])
    (hlog : c'.log = c.log ++ events) (hstep : c'.nextStep = c.nextStep)
    (hran : ∀ s, .ran s ∉ events) (hregistered : events.filterMap registeredStep = []) : c'.StepInv := by
  have hold : ∀ s inside within, .registered s inside within ∈ c'.log → .registered s inside within ∈ c.log := by
    intro s inside within hs
    rw [hlog, List.mem_append] at hs
    refine hs.resolve_right fun hmem => ?_
    have : s ∈ events.filterMap registeredStep := List.mem_filterMap.2 ⟨_, hmem, rfl⟩
    rw [hregistered] at this
    cases this
  have hoRan : ∀ s, .ran s ∈ c'.log → .ran s ∈ c.log := by
    intro s hs
    rw [hlog, List.mem_append] at hs
    exact hs.resolve_right (hran s)
  have hsub : (pendingSteps c'.records).Sublist (pendingSteps c.records) := by
    rcases hsteps with heq | heq <;> simp [heq]
  constructor
  · exact h.nodup.sublist hsub
  · exact (h.under.sublist hsub).imp fun hu => hu.mono (hold _) (hold _)
  · intro s hs
    obtain ⟨h1, h2⟩ := h.pending s (hsub.subset hs)
    exact ⟨hstep ▸ h1, fun hmem => h2 (hoRan s hmem)⟩
  · intro s hs
    rw [hstep]
    exact h.ran s (hoRan s hs)
  · simpa [hlog, List.filterMap_append, hregistered] using h.registered
  · intro s inside within hs
    rw [hstep]
    exact h.registeredLt s inside within (hold s inside within hs)
  · intro b inside within hb
    rcases hsteps with heq | heq
    · rw [heq, hlog, List.mem_append]
      rcases h.older b inside within (hold b inside within hb) with h1 | h1 | h1
      · exact Or.inl h1
      · exact Or.inr (Or.inl (Or.inl h1))
      · exact Or.inr (Or.inr h1)
    · exact Or.inr (Or.inr (by simp [heq]))
  · intro a ha b ia wa ib wb hrega hregb hranb
    exact h.mixed a (hsub.subset ha) b ia wa ib wb (hold _ _ _ hrega) (hold _ _ _ hregb) (hoRan b hranb)
  · rw [hlog]
    exact h.ordered.append events hran

/-- A step registered above the steps `low` and under the steps `high`. -/
theorem StepInv.register (h : c.StepInv) {low high inside within : List ℕ}
    (hsteps : pendingSteps c.records = low ++ high) (hsteps' : pendingSteps c'.records = low ++ c.nextStep :: high)
    (hlow : ∀ s ∈ low, ∀ i w, .registered s i w ∈ c.log → ∀ tx ∈ w, tx ∉ inside)
    (hhigh : ∀ s ∈ high, ∀ i w, .registered s i w ∈ c.log → ¬ ∀ tx ∈ w, tx ∉ inside)
    (hlog : c'.log = c.log ++ [.registered c.nextStep inside within]) (hstep : c'.nextStep = c.nextStep + 1) :
    c'.StepInv := by
  have hmem : ∀ s, s ∈ pendingSteps c'.records ↔ s ∈ pendingSteps c.records ∨ s = c.nextStep := by
    intro s
    simp only [hsteps, hsteps', List.mem_append, List.mem_cons]
    tauto
  have hreg : ∀ s i w, .registered s i w ∈ c'.log →
      .registered s i w ∈ c.log ∨ (s = c.nextStep ∧ i = inside ∧ w = within) := by
    intro s i w hs
    rw [hlog, List.mem_append, List.mem_singleton] at hs
    exact hs.imp_right TxEvent.registered.inj
  have hold : ∀ s, s < c.nextStep → ∀ i w, .registered s i w ∈ c'.log → .registered s i w ∈ c.log :=
    fun s hlt i w hs => (hreg s i w hs).resolve_right fun hnew => hlt.ne hnew.1
  have hnew : ∀ i w, .registered c.nextStep i w ∈ c'.log → i = inside ∧ w = within := fun i w hs =>
    ((hreg _ i w hs).resolve_left fun hs => lt_irrefl _ (h.registeredLt _ i w hs)).2
  have hran : ∀ s, .ran s ∈ c'.log ↔ .ran s ∈ c.log := by simp [hlog]
  have hltLow : ∀ s ∈ low, s < c.nextStep := fun s hs => (h.pending s (hsteps ▸ List.mem_append_left _ hs)).1
  have hltHigh : ∀ s ∈ high, s < c.nextStep := fun s hs => (h.pending s (hsteps ▸ List.mem_append_right _ hs)).1
  have hunder := h.under
  rw [hsteps, List.pairwise_append] at hunder
  constructor
  · rw [hsteps', List.nodup_middle, List.nodup_cons, ← hsteps]
    exact ⟨fun hs => lt_irrefl _ (h.pending _ hs).1, h.nodup⟩
  · rw [hsteps', List.pairwise_append, List.pairwise_cons]
    refine ⟨?_, ⟨?_, ?_⟩, ?_⟩
    · exact hunder.1.imp_of_mem fun hx hy hu => hu.mono (hold _ (hltLow _ hx)) (hold _ (hltLow _ hy))
    · intro y hy ix wx iy wy hregx hregy
      obtain ⟨rfl, rfl⟩ := hnew ix wx hregx
      exact Or.inr ⟨hltHigh y hy, hhigh y hy iy wy (hold y (hltHigh y hy) iy wy hregy)⟩
    · exact hunder.2.1.imp_of_mem fun hx hy hu => hu.mono (hold _ (hltHigh _ hx)) (hold _ (hltHigh _ hy))
    · intro x hx y hy
      rcases List.mem_cons.1 hy with rfl | hy
      · intro ix wx iy wy hregx hregy
        obtain ⟨rfl, rfl⟩ := hnew iy wy hregy
        exact Or.inl ⟨hltLow x hx, hlow x hx ix wx (hold x (hltLow x hx) ix wx hregx)⟩
      · exact (hunder.2.2 x hx y hy).mono (hold _ (hltLow _ hx)) (hold _ (hltHigh _ hy))
  · intro s hs
    rw [hstep, hran]
    rcases (hmem s).1 hs with hs | rfl
    · obtain ⟨h1, h2⟩ := h.pending s hs
      exact ⟨Nat.lt_succ_of_lt h1, h2⟩
    · exact ⟨Nat.lt_succ_self _, fun hmem => lt_irrefl _ (h.ran _ hmem)⟩
  · intro s hs
    rw [hstep]
    exact Nat.lt_succ_of_lt (h.ran s ((hran s).1 hs))
  · rw [hlog, List.filterMap_append, List.pairwise_append]
    refine ⟨h.registered, by simp [registeredStep], fun s hs t ht => ?_⟩
    obtain ⟨e, he, heq⟩ := List.mem_filterMap.1 hs
    obtain rfl : t = c.nextStep := by simpa [registeredStep] using ht
    cases e with
    | registered s' inside' within' =>
      obtain rfl := Option.some.inj heq
      exact h.registeredLt s' inside' within' he
    | ran _ | recorded _ _ | applied _ | committed _ | dropped _ => cases heq
  · intro s i w hs
    rw [hstep]
    rcases hreg s i w hs with hs | ⟨rfl, -, -⟩
    · exact Nat.lt_succ_of_lt (h.registeredLt s i w hs)
    · exact Nat.lt_succ_self _
  · intro b i w hb
    rcases hreg b i w hb with hb | ⟨rfl, -, -⟩
    · rcases h.older b i w hb with h1 | h1 | h1
      · exact Or.inl ((hmem b).2 (Or.inl h1))
      · exact Or.inr (Or.inl ((hran b).2 h1))
      · refine Or.inr (Or.inr fun s hs => ?_)
        rcases (hmem s).1 hs with hs | rfl
        · exact h1 s hs
        · exact h.registeredLt b i w hb
    · exact Or.inl ((hmem _).2 (Or.inr rfl))
  · intro a ha b ia wa ib wb hrega hregb hranb hab
    have hltb := h.ran b ((hran b).1 hranb)
    rcases (hmem a).1 ha with ha | rfl
    · exact h.mixed a ha b ia wa ib wb (hold a (h.pending a ha).1 ia wa hrega) (hold b hltb ib wb hregb)
        ((hran b).1 hranb) hab
    · exact absurd hltb (not_lt.2 hab.le)
  · rw [hlog]
    exact h.ordered.append _ (by simp)

/-- When the steps above a pending one have run, the later steps that have run are those
registered with no transaction around that one open inside their own. -/
theorem StepInv.ran_iff (h : c.StepInv) {front back : List ℕ} {a : ℕ} (hsteps : pendingSteps c.records = front ++ a :: back)
    {b : ℕ} {ia wa ib wb : List ℕ} (hrega : .registered a ia wa ∈ c.log) (hregb : .registered b ib wb ∈ c.log) (hab : a < b) :
    (.ran b ∈ c.log ∨ b ∈ back ↔ ∀ tx ∈ wa, tx ∉ ib) := by
  have hunder := h.under
  have hnodup := h.nodup
  rw [hsteps, List.pairwise_append, List.pairwise_cons] at hunder
  rw [hsteps, List.nodup_append, List.nodup_cons] at hnodup
  have ha : a ∈ pendingSteps c.records := by simp [hsteps]
  rcases h.older b ib wb hregb with hpending | hran | holder
  · have hnotRan : .ran b ∉ c.log := (h.pending b hpending).2
    rw [hsteps, List.mem_append, List.mem_cons] at hpending
    rcases hpending with hfront | rfl | hback
    · -- `a` lies above it, so runs first
      have hnotBack : b ∉ back := fun hmem => hnodup.2.2 b hfront b (List.mem_cons_of_mem _ hmem) rfl
      rcases hunder.2.2 b hfront a List.mem_cons_self ib wb ia wa hregb hrega with ⟨hba, -⟩ | ⟨-, hmeet⟩
      · exact absurd hab (not_lt.2 hba.le)
      · exact iff_of_false (not_or.2 ⟨hnotRan, hnotBack⟩) hmeet
    · exact absurd hab (lt_irrefl _)
    · rcases hunder.2.1.1 b hback ia wa ib wb hrega hregb with ⟨-, hdisjoint⟩ | ⟨hba, -⟩
      · exact iff_of_true (Or.inr hback) hdisjoint
      · exact absurd hab (not_lt.2 hba.le)
  · exact iff_of_true (Or.inl hran) (h.mixed a ha b ia wa ib wb hrega hregb hran hab)
  · exact absurd (holder a ha) (not_lt.2 hab.le)

/-- The steps of the innermost record run, from the last. -/
theorem StepInv.run (h : c.StepInv) {undo : List ℕ} {events : List TxEvent}
    (hsteps : pendingSteps c.records = pendingSteps c'.records ++ undo)
    (hlog : c'.log = c.log ++ events ++ undo.reverse.map .ran) (hstep : c'.nextStep = c.nextStep)
    (hran : ∀ s, .ran s ∉ events) (hregistered : events.filterMap registeredStep = []) : c'.StepInv := by
  -- the events before the steps, with the steps still pending
  have hbefore : StepInv { c with log := c.log ++ events } := h.of_log (Or.inl rfl) rfl rfl hran hregistered
  have hnodup := h.nodup
  rw [hsteps, List.nodup_append] at hnodup
  obtain ⟨hrest, -, hne⟩ := hnodup
  have hunder : (pendingSteps c'.records ++ undo).Pairwise (Under (c.log ++ events)) := hsteps ▸ hbefore.under
  rw [List.pairwise_append] at hunder
  obtain ⟨hunderRest, -, hunderBoth⟩ := hunder
  have hpending : ∀ s ∈ undo, s ∈ pendingSteps c.records := fun s hs => hsteps ▸ List.mem_append_right _ hs
  have hreg : ∀ b i w, TxEvent.registered b i w ∈ c'.log ↔ .registered b i w ∈ c.log ++ events := by
    simp [hlog]
  have hranIff : ∀ s, TxEvent.ran s ∈ c'.log ↔ .ran s ∈ c.log ++ events ∨ s ∈ undo := by
    simp [hlog, or_assoc]
  constructor
  · exact hrest
  · exact hunderRest.imp fun hu => hu.mono (fun i w => (hreg _ i w).1) fun i w => (hreg _ i w).1
  · intro s hs
    obtain ⟨h1, h2⟩ := hbefore.pending s (hsteps ▸ List.mem_append_left _ hs)
    refine ⟨hstep ▸ h1, fun hmem => ?_⟩
    rcases (hranIff s).1 hmem with hmem | hmem
    · exact h2 hmem
    · exact hne s hs s hmem rfl
  · intro s hs
    rw [hstep]
    rcases (hranIff s).1 hs with hs | hs
    · exact hbefore.ran s hs
    · exact (h.pending s (hpending s hs)).1
  · rw [hlog, List.filterMap_append]
    have : (undo.reverse.map TxEvent.ran).filterMap registeredStep = [] := by simp [registeredStep]
    rw [this, List.append_nil]
    exact hbefore.registered
  · intro s i w hs
    rw [hstep]
    exact hbefore.registeredLt s i w ((hreg s i w).1 hs)
  · intro b i w hb
    rcases hbefore.older b i w ((hreg b i w).1 hb) with h1 | h1 | h1
    · have hb' : b ∈ pendingSteps c'.records ++ undo := hsteps ▸ h1
      exact (List.mem_append.1 hb').imp_right fun h1 => Or.inl ((hranIff b).2 (Or.inr h1))
    · exact Or.inr (Or.inl ((hranIff b).2 (Or.inl h1)))
    · exact Or.inr (Or.inr fun s hs => h1 s (hsteps ▸ List.mem_append_left _ hs))
  · intro a ha b ia wa ib wb hrega hregb hranb hab
    rw [hreg] at hrega hregb
    rcases (hranIff b).1 hranb with hranb | hb
    · exact hbefore.mixed a (hsteps ▸ List.mem_append_left _ ha) b ia wa ib wb hrega hregb hranb hab
    · rcases hunderBoth a ha b hb ia wa ib wb hrega hregb with ⟨-, hdisjoint⟩ | ⟨hba, -⟩
      · exact hdisjoint
      · exact absurd hab (not_lt.2 hba.le)
  · rw [hlog]
    refine hbefore.ordered.ran _ fun before a after heq b ia wa ib wb hrega hregb hab => ?_
    have hundo' : undo = after.reverse ++ a :: before.reverse := by
      rw [← List.reverse_reverse undo, heq]
      simp
    have hsplit : pendingSteps c.records = (pendingSteps c'.records ++ after.reverse) ++ a :: before.reverse := by
      rw [hsteps, hundo', List.append_assoc]
    rw [← hbefore.ran_iff hsplit hrega hregb hab, List.mem_reverse]

theorem pendingSteps_handed (r : PendingInvalidations) (rest : List PendingInvalidations) :
    pendingSteps (rest.modifyHead fun e => { e with undo := e.undo ++ r.undo }) = pendingSteps (r :: rest) ∨
      pendingSteps (rest.modifyHead fun e => { e with undo := e.undo ++ r.undo }) = [] := by
  cases rest with
  | nil => exact Or.inr rfl
  | cons e outer => exact Or.inl (by simp [pendingSteps_cons])

theorem mem_pendingSteps {records : List PendingInvalidations} {r : PendingInvalidations} (hr : r ∈ records)
    {s : ℕ} (hs : s ∈ r.undo) : s ∈ pendingSteps records := by
  simp only [pendingSteps, List.mem_flatMap, List.mem_reverse]
  exact ⟨r, hr, hs⟩

/-- The steps in a record and those around it were registered within no transaction open
inside it, and those of the records inside it were. -/
theorem StepFate.inside (hinv : c.StepInv) (htxs : c.TxInv) {inner outer : List PendingInvalidations}
    (hrecords : c.records = inner ++ outer) {s : ℕ} {within : List ℕ} (h : c.StepFate s within)
    (hs : s ∈ pendingSteps c.records) :
    (∀ tx ∈ within, tx ∉ inner.map PendingInvalidations.tx) ↔ s ∈ pendingSteps outer := by
  have hnodup := hinv.nodup
  rw [hrecords, pendingSteps_append, List.nodup_append] at hnodup
  cases h with
  | pending r rest hheld hstep =>
    obtain ⟨front, done, hsplit, hwithin, hdone⟩ := hheld
    by_cases hr : r ∈ inner
    · refine iff_of_false (fun hno => hno r.tx (by simp [hwithin]) (List.mem_map_of_mem hr)) fun hout => ?_
      exact hnodup.2.2 s hout s (mem_pendingSteps hr hstep) rfl
    · obtain ⟨middle, houter⟩ : ∃ middle, outer = middle ++ r :: rest := by
        rcases List.append_eq_append_iff.1 (hrecords.symm.trans hsplit) with ⟨middle, -, houter⟩ | ⟨middle, hinner, hrest⟩
        · exact ⟨middle, houter⟩
        · cases middle with
          | nil => exact ⟨[], hrest.symm⟩
          | cons r' middle =>
            obtain ⟨rfl, -⟩ := List.cons.inj hrest
            exact absurd (by simp [hinner]) hr
      refine iff_of_true (fun tx htx hin => ?_) (mem_pendingSteps (by simp [houter]) hstep)
      have htxsNodup := htxs.nodup
      rw [openTxs, hrecords, List.map_append, List.nodup_append] at htxsNodup
      rw [hwithin, List.mem_append] at htx
      rcases htx with htx | htx
      · exact (htxs.isOpen tx (by rw [openTxs, hrecords, List.map_append]; exact List.mem_append_left _ hin)).2.1
          (hdone tx htx)
      · refine htxsNodup.2.2 tx hin tx ?_ rfl
        rw [houter, List.map_append]
        exact List.mem_append_right _ htx
  | ran _ hran => exact absurd (List.count_pos_iff.1 (by omega)) (hinv.pending s hs).2
  | kept _ _ hgone => exact absurd hs hgone

theorem StepInv.move (h : c.StepInv) (htxs : c.TxInv)
    (hfates : ∀ s inside within, .registered s inside within ∈ c.log → c.StepFate s within) (hmove : Move c c') :
    c'.StepInv := by
  cases hmove with
  | quiet invs hkeeps hlog _ hstep =>
    exact h.of_log (Or.inl (pendingSteps_keeps hkeeps)) hlog hstep (by simp) (by simp [registeredStep])
  | recorded i inv hkeeps _ hlog _ hstep =>
    exact h.of_log (Or.inl (pendingSteps_keeps hkeeps)) hlog hstep (by simp) (by simp [registeredStep])
  | began r hrecords hr hundo hlog _ hstep =>
    have hsteps : pendingSteps c'.records = pendingSteps c.records := by
      simp [hrecords, pendingSteps_cons, hundo]
    exact h.of_log (Or.inl hsteps) (hlog.trans (List.append_nil _).symm) hstep (by simp) rfl
  | registered inner r outer hrecords hrecords' hlog _ hstep =>
    have hsteps : pendingSteps c.records = pendingSteps (r :: outer) ++ pendingSteps inner := by
      rw [hrecords, pendingSteps_append]
    have hnodup := h.nodup
    rw [hsteps, List.nodup_append] at hnodup
    refine h.register hsteps ?_ (fun s hs i w hreg => ?_) (fun s hs i w hreg hno => ?_) hlog hstep
    · simp [hrecords', pendingSteps_append, pendingSteps_cons]
    · exact ((hfates s i w hreg).inside h htxs hrecords (hsteps ▸ List.mem_append_left _ hs)).2 hs
    · have hlow := ((hfates s i w hreg).inside h htxs hrecords (hsteps ▸ List.mem_append_right _ hs)).1 hno
      exact hnodup.2.2 s hlow s hs rfl
  | committed r rest hrecords hkeeps _ hlog _ _ hstep =>
    refine h.of_log ?_ hlog hstep (by simp) (by simp [registeredStep])
    rw [pendingSteps_keeps hkeeps, hrecords]
    exact pendingSteps_handed r rest
  | dropped r rest invs hrecords hkeeps hlog _ hstep =>
    have hsteps : pendingSteps c.records = pendingSteps c'.records ++ r.undo := by
      rw [hrecords, pendingSteps_cons, pendingSteps_keeps hkeeps]
    have hlog' : c'.log = c.log ++ (invs.map .applied ++ [.dropped r.tx]) ++ r.undo.reverse.map .ran := by
      simp [hlog]
    exact h.run hsteps hlog' hstep (by simp) (by simp [registeredStep])

theorem grown_split {inner outer records : List PendingInvalidations} {r : PendingInvalidations}
    (h : List.Forall₂ Grown (inner ++ r :: outer) records) :
    ∃ inner' r' outer', records = inner' ++ r' :: outer' ∧ r.Grown r' ∧ List.Forall₂ Grown outer outer' := by
  induction inner generalizing records with
  | nil =>
    obtain ⟨r', outer', hr, houter, rfl⟩ := List.forall₂_cons_left_iff.1 h
    exact ⟨[], r', outer', rfl, hr, houter⟩
  | cons r0 inner ih =>
    obtain ⟨r0', rest, -, hrest, rfl⟩ := List.forall₂_cons_left_iff.1 h
    obtain ⟨inner', r', outer', rfl, hr, houter⟩ := ih hrest
    exact ⟨r0' :: inner', r', outer', rfl, hr, houter⟩

/-- More undo steps in one of the records. -/
theorem grown_more (inner : List PendingInvalidations) (r : PendingInvalidations)
    (outer : List PendingInvalidations) (steps : List ℕ) :
    List.Forall₂ Grown (inner ++ r :: outer) (inner ++ { r with undo := r.undo ++ steps } :: outer) := by
  have hrefl : ∀ records : List PendingInvalidations, List.Forall₂ Grown records records := fun records =>
    (keeps_refl records).imp fun _ _ hr => hr.grown
  have hmore : r.Grown { r with undo := r.undo ++ steps } :=
    ⟨⟨fun s hs => List.mem_append_left _ hs, fun _ hc => hc⟩, rfl⟩
  exact List.rel_append (hrefl inner) (.cons hmore (hrefl outer))

theorem grown_handed (r : PendingInvalidations) (rest : List PendingInvalidations) :
    List.Forall₂ Grown rest (rest.modifyHead fun e => { e with undo := e.undo ++ r.undo }) := by
  cases rest with
  | nil => exact .nil
  | cons e outer => exact grown_more [] e outer r.undo

section

variable {within : List ℕ} {r : PendingInvalidations} {outer : List PendingInvalidations}

theorem HeldBy.grown (h : c.HeldBy within r outer) (hgrown : List.Forall₂ Grown c.records c'.records)
    (hlog : ∀ e ∈ c.log, e ∈ c'.log) : ∃ r' outer', c'.HeldBy within r' outer' ∧ r.Within r' := by
  obtain ⟨inner, done, hrecords, hwithin, hdone⟩ := h
  rw [hrecords] at hgrown
  obtain ⟨inner', r', outer', hrecords', hr, houter⟩ := grown_split hgrown
  refine ⟨r', outer', ⟨inner', done, hrecords', ?_, fun tx htx => hlog _ (hdone tx htx)⟩, hr.toWithin⟩
  rw [hwithin, hr.tx, openTxs_grown houter]

theorem HeldBy.keeps (h : c.HeldBy within r outer) (hkeeps : List.Forall₂ Keeps c.records c'.records)
    (hlog : ∀ e ∈ c.log, e ∈ c'.log) : ∃ r' outer', c'.HeldBy within r' outer' ∧ r.Within r' :=
  h.grown (hkeeps.imp fun _ _ hr => hr.grown) hlog

/-- What was noted within transactions stays in one of their records until the outermost
commits or one of them is dropped. -/
theorem HeldBy.move (h : c.HeldBy within r outer) (hmove : Move c c') :
    (∃ r' outer', c'.HeldBy within r' outer' ∧ r.Within r') ∨
    (c.records = [r] ∧ c'.records = [] ∧ (∀ tx ∈ within, .committed tx ∈ c'.log) ∧
      c'.log = c.log ++ .committed r.tx :: r.replayed.map .applied ∧
      c'.cache = r.replayed.foldl Invalidation.apply c.cache) ∨
    (∃ rest, ∃ invs : List Invalidation, c.records = r :: rest ∧
      c'.log = c.log ++ invs.map .applied ++ .dropped r.tx :: r.undo.reverse.map .ran) := by
  cases hmove with
  | quiet invs hkeeps hlog _ _ => exact Or.inl (h.keeps hkeeps (by simp +contextual [hlog]))
  | recorded i inv hkeeps _ hlog _ _ => exact Or.inl (h.keeps hkeeps (by simp +contextual [hlog]))
  | began r0 hrecords hr hundo hlog _ _ =>
    obtain ⟨inner, done, hsplit, hwithin, hdone⟩ := h
    exact Or.inl ⟨r, outer, ⟨r0 :: inner, done, by rw [hrecords, hsplit]; rfl, hwithin, hlog ▸ hdone⟩,
      fun _ hs => hs, fun _ hc => hc⟩
  | registered inner noted rest hrecords hrecords' hlog _ _ =>
    refine Or.inl (h.grown ?_ (by simp +contextual [hlog]))
    rw [hrecords, hrecords']
    exact grown_more inner noted rest [c.nextStep]
  | committed first rest hrecords hkeeps hcovers hlog hcache _ _ =>
    obtain ⟨inner, done, hsplit, hwithin, hdone⟩ := h
    rw [hrecords] at hsplit
    have hmono : ∀ e ∈ c.log, e ∈ c'.log := by simp +contextual [hlog]
    cases inner with
    | nil =>
      obtain ⟨rfl, rfl⟩ := List.cons.inj hsplit
      have hdone' : ∀ tx ∈ done ++ [first.tx], .committed tx ∈ c'.log := by
        intro tx htx
        rcases List.mem_append.1 htx with htx | htx
        · exact hmono _ (hdone tx htx)
        · simp [hlog, List.mem_singleton.1 htx]
      cases rest with
      | nil =>
        refine Or.inr (Or.inl ⟨hrecords, List.forall₂_nil_left_iff.1 hkeeps, ?_, hlog, hcache⟩)
        simpa [hwithin] using hdone'
      | cons e outer =>
        -- the enclosing record now holds it
        obtain ⟨e', outer', he, houter, heq⟩ := List.forall₂_cons_left_iff.1 hkeeps
        refine Or.inl ⟨e', outer', ⟨[], done ++ [first.tx], heq, ?_, hdone'⟩, ?_, ?_⟩
        · rw [hwithin, he.tx, openTxs_keeps houter]
          simp
        · intro s hs
          rw [he.undo]
          exact List.mem_append_right _ hs
        · exact fun inv hinv => hcovers inv hinv e' (by simp [heq])
    | cons _ inner =>
      rw [List.cons_append] at hsplit
      obtain ⟨rfl, rfl⟩ := List.cons.inj hsplit
      have hheld : HeldBy { c with records := inner ++ r :: outer } within r outer :=
        ⟨inner, done, rfl, hwithin, hdone⟩
      have hgrown := grown_handed first (inner ++ r :: outer)
      generalize (inner ++ r :: outer).modifyHead (fun e => { e with undo := e.undo ++ first.undo }) = handed
        at hkeeps hgrown
      obtain ⟨r', outer', hr', hin⟩ : ∃ r' outer', HeldBy { c with records := handed } within r' outer' ∧ r.Within r' :=
        hheld.grown hgrown fun _ he => he
      obtain ⟨r'', outer'', hr'', hin'⟩ := hr'.keeps hkeeps hmono
      exact Or.inl ⟨r'', outer'', hr'', hin.trans hin'⟩
  | dropped first rest invs hrecords hkeeps hlog _ _ =>
    obtain ⟨inner, done, hsplit, hwithin, hdone⟩ := h
    rw [hrecords] at hsplit
    cases inner with
    | nil =>
      obtain ⟨rfl, rfl⟩ := List.cons.inj hsplit
      exact Or.inr (Or.inr ⟨_, invs, hrecords, hlog⟩)
    | cons _ inner =>
      rw [List.cons_append] at hsplit
      obtain ⟨rfl, rfl⟩ := List.cons.inj hsplit
      have hheld : HeldBy { c with records := inner ++ r :: outer } within r outer :=
        ⟨inner, done, rfl, hwithin, hdone⟩
      exact Or.inl (hheld.keeps hkeeps (by simp +contextual [hlog]))

end

/-- The steps pending after a move were pending before, or are new. -/
theorem Move.pendingSteps (h : Move c c') : ∀ s ∈ pendingSteps c'.records,
    s ∈ pendingSteps c.records ∨ s = c.nextStep := by
  cases h with
  | quiet invs hkeeps => simp +contextual [pendingSteps_keeps hkeeps]
  | recorded i inv hkeeps => simp +contextual [pendingSteps_keeps hkeeps]
  | began r hrecords hr hundo => simp +contextual [hrecords, pendingSteps_cons, hundo]
  | registered inner r outer hrecords hrecords' =>
    intro s hs
    simp only [hrecords', pendingSteps_append, pendingSteps_cons, List.mem_append, List.mem_singleton] at hs
    simp only [hrecords, pendingSteps_append, pendingSteps_cons, List.mem_append]
    tauto
  | committed r rest hrecords hkeeps =>
    intro s hs
    rw [pendingSteps_keeps hkeeps] at hs
    rcases pendingSteps_handed r rest with heq | heq
    · exact Or.inl (by rwa [hrecords, ← heq])
    · rw [heq] at hs
      cases hs
  | dropped r rest invs hrecords hkeeps =>
    intro s hs
    rw [pendingSteps_keeps hkeeps] at hs
    exact Or.inl (by rw [hrecords, pendingSteps_cons]; exact List.mem_append_left _ hs)

theorem Move.log_mono (h : Move c c') : ∃ events, c'.log = c.log ++ events := by
  cases h with
  | quiet invs _ hlog => exact ⟨_, hlog⟩
  | recorded i inv _ _ hlog => exact ⟨_, hlog⟩
  | began r _ _ _ hlog => exact ⟨[], by simp [hlog]⟩
  | registered inner r outer _ _ hlog => exact ⟨_, hlog⟩
  | committed r rest _ _ _ hlog => exact ⟨_, hlog⟩
  | dropped r rest invs _ _ hlog => exact ⟨_, by rw [hlog, List.append_assoc]⟩

theorem Move.mem_log (h : Move c c') {e : TxEvent} (he : e ∈ c.log) : e ∈ c'.log := by
  obtain ⟨events, hlog⟩ := h.log_mono
  rw [hlog]
  exact List.mem_append_left _ he

/-- A step that is not pending does not run. -/
theorem Move.count_ran (h : Move c c') {s : ℕ} (hs : s ∉ Connection.pendingSteps c.records) :
    c'.log.count (.ran s) = c.log.count (.ran s) := by
  obtain ⟨events, hlog, hno⟩ : ∃ events, c'.log = c.log ++ events ∧ .ran s ∉ events := by
    cases h with
    | quiet invs _ hlog => exact ⟨_, hlog, by simp⟩
    | recorded i inv _ _ hlog => exact ⟨_, hlog, by simp⟩
    | began r _ _ _ hlog => exact ⟨[], by simp [hlog], by simp⟩
    | registered inner r outer _ _ hlog => exact ⟨_, hlog, by simp⟩
    | committed r rest _ _ _ hlog => exact ⟨_, hlog, by simp⟩
    | dropped r rest invs hrecords _ hlog =>
      refine ⟨_, hlog.trans (List.append_assoc _ _ _), ?_⟩
      rw [hrecords, pendingSteps_cons, List.mem_append, not_or] at hs
      simpa using hs.2
  rw [hlog, List.count_append, List.count_eq_zero_of_not_mem hno, Nat.add_zero]

theorem count_ran_undo {undo : List ℕ} (hnodup : undo.Nodup) {s : ℕ} (hs : s ∈ undo) :
    (undo.reverse.map TxEvent.ran).count (.ran s) = 1 := by
  rw [List.count_map_of_injective _ _ fun _ _ h => TxEvent.ran.inj h, List.count_reverse]
  exact List.count_eq_one_of_mem hnodup hs

theorem StepFate.move {s : ℕ} {within : List ℕ} (h : c.StepFate s within) (hinv : c.StepInv)
    (hlt : s < c.nextStep) (hmove : Move c c') : c'.StepFate s within := by
  cases h with
  | pending r outer hheld hs =>
    have hmem : s ∈ Connection.pendingSteps c.records := by
      obtain ⟨inner, -, hsplit, -, -⟩ := hheld
      exact mem_pendingSteps (by simp [hsplit]) hs
    obtain ⟨-, hnot⟩ := hinv.pending s hmem
    rcases hheld.move hmove with ⟨r', outer', hheld', hin⟩ | ⟨hrecords, hrecords', hall, hlog, -⟩ |
        ⟨rest, invs, hrecords, hlog⟩
    · exact .pending r' outer' hheld' (hin.undo s hs)
    · refine .kept hall ?_ (by simp [hrecords', Connection.pendingSteps])
      simpa [hlog] using hnot
    · -- its record is dropped
      obtain ⟨inner, done, hsplit, hwithin, -⟩ := hheld
      refine .ran ⟨r.tx, by simp [hwithin], by simp [hlog]⟩ ?_
      have hnodup := hinv.nodup
      rw [hrecords, pendingSteps_cons, List.nodup_append] at hnodup
      rw [hlog, List.count_append, List.count_append, List.count_cons_of_ne (by simp),
        List.count_eq_zero_of_not_mem hnot, List.count_eq_zero_of_not_mem (by simp),
        count_ran_undo hnodup.2.1 hs]
  | ran hdropped hran =>
    obtain ⟨tx, htx, hd⟩ := hdropped
    refine .ran ⟨tx, htx, hmove.mem_log hd⟩ ?_
    rw [hmove.count_ran fun hmem => ?_, hran]
    have hmem' : .ran s ∈ c.log := List.count_pos_iff.1 (by omega)
    exact (hinv.pending s hmem).2 hmem'
  | kept hcommitted hran hgone =>
    refine .kept (fun tx htx => hmove.mem_log (hcommitted tx htx)) ?_ fun hmem => ?_
    · rw [← List.count_eq_zero, hmove.count_ran hgone]
      exact List.count_eq_zero_of_not_mem hran
    · rcases hmove.pendingSteps s hmem with hmem | heq
      · exact hgone hmem
      · exact absurd heq hlt.ne

/-- Where an invalidation recorded within some transactions is. -/
inductive InvalidationFate (c : Connection) (inv : Invalidation) (within : List ℕ) : Prop
  | pending (r : PendingInvalidations) (outer : List PendingInvalidations) (hheld : c.HeldBy within r outer)
      (hcovers : r.Covers inv)
  | dropped (hdropped : ∃ tx ∈ within, .dropped tx ∈ c.log)
  | applied (root : ℕ) (noted : Invalidation) (hroot : within.getLast? = some root) (hnoted : noted.Covers inv)
      (hcommitted : ∀ tx ∈ within, .committed tx ∈ c.log)
      (happlied : [.committed root, .applied noted].Sublist c.log)

theorem InvalidationFate.move {inv : Invalidation} {within : List ℕ} (h : c.InvalidationFate inv within)
    (hmove : Move c c') : c'.InvalidationFate inv within := by
  cases h with
  | pending r outer hheld hcovers =>
    rcases hheld.move hmove with ⟨r', outer', hheld', hin⟩ | ⟨hrecords, hrecords', hall, hlog, -⟩ |
        ⟨rest, invs, hrecords, hlog⟩
    · exact .pending r' outer' hheld' (hin.covers inv hcovers)
    · obtain ⟨inner, done, hsplit, hwithin, -⟩ := hheld
      obtain ⟨noted, hmem, hnoted⟩ := hcovers
      have houter : outer = [] := by
        rw [hrecords] at hsplit
        cases inner with
        | nil => exact (List.cons.inj hsplit).2.symm
        | cons r0 inner =>
          rw [List.cons_append] at hsplit
          simpa using (List.cons.inj hsplit).2
      refine .applied r.tx noted ?_ hnoted hall ?_
      · simp [hwithin, houter]
      · rw [hlog]
        refine List.Sublist.trans ?_ (List.sublist_append_right _ _)
        exact (List.singleton_sublist.2 (List.mem_map.2 ⟨noted, hmem, rfl⟩)).cons_cons _
    · obtain ⟨inner, done, hsplit, hwithin, -⟩ := hheld
      exact .dropped ⟨r.tx, by simp [hwithin], by simp [hlog]⟩
  | dropped hdropped =>
    obtain ⟨tx, htx, hd⟩ := hdropped
    exact .dropped ⟨tx, htx, hmove.mem_log hd⟩
  | applied root noted hroot hnoted hcommitted happlied =>
    obtain ⟨events, hlog⟩ := hmove.log_mono
    refine .applied root noted hroot hnoted (fun tx htx => hmove.mem_log (hcommitted tx htx)) ?_
    rw [hlog]
    exact happlied.trans (List.sublist_append_left _ _)

structure Inv (c : Connection) : Prop where
  txs : c.TxInv
  steps : c.StepInv
  stepFates : ∀ s inside within, .registered s inside within ∈ c.log → c.StepFate s within
  invalidationFates : ∀ inv within, .recorded inv within ∈ c.log → within ≠ [] → c.InvalidationFate inv within

/-- What is noted in a record is held there. -/
theorem heldBy_noted {inner outer : List PendingInvalidations} {r : PendingInvalidations}
    (h : c.records = inner ++ r :: outer) : c.HeldBy ((r :: outer).map PendingInvalidations.tx) r outer :=
  ⟨inner, [], h, rfl, by simp⟩

theorem Inv.move (h : c.Inv) (hmove : Move c c') : c'.Inv := by
  refine ⟨h.txs.move hmove, h.steps.move h.txs h.stepFates hmove, fun s inside within hs => ?_,
    fun inv within hinv hne => ?_⟩
  · by_cases hold : .registered s inside within ∈ c.log
    · exact (h.stepFates s inside within hold).move h.steps (h.steps.registeredLt s inside within hold) hmove
    · cases hmove with
      | registered inner r outer hrecords hrecords' hlog _ _ =>
        rw [hlog, List.mem_append, List.mem_singleton] at hs
        obtain ⟨rfl, -, rfl⟩ := TxEvent.registered.inj (hs.resolve_left hold)
        have hheld := heldBy_noted hrecords'
        exact .pending _ outer hheld (by simp)
      | quiet invs _ hlog => exact absurd (by simpa [hlog] using hs) hold
      | recorded i inv _ _ hlog => exact absurd (by simpa [hlog] using hs) hold
      | began r _ _ _ hlog => exact absurd (by simpa [hlog] using hs) hold
      | committed r rest _ _ _ hlog => exact absurd (by simpa [hlog] using hs) hold
      | dropped r rest invs _ _ hlog => exact absurd (by simpa [hlog] using hs) hold
  · by_cases hold : .recorded inv within ∈ c.log
    · exact (h.invalidationFates inv within hold hne).move hmove
    · cases hmove with
      | recorded i inv' hkeeps hcovers hlog _ _ =>
        have heq : TxEvent.recorded inv within = .recorded inv' (c.openTxs.drop i) := by
          rw [hlog, List.mem_append] at hinv
          simpa using hinv.resolve_left hold
        obtain ⟨rfl, rfl⟩ := TxEvent.recorded.inj heq
        have hopen : c.openTxs.drop i = (c'.records.drop i).map PendingInvalidations.tx := by
          rw [openTxs, ← openTxs_keeps hkeeps, List.map_drop]
        cases hdrop : c'.records.drop i with
        | nil => exact absurd (by rw [hopen, hdrop]; rfl) hne
        | cons r outer =>
          have hrecords : c'.records = c'.records.take i ++ r :: outer := by
            rw [← hdrop, List.take_append_drop]
          have hr : r ∈ c'.records[i]? := by
            rw [← List.head?_drop, hdrop]
            rfl
          rw [hopen, hdrop]
          exact .pending r outer (heldBy_noted hrecords) (hcovers r hr)
      | registered inner r outer _ _ hlog => exact absurd (by simpa [hlog] using hinv) hold
      | quiet invs _ hlog => exact absurd (by simpa [hlog] using hinv) hold
      | began r _ _ _ hlog => exact absurd (by simpa [hlog] using hinv) hold
      | committed r rest _ _ _ hlog => exact absurd (by simpa [hlog] using hinv) hold
      | dropped r rest invs _ _ hlog => exact absurd (by simpa [hlog] using hinv) hold

theorem inv_new (cache : QueryCache) : (new cache).Inv := by
  refine ⟨⟨List.nodup_nil, ?_, ?_, ?_⟩, ⟨List.nodup_nil, List.Pairwise.nil, ?_, ?_, List.Pairwise.nil, ?_, ?_, ?_, ?_⟩,
    ?_, ?_⟩
  all_goals simp [new, openTxs, pendingSteps, OrderedLog]

theorem inv_run (cache : QueryCache) (ops : List TxOp) : ((new cache).run ops).Inv := by
  have hrun : ∀ (ops : List TxOp) (c : Connection), c.Inv → (c.run ops).Inv := by
    intro ops
    induction ops with
    | nil => intro c h; exact h
    | cons op rest ih => intro c h; exact ih _ (h.move (move_step c op))
  exact hrun ops _ (inv_new cache)

end TideOrm.Connection

namespace TideOrm

open Lib

/-- The entries an invalidation removes. -/
def Invalidation.Clears (inv : Invalidation) (entry : CacheEntry) : Prop :=
  match inv with
  | .table name => entry.readsTable (toAsciiLowercase name) = true
  | .database name => (entry.database.all fun scope => scope == name) = true
  | .all => True

theorem Invalidation.Covers.clears {noted inv : Invalidation} (h : noted.Covers inv) {entry : CacheEntry}
    (hinv : inv.Clears entry) : noted.Clears entry := by
  cases noted with
  | all => exact trivial
  | table name =>
    cases inv with
    | table name' => exact (congrArg (entry.readsTable · = true) h).mpr hinv
    | database _ | all => exact h.elim
  | database name =>
    cases inv with
    | database name' => exact (show name = name' from h) ▸ hinv
    | table _ | all => exact h.elim

theorem CacheStore.lookup_removeWhere {s : CacheStore} {predicate : CacheEntry → Bool} {key : String}
    {entry : CacheEntry} (h : (s.removeWhere predicate).2.entries.lookup key = some entry) :
    s.entries.lookup key = some entry ∧ predicate entry = false := by
  have hentries : (s.removeWhere predicate).2.entries = s.entries.retain fun _ e => !predicate e := by
    unfold removeWhere
    dsimp only
    split_ifs
    · exact maybeRebuildIndexes_entries _
    · rfl
  rw [hentries, AList.lookup_retain] at h
  simpa using h

/-- An invalidation only removes entries, and leaves none that it clears. -/
theorem Invalidation.lookup_apply {inv : Invalidation} {cache : QueryCache} {key : String} {entry : CacheEntry}
    (h : (inv.apply cache).cache.entries.lookup key = some entry) :
    cache.cache.entries.lookup key = some entry ∧ ¬ inv.Clears entry := by
  cases inv with
  | table name =>
    obtain ⟨hlook, hpred⟩ := CacheStore.lookup_removeWhere h
    exact ⟨hlook, by simp [Clears, hpred]⟩
  | database name =>
    obtain ⟨hlook, hpred⟩ := CacheStore.lookup_removeWhere h
    exact ⟨hlook, by simp only [Clears, hpred]; simp⟩
  | all => cases h

theorem Invalidation.lookup_foldl_apply (l : List Invalidation) {key : String} {entry : CacheEntry} :
    ∀ {cache : QueryCache}, (l.foldl Invalidation.apply cache).cache.entries.lookup key = some entry →
      cache.cache.entries.lookup key = some entry ∧ ∀ inv ∈ l, ¬ inv.Clears entry := by
  induction l with
  | nil => intro cache h; exact ⟨h, by simp⟩
  | cons inv rest ih =>
    intro cache h
    obtain ⟨hlook, hrest⟩ := ih h
    obtain ⟨hlook', hinv⟩ := lookup_apply hlook
    exact ⟨hlook', by simpa using ⟨hinv, hrest⟩⟩

namespace Connection

variable {c c' : Connection}

/-- When the last of the transactions around an invalidation commits, the cache holds
nothing that the invalidation clears. -/
theorem cache_cleared (hinv : c.Inv) (hmove : Move c c') {inv : Invalidation} {within : List ℕ}
    (hrec : .recorded inv within ∈ c.log) (hne : within ≠ []) (hbefore : ¬ ∀ tx ∈ within, .committed tx ∈ c.log)
    (hafter : ∀ tx ∈ within, .committed tx ∈ c'.log) {key : String} {entry : CacheEntry}
    (hentry : c'.cache.cache.entries.lookup key = some entry) : ¬ inv.Clears entry := by
  have hinv' := hinv.move hmove
  have hopen : ∀ {r : PendingInvalidations} {outer : List PendingInvalidations}, ¬ c'.HeldBy within r outer := by
    rintro r outer ⟨inner, done, hrecords, hwithin, -⟩
    have hmem : r.tx ∈ c'.openTxs := by simp [openTxs, hrecords]
    exact (hinv'.txs.isOpen r.tx hmem).2.1 (hafter r.tx (by simp [hwithin]))
  have hnotDropped : ∀ tx ∈ within, .dropped tx ∉ c'.log := fun tx htx => (hinv'.txs.committed tx (hafter tx htx)).2
  cases hinv.invalidationFates inv within hrec hne with
  | pending r outer hheld hcovers =>
    rcases hheld.move hmove with ⟨r', outer', hheld', -⟩ | ⟨-, -, -, -, hcache⟩ | ⟨rest, invs, -, hlog⟩
    · exact absurd hheld' hopen
    · obtain ⟨noted, hmem, hnoted⟩ := hcovers
      rw [hcache] at hentry
      obtain ⟨-, hnone⟩ := Invalidation.lookup_foldl_apply r.replayed hentry
      exact fun hclears => hnone noted hmem (hnoted.clears hclears)
    · obtain ⟨inner, done, -, hwithin, -⟩ := hheld
      exact absurd (by simp [hlog]) (hnotDropped r.tx (by simp [hwithin]))
  | dropped hdropped =>
    obtain ⟨tx, htx, hd⟩ := hdropped
    exact absurd (hmove.mem_log hd) (hnotDropped tx htx)
  | applied root noted _ _ hcommitted _ => exact absurd hcommitted hbefore

theorem run_append (c : Connection) (ops ops' : List TxOp) : c.run (ops ++ ops') = (c.run ops).run ops' :=
  List.foldl_append

/-- Steps are registered in the order of their numbers. -/
theorem StepInv.registered_lt (h : c.StepInv) {a b : ℕ} {ia wa ib wb : List ℕ}
    (hsub : [.registered a ia wa, .registered b ib wb].Sublist c.log) : a < b := by
  have := h.registered.sublist (hsub.filterMap registeredStep)
  simpa [registeredStep] using this

/-- Every run of nested transactions that has ended. A step registered within some
transactions runs once if one of them did not commit, and never otherwise. When a step
runs, each step registered after it by then has run, unless it was registered in a
transaction with one around the first step open inside it: that one has not. An
invalidation whose transactions all commit is applied after the outermost commits, which
leaves nothing in the cache that it clears. -/
theorem nested_transactions (cache : QueryCache) (ops : List TxOp)
    (hended : ((new cache).run ops).records = []) :
    (∀ step inside within, .registered step inside within ∈ ((new cache).run ops).log →
      ((new cache).run ops).log.count (.ran step) =
        if ∀ tx ∈ within, .committed tx ∈ ((new cache).run ops).log then 0 else 1) ∧
    (∀ before a after, ((new cache).run ops).log = before ++ .ran a :: after →
      ∀ b ia wa ib wb, [.registered a ia wa, .registered b ib wb].Sublist before →
        (.ran b ∈ before ↔ ∀ tx ∈ wa, tx ∉ ib)) ∧
    (∀ inv within root, .recorded inv within ∈ ((new cache).run ops).log → within.getLast? = some root →
      (∀ tx ∈ within, .committed tx ∈ ((new cache).run ops).log) →
      ∃ noted, noted.Covers inv ∧ [.committed root, .applied noted].Sublist ((new cache).run ops).log) ∧
    ∀ opsBefore op opsAfter, ops = opsBefore ++ op :: opsAfter →
      ∀ inv within, .recorded inv within ∈ ((new cache).run opsBefore).log → within ≠ [] →
      (¬ ∀ tx ∈ within, .committed tx ∈ ((new cache).run opsBefore).log) →
      (∀ tx ∈ within, .committed tx ∈ ((new cache).run (opsBefore ++ [op])).log) →
      ∀ key entry, ((new cache).run (opsBefore ++ [op])).cache.cache.entries.lookup key = some entry →
        ¬ inv.Clears entry := by
  have hinv := inv_run cache ops
  have hnotHeld : ∀ {within r outer}, ¬ ((new cache).run ops).HeldBy within r outer := by
    rintro within r outer ⟨inner, -, hrecords, -, -⟩
    rw [hended] at hrecords
    simp at hrecords
  refine ⟨?_, ?_, ?_, ?_⟩
  · intro step inside within hmem
    cases hinv.stepFates step inside within hmem with
    | pending r outer hheld => exact absurd hheld hnotHeld
    | ran hdropped hran =>
      obtain ⟨tx, htx, hd⟩ := hdropped
      rw [hran, if_neg fun hall => (hinv.txs.committed tx (hall tx htx)).2 hd]
    | kept hcommitted hran _ => rw [if_pos hcommitted, List.count_eq_zero_of_not_mem hran]
  · intro before a after hlog b ia wa ib wb hsub
    have hpre : before ++ [.ran a] <+: ((new cache).run ops).log := ⟨after, by simp [hlog]⟩
    have hsub' : [.registered a ia wa, .registered b ib wb].Sublist ((new cache).run ops).log := by
      rw [hlog]
      exact hsub.trans (List.sublist_append_left _ _)
    exact hinv.steps.ordered before a hpre b ia wa ib wb (hsub.subset (by simp)) (hsub.subset (by simp))
      (hinv.steps.registered_lt hsub')
  · intro inv within root hmem hroot hcommitted
    have hne : within ≠ [] := by
      rintro rfl
      cases hroot
    cases hinv.invalidationFates inv within hmem hne with
    | pending r outer hheld => exact absurd hheld hnotHeld
    | dropped hdropped =>
      obtain ⟨tx, htx, hd⟩ := hdropped
      exact absurd hd (hinv.txs.committed tx (hcommitted tx htx)).2
    | applied root' noted hroot' hnoted _ happlied =>
      obtain rfl := Option.some.inj (hroot.symm.trans hroot')
      exact ⟨noted, hnoted, happlied⟩
  · intro opsBefore op opsAfter _ inv within hrec hne hbefore hafter key entry hentry
    rw [run_append] at hafter hentry
    exact cache_cleared (inv_run cache opsBefore) (move_step _ op) hrec hne hbefore hafter hentry

/-- A savepoint commits inside a transaction that then fails; while it is open, another
future registers a step on the connection of the transaction. -/
def savepointFails : List TxOp :=
  [.beginScope, .undo 0, .beginScope, .invalidate 0 (.table "users"), .undo 0, .undo 1,
    .endScope (.success true true), .endScope .failure]

/-- The savepoint's step runs once, before the one registered after it: that one was
registered in the transaction that has the savepoint open inside it. -/
theorem savepointFails_runs_once :
    ((new (.withConfig .default)).run savepointFails).records = [] ∧
      ((new (.withConfig .default)).run savepointFails).log.count (.ran 1) = 1 ∧
      ∃ before after, ((new (.withConfig .default)).run savepointFails).log = before ++ .ran 1 :: after ∧
        [.registered 1 [] [1, 0], .registered 2 [1] [0]].Sublist before ∧ .ran 2 ∉ before := by
  have hended : ((new (.withConfig .default)).run savepointFails).records = [] := rfl
  obtain ⟨hcount, horder, -, -⟩ := nested_transactions _ savepointFails hended
  let before : List TxEvent := ((new (.withConfig .default)).run savepointFails).log.take 8
  have hlog : ((new (.withConfig .default)).run savepointFails).log = before ++ .ran 1 :: [.ran 2, .ran 0] := by
    decide
  have hsub : [.registered 1 [] [1, 0], .registered 2 [1] [0]].Sublist before := by decide
  refine ⟨hended, ?_, before, _, hlog, hsub, ?_⟩
  · rw [hcount 1 [] [1, 0] (by decide)]
    decide
  · rw [horder before 1 _ hlog 2 [] [1, 0] [1] [0] hsub]
    decide

/-- A savepoint is rolled back before its transaction, which is rolled back later. -/
def savepointRolledBack : List TxOp :=
  [.beginScope, .beginScope, .undo 0, .endScope .failure, .undo 0, .endScope .failure]

/-- The savepoint's step, registered first, runs first: it has run before the other is
registered. -/
theorem savepointRolledBack_order :
    ((new (.withConfig .default)).run savepointRolledBack).records = [] ∧
    [.registered 0 [] [1, 0], .registered 1 [] [0]].Sublist ((new (.withConfig .default)).run savepointRolledBack).log ∧
    [.ran 0, .ran 1].Sublist ((new (.withConfig .default)).run savepointRolledBack).log ∧
    ¬ [.ran 1, .ran 0].Sublist ((new (.withConfig .default)).run savepointRolledBack).log := by
  decide

end Connection

end TideOrm
