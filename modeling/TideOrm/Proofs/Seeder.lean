import TideOrm.Proofs.Migrator
import TideOrm.Proofs.Topology
import TideOrm.Spec.Seeder

/-! A run of the seeder goes through one order of its seeds: it refuses where there is none, runs what the
ledger does not record and records what it commits. -/

namespace TideOrm

open Lib Lib.Command

namespace Seeder

variable {m : Seeder} (hdistinct : (m.seeds.map Seed.name).Nodup)

section Order

include hdistinct

theorem index_unique {i j : ℕ} {seed other : Seed} (hi : m.seeds[i]? = some seed) (hj : m.seeds[j]? = some other)
    (hname : seed.name = other.name) : i = j := by
  have hi' : (m.seeds.map Seed.name)[i]? = some seed.name := by rw [List.getElem?_map, hi, Option.map_some]
  have hj' : (m.seeds.map Seed.name)[j]? = some seed.name := by rw [List.getElem?_map, hj, Option.map_some, hname]
  have hlt := (List.getElem?_eq_some_iff.1 hi').1
  exact (List.getElem?_inj hlt hdistinct).1 (hi'.trans hj'.symm)

theorem indexByName_iff (name : String) (index : ℕ) :
    m.indexByName name = some index ↔ ∃ seed, m.seeds[index]? = some seed ∧ seed.name = name := by
  unfold indexByName
  constructor
  · intro h
    obtain ⟨⟨seed, i⟩, hlast, rfl⟩ := Option.map_eq_some_iff.1 h
    have hmem := List.mem_filter.1 (List.mem_of_getLast? hlast)
    exact ⟨seed, List.mem_zipIdx_iff_getElem?.1 hmem.1, of_decide_eq_true hmem.2⟩
  · rintro ⟨seed, hseed, rfl⟩
    have hmem : (seed, index) ∈ m.seeds.zipIdx.filter fun entry => entry.1.name = seed.name :=
      List.mem_filter.2 ⟨List.mem_zipIdx_iff_getElem?.2 hseed, decide_eq_true rfl⟩
    obtain ⟨⟨other, i⟩, hlast⟩ := Option.isSome_iff_exists.1 (List.getLast?_isSome.2 (List.ne_nil_of_mem hmem))
    have hother := List.mem_filter.1 (List.mem_of_getLast? hlast)
    rw [hlast, Option.map_some, index_unique hdistinct (List.mem_zipIdx_iff_getElem?.1 hother.1) hseed (of_decide_eq_true hother.2)]

theorem mem_edges_iff (a b : ℕ) : (a, b) ∈ m.edges ↔ m.Depends a b := by
  unfold edges Depends
  simp only [List.mem_flatMap, List.mem_map, List.mem_filterMap, Prod.exists, List.mem_zipIdx_iff_getElem?, Prod.mk.injEq]
  constructor
  · rintro ⟨dependent, _, hdependent, _, ⟨name, hname, hindex⟩, rfl, rfl⟩
    obtain ⟨seed, hseed, rfl⟩ := (indexByName_iff hdistinct name _).1 hindex
    exact ⟨seed, dependent, hseed, hdependent, hname⟩
  · rintro ⟨seed, dependent, hseed, hdependent, hname⟩
    exact ⟨dependent, b, hdependent, a, ⟨seed.name, hname, (indexByName_iff hdistinct _ a).2 ⟨seed, hseed, rfl⟩⟩, rfl, rfl⟩

theorem edges_bound : ∀ edge ∈ m.edges, edge.1 < m.seeds.length ∧ edge.2 < m.seeds.length := by
  rintro ⟨a, b⟩ hedge
  obtain ⟨seed, dependent, hseed, hdependent, -⟩ := (mem_edges_iff hdistinct a b).1 hedge
  exact ⟨(List.getElem?_eq_some_iff.1 hseed).1, (List.getElem?_eq_some_iff.1 hdependent).1⟩

theorem depends_eq : (fun a b => (a, b) ∈ m.edges) = m.Depends := by
  funext a b
  exact propext (mem_edges_iff hdistinct a b)

/-- A seed is left over where the dependencies have a cycle. -/
theorem leftOver_eq_nil_iff : m.order.2 = [] ↔ ¬∃ index, Relation.TransGen m.Depends index index := by
  have hbound := edges_bound hdistinct
  have hmem (x : ℕ) := mem_leftOver m.key hbound (x := x)
  rw [depends_eq hdistinct] at hmem
  constructor
  · rintro hnil ⟨index, hcycle⟩
    have hlt : index < m.seeds.length := by
      obtain ⟨_, _, hlast⟩ := (Relation.TransGen.tail'_iff).1 hcycle
      exact (hbound _ ((mem_edges_iff hdistinct _ _).2 hlast)).2
    have hleft := (hmem index).2 ⟨hlt, index, hcycle, .refl⟩
    rw [show (topologicalOrder m.seeds.length m.edges m.key).2 = [] from hnil] at hleft
    cases hleft
  · intro hacyclic
    refine List.eq_nil_iff_forall_not_mem.2 fun x hx => ?_
    obtain ⟨-, c, hcycle, -⟩ := (hmem x).1 hx
    exact hacyclic ⟨c, hcycle⟩

/-- Without a cycle the sorted seeds are in order. -/
theorem isOrder (hnil : m.order.2 = []) : m.IsOrder m.order.1 := by
  obtain ⟨hperm, hgreedy, -⟩ := topologicalOrder_spec m.key (edges_bound hdistinct)
  rw [show (topologicalOrder m.seeds.length m.edges m.key).2 = [] from hnil, List.append_nil] at hperm
  refine ⟨hperm, fun before index later heq a ha => ?_, fun before index later heq other hlt hnew hmet => ?_⟩
  · exact (hgreedy.split heq).1 a ((mem_edges_iff hdistinct a index).2 ha)
  · have hle := (hgreedy.split heq).2 other hlt hnew fun b hb => hmet b ((mem_edges_iff hdistinct b other).1 hb)
    exact Prod.Lex.monotone_fst _ _ hle

theorem sort_error_iff : (∃ error, m.sortSeedsByPriorityAndDeps = .error error) ↔
    ∃ index, Relation.TransGen m.Depends index index := by
  rw [← not_iff_not, ← leftOver_eq_nil_iff hdistinct]
  unfold sortSeedsByPriorityAndDeps
  dsimp only
  split_ifs with hempty
  · exact iff_of_true (fun ⟨_, h⟩ => nomatch h) (List.isEmpty_iff.1 hempty)
  · exact iff_of_false (fun h => h ⟨_, rfl⟩) fun h => hempty (List.isEmpty_iff.2 h)

omit hdistinct in
theorem sort_ok (hnil : m.order.2 = []) : m.sortSeedsByPriorityAndDeps = .ok (m.seedsAt m.order.1) := by
  unfold sortSeedsByPriorityAndDeps
  dsimp only
  rw [hnil]
  rfl

end Order

section Runs

/-- The versions of the attempts that were committed. -/
def committedNames (attempts : List Attempt) : List String := (attempts.filter Attempt.committed).map Attempt.version

theorem committedNames_snoc (attempts : List Attempt) (attempt : Attempt) : committedNames (attempts ++ [attempt]) =
    committedNames attempts ++ if attempt.committed then [attempt.version] else [] := by
  unfold committedNames
  rw [List.filter_append, List.map_append, List.filter_singleton]
  cases attempt.committed <;> rfl

/-- What a run has done by a state: its attempts, each in its turn, and their entries in the ledger. -/
structure Trace (m : Seeder) (order : List ℕ) (s s' : MigrationDb) (attempts : List Attempt) : Prop where
  log : s'.log = s.log ++ attempts
  ledgers : s'.ledgers = Function.update s.ledgers seedTable (s.ledgers seedTable ++ committedNames attempts)
  turns : m.Turns order (s.ledgers seedTable) attempts

variable {order : List ℕ} {s s₁ s₂ : MigrationDb} {attempts : List Attempt}

theorem Trace.start (h : Like s s₁) : Trace m order s s₁ [] := by
  refine ⟨h.log.trans (List.append_nil _).symm, ?_, .nil⟩
  have hnone : s.ledgers seedTable ++ committedNames [] = s.ledgers seedTable := List.append_nil _
  rw [h.ledgers, hnone, Function.update_eq_self]

theorem Trace.like (h : Trace m order s s₁ attempts) (hlike : Like s₁ s₂) : Trace m order s s₂ attempts :=
  ⟨hlike.log.trans h.log, hlike.ledgers.trans h.ledgers, h.turns⟩

theorem Trace.recorded (h : Trace m order s s₁ attempts) :
    s₁.ledgers seedTable = s.ledgers seedTable ++ committedNames attempts := by
  rw [h.ledgers, Function.update_self]

/-- One more attempt that is committed. -/
theorem Trace.done {name : String} (h : Trace m order s s₁ attempts) (hdone : Done seedTable name true s₁ s₂)
    (hturns : m.Turns order (s.ledgers seedTable) (attempts ++ [⟨seedTable, name, true, true⟩])) :
    Trace m order s s₂ (attempts ++ [⟨seedTable, name, true, true⟩]) := by
  refine ⟨?_, ?_, hturns⟩
  · rw [hdone.log, h.log, List.append_assoc]
  · rw [hdone.ledgers, h.ledgers, Function.update_idem, Function.update_self, committedNames_snoc, recordedAfter,
      if_pos rfl, if_pos rfl, List.append_assoc]

/-- One more attempt, if it was made, that is not committed. -/
theorem Trace.undone {name : String} (h : Trace m order s s₁ attempts) (hundone : Undone seedTable name true s₁ s₂)
    (hturns : m.Turns order (s.ledgers seedTable) (attempts ++ [⟨seedTable, name, true, false⟩])) :
    ∃ attempts, Trace m order s s₂ attempts := by
  have hledgers := hundone.ledgers.trans h.ledgers
  rcases hundone.log with hlog | hlog
  · exact ⟨attempts, hlog.trans h.log, hledgers, h.turns⟩
  · refine ⟨attempts ++ [⟨seedTable, name, true, false⟩], ?_, ?_, hturns⟩
    · rw [hlog, h.log, List.append_assoc]
    · rw [hledgers, committedNames_snoc, if_neg Bool.false_ne_true, List.append_nil]

theorem apply_spec (seed : Seed) (s : MigrationDb) :
    Ensures (seed.apply true) s (fun _ => Done seedTable seed.name true s) (Undone seedTable seed.name true s) :=
  transaction_spec (fun s => work_spec seedTable seed.name true s) s

/-- A run between two seeds: those of `before` have had their turn. -/
structure Between (m : Seeder) (order before : List ℕ) (s s₁ : MigrationDb) (result : SeedResult) (attempts : List Attempt) :
    Prop extends Trace m order s s₁ attempts where
  executed : result.executed.map SeedInfo.name = committedNames attempts
  passed : ∀ index ∈ before, ∀ seed, m.seeds[index]? = some seed → seed.name ∈ s.ledgers seedTable ++ committedNames attempts
  owned : ∀ name ∈ committedNames attempts, ∃ index ∈ before, ∃ seed, m.seeds[index]? = some seed ∧ seed.name = name

variable {before later : List ℕ} {index : ℕ} {seed : Seed} {result : SeedResult}

/-- A recorded seed is skipped. -/
theorem Between.skip (h : Between m order before s s₁ result attempts) (hseed : m.seeds[index]? = some seed)
    (hrecorded : seed.name ∈ s.ledgers seedTable) :
    Between m order (before ++ [index]) s s₁ { result with skipped := result.skipped ++ [⟨seed.name⟩] } attempts := by
  refine ⟨h.toTrace, h.executed, fun other hother seed' hseed' => ?_, fun name hname => ?_⟩
  · rcases List.mem_append.1 hother with hother | hother
    · exact h.passed other hother seed' hseed'
    · rw [List.mem_singleton.1 hother, hseed, Option.some_inj] at hseed'
      exact List.mem_append_left _ (hseed' ▸ hrecorded)
  · obtain ⟨other, hother, hrest⟩ := h.owned name hname
    exact ⟨other, List.mem_append_left _ hother, hrest⟩

theorem Between.executed_iff (h : Between m order before s s₁ result attempts) (name : String) :
    (⟨name⟩ : SeedInfo) ∈ result.executed ↔ name ∈ committedNames attempts := by
  rw [← h.executed, List.mem_map]
  constructor
  · exact fun hmem => ⟨⟨name⟩, hmem, rfl⟩
  · rintro ⟨⟨_⟩, hmem, rfl⟩
    exact hmem

/-- The seed whose turn it is runs in its turn, once its dependencies are seen to be recorded. -/
theorem Between.turn (hdistinct : (m.seeds.map Seed.name).Nodup) (horder : m.IsOrder order)
    (h : Between m order before s s₁ result attempts) (heq : order = before ++ index :: later)
    (hseed : m.seeds[index]? = some seed) (hnew : seed.name ∉ s.ledgers seedTable)
    (hmet : ∀ dependency ∈ seed.dependsOn, dependency ∈ s.ledgers seedTable ++ committedNames attempts) (committed : Bool) :
    m.Turns order (s.ledgers seedTable) (attempts ++ [⟨seedTable, seed.name, true, committed⟩]) := by
  have hnodup : order.Nodup := horder.perm.nodup_iff.2 List.nodup_range
  have hindex : index ∉ before := fun hmem =>
    List.disjoint_of_nodup_append (heq ▸ hnodup) hmem List.mem_cons_self
  have hunrecorded : seed.name ∉ s.ledgers seedTable ++ committedNames attempts := by
    intro hmem
    obtain ⟨other, hother, seed', hseed', hname⟩ := h.owned _ ((List.mem_append.1 hmem).resolve_left hnew)
    exact hindex (index_unique hdistinct hseed' hseed hname ▸ hother)
  refine .snoc h.turns heq hseed ⟨seed, hseed, hunrecorded, hmet⟩ fun other hready => ?_
  obtain ⟨candidate, hcandidate, hcandidateNew, hcandidateMet⟩ := hready
  have hlt := (List.getElem?_eq_some_iff.1 hcandidate).1
  have hpending : other ∉ before := fun hmem => hcandidateNew (h.passed other hmem candidate hcandidate)
  by_cases hall : ∀ a, m.Depends a other → a ∈ before
  · exact .inl (horder.lowest before index later heq other hlt hpending hall)
  · -- a dependency that has not had its turn is recorded, so it is not the seed itself
    push Not at hall
    obtain ⟨a, ⟨dependency, dependent, hdependency, hdependent, hname⟩, ha⟩ := hall
    obtain rfl := Option.some.inj (hcandidate.symm.trans hdependent)
    have hrecorded := hcandidateMet _ hname
    have hmem : a ∈ before ++ index :: later :=
      heq ▸ horder.perm.mem_iff.2 (List.mem_range.2 (List.getElem?_eq_some_iff.1 hdependency).1)
    have hlater : a ∈ later := by
      refine (List.mem_cons.1 ((List.mem_append.1 hmem).resolve_left ha)).resolve_left ?_
      rintro rfl
      rw [hseed, Option.some_inj] at hdependency
      exact hunrecorded (hdependency ▸ hrecorded)
    exact .inr ⟨a, hlater, ⟨dependency, candidate, hdependency, hcandidate, hname⟩, dependency, hdependency, hrecorded⟩

/-- A seed's run is committed. -/
theorem Between.run (h : Between m order before s s₁ result attempts) (hseed : m.seeds[index]? = some seed)
    (hdone : Done seedTable seed.name true s₁ s₂)
    (hturns : m.Turns order (s.ledgers seedTable) (attempts ++ [⟨seedTable, seed.name, true, true⟩])) :
    Between m order (before ++ [index]) s s₂ { result with executed := result.executed ++ [⟨seed.name⟩] }
      (attempts ++ [⟨seedTable, seed.name, true, true⟩]) := by
  have hnames : committedNames (attempts ++ [⟨seedTable, seed.name, true, true⟩]) = committedNames attempts ++ [seed.name] :=
    committedNames_snoc attempts _
  refine ⟨h.toTrace.done hdone hturns, ?_, fun other hother seed' hseed' => ?_, fun name hname => ?_⟩
  · rw [List.map_append, h.executed, hnames]
    rfl
  · rw [hnames, ← List.append_assoc]
    rcases List.mem_append.1 hother with hother | hother
    · exact List.mem_append_left _ (h.passed other hother seed' hseed')
    · rw [List.mem_singleton.1 hother, hseed, Option.some_inj] at hseed'
      exact List.mem_append_right _ (List.mem_singleton.2 (hseed' ▸ rfl))
  · rw [hnames] at hname
    rcases List.mem_append.1 hname with hname | hname
    · obtain ⟨other, hother, hrest⟩ := h.owned name hname
      exact ⟨other, List.mem_append_left _ hother, hrest⟩
    · exact ⟨index, List.mem_append_right _ List.mem_cons_self, seed, hseed, (List.mem_singleton.1 hname).symm⟩

theorem runSeeds_spec (hdistinct : (m.seeds.map Seed.name).Nodup) (horder : m.IsOrder order) (later : List ℕ) :
    ∀ {before attempts : List _} {s₁ : MigrationDb} {result : SeedResult}, order = before ++ later →
      Between m order before s s₁ result attempts →
      Ensures (runSeeds (s.ledgers seedTable) (m.seedsAt later) result) s₁
        (fun _ s' => (∃ attempts, Trace m order s s' attempts) ∧ ∀ seed ∈ m.seeds, seed.name ∈ s'.ledgers seedTable)
        (fun s' => ∃ attempts, Trace m order s s' attempts) := by
  induction later with
  | nil =>
    intro before attempts s₁ result heq h
    refine ensures_pure ⟨⟨attempts, h.toTrace⟩, fun seed hseed => ?_⟩
    obtain ⟨index, hindex⟩ := List.mem_iff_getElem?.1 hseed
    have hmem := horder.perm.mem_iff.2 (List.mem_range.2 (List.getElem?_eq_some_iff.1 hindex).1)
    rw [heq, List.append_nil] at hmem
    rw [h.recorded]
    exact h.passed index hmem seed hindex
  | cons index later ih =>
    intro before attempts s₁ result heq h
    have hlt : index < m.seeds.length := List.mem_range.1
      (horder.perm.mem_iff.1 (heq ▸ List.mem_append_right _ List.mem_cons_self))
    have hseed : m.seeds[index]? = some (m.seeds[index]) := List.getElem?_eq_getElem hlt
    generalize m.seeds[index] = seed at hseed
    have hnext : order = before ++ [index] ++ later := by rw [heq, List.append_assoc, List.singleton_append]
    have hseeds : m.seedsAt (index :: later) = seed :: m.seedsAt later := List.filterMap_cons_some hseed
    rw [hseeds, runSeeds]
    split_ifs with hrecorded
    · exact ih hnext (h.skip hseed hrecorded)
    · split
      · exact ensures_throw ⟨attempts, h.toTrace⟩
      · next hfind =>
        have hmet : ∀ dependency ∈ seed.dependsOn, dependency ∈ s.ledgers seedTable ++ committedNames attempts := by
          intro dependency hdependency
          have hnot := List.find?_eq_none.1 hfind dependency hdependency
          rw [decide_eq_true_iff, not_and_or, not_not, not_not, h.executed_iff] at hnot
          exact List.mem_append.2 hnot
        have hturn := h.turn hdistinct horder heq hseed hrecorded hmet
        refine Ensures.bind ((apply_spec seed s₁).mono (fun _ s₂ hdone => ?_) fun s₂ hundone => ?_)
        · exact ih hnext (h.run hseed hdone (hturn true))
        · exact h.toTrace.undone hundone (hturn false)

/-- What holds of the work holds of it under the seed lock. -/
theorem withSeedLock_spec {α : Type} {work : MigrateM α} {P Q : MigrationDb → Prop} (enclosing : Option Bool) (hstart : P s)
    (hP : ∀ {s₁ s₂}, P s₁ → Like s₁ s₂ → P s₂) (hQ : ∀ {s₁ s₂}, Q s₁ → Like s₁ s₂ → Q s₂)
    (hwork : ∀ s₁, Like s s₁ → Ensures work s₁ (fun _ s' => P s' ∧ Q s') P) :
    Ensures (withSeedLock enclosing work) s (fun _ s' => P s' ∧ Q s') P := by
  cases enclosing with
  | none => exact withMigrationLock_spec hstart hP hQ hwork
  | some held =>
    have hreserved : ∀ s₁, Like s s₁ → Ensures (withSeedLock (some true) work) s₁ (fun _ s' => P s' ∧ Q s') P := by
      intro s₁ hlike
      refine Ensures.bind (ensures_get ?_)
      dsimp only
      split_ifs
      · refine Ensures.afterLike (act_like s₁) (fun _ hlike' => hP hstart (hlike.trans hlike')) fun _ s₂ hlike' => ?_
        exact Ensures.afterLike (act_like s₂) (fun _ hlike'' => hP hstart (hlike.trans (hlike'.trans hlike'')))
          fun _ s₃ hlike'' => hwork s₃ (hlike.trans (hlike'.trans hlike''))
      · exact hwork s₁ hlike
    cases held with
    | true => exact hreserved s (Like.refl s)
    | false => exact Ensures.afterLike (act_like s) (fun _ => hP hstart) fun _ => hreserved

theorem run_spec {P Q : MigrationDb → Prop} (enclosing : Option Bool) (hstart : P s)
    (hP : ∀ {s₁ s₂}, P s₁ → Like s₁ s₂ → P s₂) (hQ : ∀ {s₁ s₂}, Q s₁ → Like s₁ s₂ → Q s₂)
    (hrun : ∀ s₁, Like s s₁ → Ensures (match m.sortSeedsByPriorityAndDeps with
      | .error error => throw error
      | .ok seeds => runSeeds (s.ledgers seedTable) seeds {}) s₁ (fun _ s' => P s' ∧ Q s') P) :
    Ensures (m.run enclosing) s (fun _ s' => P s' ∧ Q s') P := by
  refine Ensures.afterLike (act_like s) (fun _ => hP hstart) fun _ s₁ hlike => ?_
  refine withSeedLock_spec enclosing (hP hstart hlike) hP hQ fun s₂ hlike' => ?_
  refine Ensures.afterLike (act_like s₂) (fun _ hlike'' => hP hstart (hlike.trans (hlike'.trans hlike''))) fun _ s₃ hlike'' => ?_
  have hthird := hlike.trans (hlike'.trans hlike'')
  refine Ensures.bind ((keys_spec seedTable s₃).mono (fun keys s₄ ⟨hkeys, hread⟩ => ?_) fun _ hread => hP hstart (hthird.trans hread))
  rw [hkeys, hthird.ledgers]
  exact hrun s₄ (hthird.trans hread)

/-- A run with a cycle is refused before anything is run. -/
theorem run_cycle (hdistinct : (m.seeds.map Seed.name).Nodup) (hcycle : ∃ index, Relation.TransGen m.Depends index index)
    (enclosing : Option Bool) (s : MigrationDb) :
    Ensures (m.run enclosing) s (fun _ s' => Like s s' ∧ False) (Like s) := by
  obtain ⟨error, herror⟩ := (sort_error_iff hdistinct).2 hcycle
  refine run_spec enclosing (Like.refl s) (fun h hlike => h.trans hlike) (fun h _ => h) fun s₁ hlike => ?_
  rw [herror]
  exact ensures_throw hlike

theorem run_order (hdistinct : (m.seeds.map Seed.name).Nodup) (hacyclic : ¬∃ index, Relation.TransGen m.Depends index index)
    (enclosing : Option Bool) (s : MigrationDb) :
    Ensures (m.run enclosing) s
      (fun _ s' => (∃ attempts, Trace m m.order.1 s s' attempts) ∧ ∀ seed ∈ m.seeds, seed.name ∈ s'.ledgers seedTable)
      (fun s' => ∃ attempts, Trace m m.order.1 s s' attempts) := by
  have hnil := (leftOver_eq_nil_iff hdistinct).2 hacyclic
  refine run_spec enclosing ⟨[], .start (Like.refl s)⟩ (fun ⟨attempts, h⟩ hlike => ⟨attempts, h.like hlike⟩) (fun h hlike => ?_)
    fun s₁ hlike => ?_
  · rw [hlike.ledgers]
    exact h
  · rw [sort_ok hnil]
    exact runSeeds_spec hdistinct (isOrder hdistinct hnil) m.order.1 rfl
      ⟨.start hlike, rfl, fun _ h => (List.not_mem_nil h).elim, fun _ h => (List.not_mem_nil h).elim⟩

end Runs

/-- What a run of the seeder does, with any ledger, any failures and inside a transaction or not. -/
theorem seeds_in_turn (m : Seeder) (hdistinct : (m.seeds.map Seed.name).Nodup) (enclosing : Option Bool) (s : MigrationDb) :
    ((∃ error, m.sortSeedsByPriorityAndDeps = .error error) ↔ ∃ index, Relation.TransGen m.Depends index index) ∧
      ((∃ index, Relation.TransGen m.Depends index index) → (∃ error, (m.run enclosing s).1 = .error error) ∧
        (m.run enclosing s).2.log = s.log ∧ (m.run enclosing s).2.ledgers = s.ledgers) ∧
      ((¬∃ index, Relation.TransGen m.Depends index index) → ∃ order attempts, m.IsOrder order ∧
        (m.run enclosing s).2.log = s.log ++ attempts ∧ m.Turns order (s.ledgers seedTable) attempts ∧
        (m.run enclosing s).2.ledgers = Function.update s.ledgers seedTable
          (s.ledgers seedTable ++ (attempts.filter Attempt.committed).map Attempt.version)) ∧
      ∀ result, (m.run enclosing s).1 = .ok result → ∀ seed ∈ m.seeds, seed.name ∈ (m.run enclosing s).2.ledgers seedTable := by
  refine ⟨sort_error_iff hdistinct, fun hcycle => ?_, fun hacyclic => ?_, fun result hok => ?_⟩
  · have hrun := run_cycle hdistinct hcycle enclosing s
    have hlike := (hrun.mono (fun _ _ h => h.1) fun _ h => h).state
    refine ⟨?_, hlike.log, hlike.ledgers⟩
    cases hend : (m.run enclosing s).1 with
    | error error => exact ⟨error, rfl⟩
    | ok result => exact (hrun.of_ok hend).2.elim
  · have hrun := run_order hdistinct hacyclic enclosing s
    obtain ⟨attempts, htrace⟩ := (hrun.mono (fun _ _ h => h.1) fun _ h => h).state
    exact ⟨m.order.1, attempts, isOrder hdistinct ((leftOver_eq_nil_iff hdistinct).2 hacyclic), htrace.log, htrace.turns,
      htrace.ledgers⟩
  · by_cases hcycle : ∃ index, Relation.TransGen m.Depends index index
    · exact ((run_cycle hdistinct hcycle enclosing s).of_ok hok).2.elim
    · exact ((run_order hdistinct hcycle enclosing s).of_ok hok).2

/-- `child` depends on `base`, which is recorded already. -/
def seedsAround : Seeder := ⟨[⟨"base", 100, []⟩, ⟨"child", 1, ["base"]⟩, ⟨"other", 50, []⟩]⟩

def baseRecorded : MigrationDb := { MigrationDb.new .sqlite with ledgers := fun _ => ["base"] }

/-- `other` runs first, though `child` is ready and lower. -/
theorem seeds_in_turn_held :
    (seedsAround.run none baseRecorded).2.log = [⟨seedTable, "other", true, true⟩, ⟨seedTable, "child", true, true⟩] ∧
      ¬seedsAround.Lowest (baseRecorded.ledgers seedTable) 2 := by
  refine ⟨by decide, fun h => ?_⟩
  have hle := h.2 1 ⟨⟨"child", 1, ["base"]⟩, rfl, by decide, by decide⟩
  exact absurd hle (by decide)

/-- A run over a fresh ledger. -/
theorem seeds_in_turn_fresh : (seedsAround.seeds.all fun seed =>
    decide (seed.name ∈ (seedsAround.run none (MigrationDb.new .sqlite)).2.ledgers seedTable)) = true := by
  rw [List.all_eq_true]
  intro seed hseed
  exact decide_eq_true ((seeds_in_turn seedsAround (by decide) none (MigrationDb.new .sqlite)).2.2.2 _ rfl seed hseed)

end Seeder

end TideOrm
