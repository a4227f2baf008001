import Mathlib.Data.List.Forall2

/-! Results that may fail, one after the other and along lists, and lists of pairs. -/

namespace Lib

variable {A B C E : Type}

theorem map_eq_ok {f : A → B} {x : Except E A} {b : B} (h : x.map f = .ok b) : ∃ a, x = .ok a ∧ b = f a := by
  cases x with
  | error e => cases h
  | ok a => exact ⟨a, rfl, (Except.ok.inj h).symm⟩

theorem bind_eq_ok {x : Except E A} {f : A → Except E B} {b : B} (h : x.bind f = .ok b) :
    ∃ a, x = .ok a ∧ f a = .ok b := by
  cases x with
  | error e => cases h
  | ok a => exact ⟨a, rfl, h⟩

theorem mapM_ok_iff (f : A → Except E B) (l : List A) (out : List B) :
    l.mapM f = .ok out ↔ List.Forall₂ (fun a b => f a = .ok b) l out := by
  induction l generalizing out with
  | nil =>
    rw [List.mapM_nil, List.forall₂_nil_left_iff]
    exact ⟨fun h => (Except.ok.inj h).symm, fun h => congrArg Except.ok h.symm⟩
  | cons a l ih =>
    rw [List.mapM_cons, List.forall₂_cons_left_iff]
    cases ha : f a with
    | error e => simp [bind, Except.bind]
    | ok b =>
      constructor
      · intro h
        cases hl : l.mapM f with
        | error e => simp [bind, Except.bind, hl] at h
        | ok rest =>
          obtain rfl : b :: rest = out := by simpa [bind, Except.bind, hl, pure, Except.pure] using h
          exact ⟨b, rest, rfl, (ih rest).1 hl, rfl⟩
      · rintro ⟨b', rest, hb, hrest, rfl⟩
        cases hb
        simp [bind, Except.bind, (ih rest).2 hrest, pure, Except.pure]

theorem forM_ok_iff (f : A → Except E Unit) (l : List A) : l.forM f = .ok () ↔ ∀ a ∈ l, f a = .ok () := by
  induction l with
  | nil => exact iff_of_true rfl (List.forall_mem_nil _)
  | cons a l ih =>
    show (f a).bind (fun _ => l.forM f) = .ok () ↔ _
    rw [List.forall_mem_cons, ← ih]
    cases f a with
    | error e => exact iff_of_false (fun h => by cases h) fun h => by cases h.1
    | ok u => exact (and_iff_right rfl).symm

theorem mapM_some_iff (f : A → Option B) (l : List A) (out : List B) :
    l.mapM f = some out ↔ l.map f = out.map some := by
  induction l generalizing out with
  | nil => cases out <;> simp
  | cons a l ih =>
    simp only [List.mapM_cons, Option.bind_eq_bind, Option.bind_eq_some_iff, Option.pure_def, Option.some_inj, List.map_cons]
    constructor
    · rintro ⟨b, hb, rest, hrest, rfl⟩
      rw [List.map_cons, hb, (ih rest).1 hrest]
    · intro h
      cases out with
      | nil => cases h
      | cons b rest =>
        rw [List.map_cons, List.cons.injEq] at h
        exact ⟨b, h.1, rest, (ih rest).2 h.2, rfl⟩

theorem mapM_some_of_forall {f : A → Option B} {l : List A} (h : ∀ a ∈ l, ∃ b, f a = some b) :
    ∃ out, l.mapM f = some out ∧ ∀ b, b ∈ out ↔ ∃ a ∈ l, f a = some b := by
  refine ⟨l.filterMap f, (mapM_some_iff f l _).2 ?_, fun b => List.mem_filterMap⟩
  induction l with
  | nil => rfl
  | cons a l ih =>
    rw [List.forall_mem_cons] at h
    obtain ⟨b, hb⟩ := h.1
    rw [List.map_cons, List.filterMap_cons_some hb, List.map_cons, ih h.2, hb]

theorem exists_of_forall₂ {R : A → B → Prop} {l : List A} {l' : List B} (h : List.Forall₂ R l l') {a : A} (ha : a ∈ l) :
    ∃ b ∈ l', R a b := by
  induction h with
  | nil => cases ha
  | cons hab _ ih =>
    rcases List.mem_cons.1 ha with rfl | hrest
    · exact ⟨_, List.mem_cons_self .., hab⟩
    · obtain ⟨b, hb, hR⟩ := ih hrest
      exact ⟨b, List.mem_cons_of_mem _ hb, hR⟩

theorem map_eq_of_forall₂ {R : A → B → Prop} {l : List A} {l' : List B} (h : List.Forall₂ R l l') {f : A → C} {g : B → C}
    (hR : ∀ a b, R a b → f a = g b) : l.map f = l'.map g := by
  induction h with
  | nil => rfl
  | cons hab _ ih => rw [List.map_cons, List.map_cons, hR _ _ hab, ih]

/-- Names that are read off one list's entries differ as the other's do. -/
theorem nodup_of_forall₂ {R : A → B → Prop} {l : List A} {l' : List B} (h : List.Forall₂ R l l') {f : A → C} {g : B → C}
    (hnames : ∀ a b, R a b → f a = g b) (hnodup : (l.map f).Nodup) : (l'.map g).Nodup :=
  map_eq_of_forall₂ h hnames ▸ hnodup

theorem mem_of_lookup [BEq A] [LawfulBEq A] {members : List (A × B)} {a : A} {b : B} (h : members.lookup a = some b) :
    (a, b) ∈ members := by
  obtain ⟨front, back, rfl, -⟩ := List.lookup_eq_some_iff.1 h
  exact List.mem_append_right _ (List.mem_cons_self ..)

theorem lookup_none_iff [BEq A] [LawfulBEq A] {members : List (A × B)} {a : A} : members.lookup a = none ↔ a ∉ members.map Prod.fst := by
  rw [List.lookup_eq_none_iff, List.mem_map]
  constructor
  · rintro h ⟨member, hmember, rfl⟩
    exact absurd rfl (bne_iff_ne.1 (h member hmember))
  · exact fun h member hmember => bne_iff_ne.2 fun heq => h ⟨member, hmember, heq.symm⟩

theorem rel_none_iff {R : A → B → Prop} {a : Option A} {b : Option B} (h : Option.Rel R a b) : a = none ↔ b = none := by
  cases h with
  | some => exact iff_of_false (Option.some_ne_none _) (Option.some_ne_none _)
  | none => exact iff_of_true rfl rfl

/-- Where the keys differ each is found. -/
theorem lookup_of_nodup [BEq A] [LawfulBEq A] {members : List (A × B)} (hnodup : (members.map Prod.fst).Nodup)
    {member : A × B} (hmem : member ∈ members) : members.lookup member.1 = some member.2 := by
  obtain ⟨front, back, rfl⟩ := List.append_of_mem hmem
  refine List.lookup_eq_some_iff.2 ⟨front, back, rfl, fun other hother => bne_iff_ne.2 ?_⟩
  rw [List.map_append, List.nodup_append] at hnodup
  exact Ne.symm (hnodup.2.2 _ (List.mem_map_of_mem hother) _ (List.mem_cons_self ..))

end Lib
