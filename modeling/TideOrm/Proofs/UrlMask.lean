import Mathlib.Data.List.TakeWhile
import TideOrm.Spec.UrlMask

/-! Whether a masked URL tells anything of its password. -/

namespace TideOrm.UrlMask

section Indices

theorem zipIdx_none {ch : Char} {text : List Char} (h : ch ∉ text) (start : ℕ) :
    ((text.zipIdx start).filterMap fun (c, i) => if c = ch then some i else none) = [] := by
  induction text generalizing start with
  | nil => rfl
  | cons first text ih =>
    rw [List.mem_cons, not_or] at h
    simp only [List.zipIdx_cons, List.filterMap_cons, if_neg (Ne.symm h.1)]
    exact ih h.2 (start + 1)

theorem rmatchIndices_nil {ch : Char} {text : List Char} (h : ch ∉ text) : rmatchIndices ch text = [] := by
  rw [rmatchIndices, zipIdx_none h, List.reverse_nil]

/-- The last place is found first. -/
theorem rmatchIndices_last {ch : Char} {front back : List Char} (h : ch ∉ back) :
    rmatchIndices ch (front ++ ch :: back) = front.length :: rmatchIndices ch front := by
  simp only [rmatchIndices, List.zipIdx_append, List.filterMap_append, List.zipIdx_cons, List.filterMap_cons, if_true,
    zipIdx_none h, List.reverse_append, Nat.zero_add]
  rfl

theorem authority_plain {text : List Char} (h : ∀ ch ∈ text, isDelimiter ch = false) (rest : List Char) :
    authority (text ++ rest) = text ++ authority rest := by
  rw [authority, List.takeWhile_append_of_pos fun ch hch => by rw [h ch hch]; rfl]
  rfl

theorem authority_delimiter {delimiter : Char} (h : isDelimiter delimiter = true) (rest : List Char) :
    authority (delimiter :: rest) = [] := by
  rw [authority, List.takeWhile_cons_of_neg]
  rw [h]
  exact Bool.false_ne_true

/-- A host's characters neither end the authority nor are an `@`. -/
theorem hostChar_plain {ch : Char} (h : isHostChar ch = true) : isDelimiter ch = false ∧ ch ≠ '@' ∧ ch ≠ '?' := by
  refine ⟨?_, ?_, ?_⟩
  · by_contra hdelimiter
    rw [Bool.not_eq_false, isDelimiter, Bool.or_eq_true, Bool.or_eq_true, beq_iff_eq, beq_iff_eq, beq_iff_eq] at hdelimiter
    rcases hdelimiter with (rfl | rfl) | rfl <;> exact absurd h (by decide)
  · rintro rfl
    exact absurd h (by decide)
  · rintro rfl
    exact absurd h (by decide)

end Indices

section Url

variable {scheme user host path : List Char}

/-- What stands before the first delimiter, and whether one follows. -/
theorem splitScheme_scheme (h : ':' ∉ scheme) (rest : List Char) :
    splitScheme (scheme ++ "://".toList ++ rest) = some (scheme ++ "://".toList, rest) := by
  induction scheme with
  | nil => rfl
  | cons ch scheme ih =>
    rw [List.mem_cons, not_or] at h
    have hprefix : "://".toList.isPrefixOf (ch :: (scheme ++ "://".toList ++ rest)) = false := by
      have hne : (':' == ch) = false := by simpa using h.1
      have hmark : "://".toList = [':', '/', '/'] := rfl
      rw [hmark, List.isPrefixOf, hne, Bool.false_and]
    rw [List.cons_append, List.cons_append, splitScheme, hprefix, ih h.2]
    rfl

theorem maskUrlCredentials_scheme (h : ':' ∉ scheme) (rest : List Char) : maskUrlCredentials (scheme ++ "://".toList ++ rest) =
    scheme ++ "://".toList ++ maskQuery ((userinfoEnd rest).elim rest fun i => "***".toList ++ rest.drop i) := by
  rw [maskUrlCredentials, splitScheme_scheme h]
  cases hend : userinfoEnd rest <;> simp [hend]

/-- What follows `scheme://` in the URL of a password. -/
def urlRest (user p host path : List Char) : List Char := user ++ ':' :: (p ++ '@' :: (host ++ '/' :: path))

/-- An `@` stands before the character of the password that ends the authority early. -/
def Leaks (p : List Char) : Prop := '@' ∈ authority p ∧ authority p ≠ p

/-- What follows that `@`, of several the last. -/
def leaked (p : List Char) : List Char := (rmatchIndices '@' (authority p)).head?.elim [] fun i => p.drop (i + 1)

theorem not_delimiter_authority (p : List Char) : ∀ ch ∈ authority p, isDelimiter ch = false := by
  intro ch hch
  have hnot := List.mem_takeWhile_imp hch
  simpa using hnot

/-- A delimiter follows the authority where it is not all. -/
theorem authority_rest (p : List Char) : authority p = p ∨ ∃ delimiter rest, isDelimiter delimiter = true ∧
    p = authority p ++ delimiter :: rest := by
  have hsplit := List.takeWhile_append_dropWhile (p := fun ch => !isDelimiter ch) (l := p)
  cases hrest : p.dropWhile fun ch => !isDelimiter ch with
  | nil =>
    rw [hrest, List.append_nil] at hsplit
    exact .inl hsplit
  | cons delimiter rest =>
    rw [hrest] at hsplit
    have hhead := List.head?_dropWhile_not (fun ch => !isDelimiter ch) p
    rw [hrest] at hhead
    exact .inr ⟨delimiter, rest, by simpa using hhead, hsplit.symm⟩

variable (huser : ∀ ch ∈ user, isHostChar ch = true) (hhost : ∀ ch ∈ host, isHostChar ch = true) (hpath : '@' ∉ path)

theorem host_no_at {text : List Char} (h : ∀ ch ∈ text, isHostChar ch = true) : '@' ∉ text :=
  fun hmem => (hostChar_plain (h '@' hmem)).2.1 rfl

include huser hhost

theorem authority_urlRest (p : List Char) : authority (urlRest user p host path) =
    user ++ ':' :: (if authority p = p then p ++ '@' :: host else authority p) := by
  have huser' : ∀ ch ∈ user ++ [':'], isDelimiter ch = false := by
    intro ch hch
    rcases List.mem_append.1 hch with hch | hch
    · exact (hostChar_plain (huser ch hch)).1
    · rw [List.mem_singleton.1 hch]
      rfl
  have hsplit : urlRest user p host path = user ++ [':'] ++ (p ++ '@' :: (host ++ '/' :: path)) := by
    simp [urlRest]
  rw [hsplit, authority_plain huser']
  split_ifs with hall
  · have hplain : ∀ ch ∈ p ++ '@' :: host, isDelimiter ch = false := by
      intro ch hch
      rw [List.mem_append, List.mem_cons] at hch
      rcases hch with hch | rfl | hch
      · exact not_delimiter_authority p ch (by rwa [hall])
      · rfl
      · exact (hostChar_plain (hhost ch hch)).1
    have hrest : p ++ '@' :: (host ++ '/' :: path) = p ++ '@' :: host ++ '/' :: path := by simp
    rw [hrest, authority_plain hplain, authority_delimiter rfl]
    simp
  · obtain ⟨delimiter, rest, hdelimiter, hp⟩ := (authority_rest p).resolve_left hall
    have hrest : p ++ '@' :: (host ++ '/' :: path) = authority p ++ delimiter :: (rest ++ '@' :: (host ++ '/' :: path)) := by
      conv_lhs => rw [hp]
      simp
    rw [hrest, authority_plain (not_delimiter_authority p), authority_delimiter hdelimiter]
    simp

include hpath in
/-- A password that does not leak ends at its `@`. -/
theorem userinfoEnd_of_not_leaks {p : List Char} (h : ¬Leaks p) :
    userinfoEnd (urlRest user p host path) = some (user ++ ':' :: p).length := by
  have hback : '@' ∉ host ++ '/' :: path := by
    rw [List.mem_append, List.mem_cons]
    rintro (hmem | hmem | hmem)
    · exact host_no_at hhost hmem
    · exact absurd hmem (by decide)
    · exact hpath hmem
  rw [userinfoEnd, authority_urlRest huser hhost]
  by_cases hall : authority p = p
  · have hfront : user ++ ':' :: (p ++ '@' :: host) = (user ++ ':' :: p) ++ '@' :: host := by simp
    rw [if_pos hall, hfront, rmatchIndices_last (host_no_at hhost)]
    rfl
  · have hat : '@' ∉ user ++ ':' :: authority p := by
      rw [List.mem_append, List.mem_cons]
      rintro (hmem | hmem | hmem)
      · exact host_no_at huser hmem
      · exact absurd hmem (by decide)
      · exact h ⟨hmem, hall⟩
    have hrest : urlRest user p host path = (user ++ ':' :: p) ++ '@' :: (host ++ '/' :: path) := by simp [urlRest]
    have hfollows : hostFollows (host ++ '/' :: path) = true := by
      rw [hostFollows, authority_plain fun ch hch => (hostChar_plain (hhost ch hch)).1, authority_delimiter rfl, List.append_nil,
        List.all_eq_true]
      exact hhost
    rw [if_neg hall, rmatchIndices_nil hat, hrest, rmatchIndices_last hback, List.head?_nil]
    refine List.find?_cons_of_pos ?_
    have hdrop : (user ++ ':' :: p ++ '@' :: (host ++ '/' :: path)).drop ((user ++ ':' :: p).length + 1) = host ++ '/' :: path := by
      rw [← List.drop_drop, List.drop_left]
      rfl
    rw [List.take_left, hdrop, hfollows]
    simp

/-- A password that leaks is cut at the `@` inside it. -/
theorem userinfoEnd_of_leaks {p : List Char} (h : Leaks p) : ∃ front, userinfoEnd (urlRest user p host path) = some front.length ∧
    urlRest user p host path = front ++ '@' :: (leaked p ++ '@' :: (host ++ '/' :: path)) := by
  obtain ⟨front, back, hauthority, hback⟩ := List.eq_append_cons_of_mem (List.mem_reverse.2 h.1)
  have hcut : authority p = back.reverse ++ '@' :: front.reverse := by
    have hreverse := congrArg List.reverse hauthority
    simpa using hreverse
  have hlast : '@' ∉ front.reverse := by simpa using hback
  obtain ⟨delimiter, rest, -, hp⟩ := (authority_rest p).resolve_left h.2
  have hleaked : p = back.reverse ++ '@' :: leaked p := by
    rw [leaked, hcut, rmatchIndices_last hlast, List.head?_cons, Option.elim_some, ← List.drop_drop]
    conv_rhs => rw [hp, hcut, List.append_assoc, List.drop_left]
    conv_lhs => rw [hp, hcut]
    simp
  refine ⟨user ++ ':' :: back.reverse, ?_, ?_⟩
  · have hfront : user ++ ':' :: (back.reverse ++ '@' :: front.reverse) = (user ++ ':' :: back.reverse) ++ '@' :: front.reverse := by
      simp
    rw [userinfoEnd, authority_urlRest huser hhost, if_neg h.2, hcut, hfront, rmatchIndices_last hlast]
    rfl
  · rw [urlRest]
    conv_lhs => rw [hleaked]
    simp

omit huser hhost

theorem splitOnce_append {ch : Char} {front : List Char} (h : ch ∉ front) (rest : List Char) :
    splitOnce ch (front ++ rest) = (splitOnce ch rest).map fun (base, query) => (front ++ base, query) := by
  have hplain : ∀ c ∈ front, (c != ch) = true := fun c hc => bne_iff_ne.2 fun heq => h (heq ▸ hc)
  rw [splitOnce, splitOnce, List.dropWhile_append_of_pos hplain, List.takeWhile_append_of_pos hplain]
  cases rest.dropWhile fun c => c != ch <;> rfl

theorem maskQuery_append {front : List Char} (h : '?' ∉ front) (rest : List Char) :
    maskQuery (front ++ rest) = front ++ maskQuery rest := by
  rw [maskQuery, splitOnce_append h, maskQuery]
  cases splitOnce '?' rest with
  | none => rfl
  | some parts => exact List.append_assoc _ _ _

theorem splitOnce_none {ch : Char} {text : List Char} (h : ch ∉ text) : splitOnce ch text = none := by
  have happend := splitOnce_append h []
  rw [List.append_nil] at happend
  rw [happend]
  rfl

theorem maskQuery_plain {text : List Char} (h : '?' ∉ text) : maskQuery text = text := by
  rw [maskQuery, splitOnce_none h]

/-- A query stays a query. -/
theorem mem_maskQuery {text : List Char} (h : '?' ∈ text) : '?' ∈ maskQuery text := by
  obtain ⟨front, back, rfl, hfront⟩ := List.eq_append_cons_of_mem h
  rw [maskQuery_append hfront]
  refine List.mem_append_right _ ?_
  have hsplit : splitOnce '?' ('?' :: back) = some ([], back) := rfl
  rw [maskQuery, hsplit]
  exact List.mem_cons_self ..

/-- A URL with a user, a password and a path. -/
def url (scheme user p host path : List Char) : List Char := scheme ++ "://".toList ++ urlRest user p host path

/-- The text that every URL of this shape is to be shown as. -/
def masked (scheme host path : List Char) : List Char :=
  scheme ++ "://".toList ++ "***@".toList ++ (host ++ '/' :: path)

/-- What is shown of the URL of a password that leaks: also the end of the password. -/
def maskedLeak (scheme p host path : List Char) : List Char :=
  scheme ++ "://".toList ++ "***@".toList ++ maskQuery (leaked p ++ '@' :: (host ++ '/' :: path))

variable (hscheme : ':' ∉ scheme) (hquery : '?' ∉ path)

include huser hhost hscheme in
theorem mask_of_leaks {p : List Char} (h : Leaks p) :
    maskUrlCredentials (url scheme user p host path) = maskedLeak scheme p host path := by
  obtain ⟨front, hend, hrest⟩ := userinfoEnd_of_leaks huser hhost h
  have hstars : '?' ∉ "***@".toList := by decide
  have hshown : "***".toList ++ '@' :: (leaked p ++ '@' :: (host ++ '/' :: path)) =
      "***@".toList ++ (leaked p ++ '@' :: (host ++ '/' :: path)) := rfl
  rw [url, maskUrlCredentials_scheme hscheme, hend, Option.elim_some, hrest, List.drop_left, hshown, maskQuery_append hstars,
    maskedLeak, List.append_assoc _ "***@".toList]

include hhost hquery in
theorem host_path_no_query : '?' ∉ host ++ '/' :: path := by
  rw [List.mem_append, List.mem_cons]
  rintro (hmem | hmem | hmem)
  · exact (hostChar_plain (hhost '?' hmem)).2.2 rfl
  · exact absurd hmem (by decide)
  · exact hquery hmem

include huser hhost hpath hscheme hquery in
theorem mask_of_not_leaks {p : List Char} (h : ¬Leaks p) :
    maskUrlCredentials (url scheme user p host path) = masked scheme host path := by
  have hrest : urlRest user p host path = (user ++ ':' :: p) ++ '@' :: (host ++ '/' :: path) := by simp [urlRest]
  have hstars : '?' ∉ "***@".toList := by decide
  have hshown : "***".toList ++ '@' :: (host ++ '/' :: path) = "***@".toList ++ (host ++ '/' :: path) := rfl
  rw [url, maskUrlCredentials_scheme hscheme, userinfoEnd_of_not_leaks huser hhost hpath h, Option.elim_some, hrest,
    List.drop_left, hshown, maskQuery_append hstars, maskQuery_plain (host_path_no_query hhost hquery), masked,
    List.append_assoc _ "***@".toList]

include hhost hquery in
/-- A text that shows the end of a password is no other's. -/
theorem maskedLeak_ne (p : List Char) : maskedLeak scheme p host path ≠ masked scheme host path := by
  intro heq
  have htail := List.append_cancel_left heq
  have hnoquery := host_path_no_query hhost hquery
  by_cases hmem : '?' ∈ leaked p ++ '@' :: (host ++ '/' :: path)
  · exact hnoquery (htail ▸ mem_maskQuery hmem)
  · rw [maskQuery_plain hmem] at htail
    have hlength := congrArg List.length htail
    rw [List.length_append, List.length_cons] at hlength
    omega

include huser hhost hpath hscheme hquery in
/-- Two passwords give one text when neither leaks; where both do, when what is printed of them is
one text. -/
theorem mask_eq_iff (p q : List Char) :
    maskUrlCredentials (url scheme user p host path) = maskUrlCredentials (url scheme user q host path) ↔
      (¬Leaks p ∧ ¬Leaks q) ∨ (Leaks p ∧ Leaks q ∧ maskedLeak scheme p host path = maskedLeak scheme q host path) := by
  by_cases hp : Leaks p <;> by_cases hq : Leaks q
  · rw [mask_of_leaks huser hhost hscheme hp, mask_of_leaks huser hhost hscheme hq]
    simp [hp, hq]
  · rw [mask_of_leaks huser hhost hscheme hp, mask_of_not_leaks huser hhost hpath hscheme hquery hq]
    simp [hp, hq, maskedLeak_ne hhost hquery p]
  · rw [mask_of_not_leaks huser hhost hpath hscheme hquery hp, mask_of_leaks huser hhost hscheme hq]
    simp [hp, hq, (maskedLeak_ne hhost hquery q).symm]
  · rw [mask_of_not_leaks huser hhost hpath hscheme hquery hp, mask_of_not_leaks huser hhost hpath hscheme hquery hq]
    simp [hp, hq]

theorem mask_eq_iff_plain : maskUrlCredentials (url "postgres".toList "user".toList "pa/s@s".toList "db".toList "app".toList) =
      maskUrlCredentials (url "postgres".toList "user".toList "p@ss?".toList "db".toList "app".toList) ↔
    (¬Leaks "pa/s@s".toList ∧ ¬Leaks "p@ss?".toList) ∨ (Leaks "pa/s@s".toList ∧ Leaks "p@ss?".toList ∧
      maskedLeak "postgres".toList "pa/s@s".toList "db".toList "app".toList =
        maskedLeak "postgres".toList "p@ss?".toList "db".toList "app".toList) :=
  mask_eq_iff (List.all_eq_true.mp (by decide)) (List.all_eq_true.mp (by decide)) (by decide) (by decide) (by decide) _ _

/-- A password with an `@` before a `/` is printed from there on. -/
theorem mask_shows_password :
    maskUrlCredentials (url "postgres".toList "user".toList "a@b/c".toList "db".toList "app".toList) = "postgres://***@b/c@db/app".toList ∧
    maskUrlCredentials (url "postgres".toList "user".toList "secret".toList "db".toList "app".toList) = "postgres://***@db/app".toList := by
  decide +kernel

end Url

end TideOrm.UrlMask
