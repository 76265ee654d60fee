import BuildInProgress.Lib.Text

/-!
# The project in an address

Two actions read the id of a project from the path of an address: the first `/projects/n/` in it counts, and
without one the last segment.  A path belongs to a project when it is `/projects/n`, or continues after it.
-/

namespace Text

/-- The first run of digits, `match('\d+').to_s`. -/
def firstDigits (t : Text) : Text := (t.dropWhile fun c => !c.isDigit).takeWhile Char.isDigit

/-- The digits of `/projects/\d+/` at the beginning of the text. -/
def projectHere (t : Text) : Option Text :=
  if "/projects/".toList.isPrefixOf t then
    let digits := (t.drop 10).takeWhile Char.isDigit
    if digits.isEmpty || ((t.drop 10).drop digits.length).head? != some '/' then none else some digits
  else none

/-- `match('\/projects\/\d+\/').to_s`: the leftmost match, or nothing. -/
def projectsMatch : Text → Text
  | [] => []
  | c :: cs =>
    match projectHere (c :: cs) with
    | some digits => "/projects/".toList ++ digits ++ ['/']
    | none => projectsMatch cs

/-- The id that is read from the path of an address; without one the answer is that the address is not valid. -/
def urlProjectId (path : Text) : Text :=
  let projectId := firstDigits (projectsMatch path)
  if projectId = [] then (split '/' path).getLast?.getD [] else projectId

end Text

open Text

/-- `CollectionsController#add_project` -/
def CollectionsController.urlProject (path : Text) : Text := urlProjectId path

/-- `ProjectsController#check_privacy` -/
def ProjectsController.urlProject (path : Text) : Text := urlProjectId path

namespace Text

/-- The path is the one of the project `n`, or of something below it. -/
def NamesProject (path n : Text) : Prop :=
  n ≠ [] ∧ (∀ c ∈ n, c.isDigit = true) ∧
    (path = "/projects/".toList ++ n ∨ ∃ rest, path = "/projects/".toList ++ n ++ '/' :: rest)

/-- The id that is read is that of the project if there is one, and otherwise empty. -/
structure Recognizes (path id : Text) : Prop where
  project : ∀ n, NamesProject path n → id = n
  other : (∀ n, ¬ NamesProject path n) → id = []

/-! ## The match -/

variable {t path n : Text}

theorem slash_not_isDigit : Char.isDigit '/' = false := by decide

theorem slash_notMem_digits (h : ∀ c ∈ n, c.isDigit = true) : '/' ∉ n := fun hmem => by
  have hd := h '/' hmem
  rw [slash_not_isDigit] at hd
  cases hd

theorem takeWhile_digits (h : ∀ c ∈ n, c.isDigit = true) (rest : Text) :
    (n ++ '/' :: rest).takeWhile Char.isDigit = n := by
  rw [List.takeWhile_append_of_pos h, List.takeWhile_cons_of_neg (by rw [slash_not_isDigit]; decide), List.append_nil]

theorem firstDigits_match (hn : ∀ c ∈ n, c.isDigit = true) (hne : n ≠ []) :
    firstDigits ("/projects/".toList ++ n ++ ['/']) = n := by
  have hletters : ("/projects/".toList.all fun c => !c.isDigit) = true := by decide +kernel
  rw [firstDigits, List.append_assoc, List.dropWhile_append_of_pos (List.all_eq_true.mp hletters)]
  cases n with
  | nil => exact absurd rfl hne
  | cons c cs =>
    rw [List.cons_append, List.dropWhile_cons_of_neg (by simp [hn c List.mem_cons_self]), ← List.cons_append]
    exact takeWhile_digits hn []

theorem projectHere_of_names (hn : ∀ c ∈ n, c.isDigit = true) (hne : n ≠ []) (rest : Text) :
    projectHere ("/projects/".toList ++ n ++ '/' :: rest) = some n := by
  have hpre : "/projects/".toList.isPrefixOf ("/projects/".toList ++ n ++ '/' :: rest) = true :=
    List.isPrefixOf_iff_prefix.mpr ⟨n ++ '/' :: rest, (List.append_assoc _ _ _).symm⟩
  have hdrop : ("/projects/".toList ++ n ++ '/' :: rest).drop 10 = n ++ '/' :: rest := by
    rw [List.append_assoc]
    rfl
  rw [projectHere, if_pos hpre, hdrop, takeWhile_digits hn]
  dsimp only
  rw [List.drop_left, if_neg]
  simp [hne]

/-- What a match says about the text. -/
theorem projectHere_some (h : projectHere t = some n) :
    n ≠ [] ∧ (∀ c ∈ n, c.isDigit = true) ∧ ("/projects/".toList ++ n ++ ['/']) <+: t := by
  rw [projectHere] at h
  split at h
  · rename_i hpre
    obtain ⟨u, rfl⟩ := List.isPrefixOf_iff_prefix.mp hpre
    have hdrop : ("/projects/".toList ++ u).drop 10 = u := rfl
    rw [hdrop] at h
    dsimp only at h
    split at h
    · cases h
    · rename_i hguard
      rw [Bool.or_eq_true, not_or, List.isEmpty_iff, bne_iff_ne, not_not] at hguard
      obtain rfl := Option.some.inj h
      refine ⟨hguard.1, fun c hc => List.mem_takeWhile_imp hc, ?_⟩
      have hsplit : u = u.takeWhile Char.isDigit ++ u.drop (u.takeWhile Char.isDigit).length :=
        (List.prefix_iff_eq_append.mp (List.takeWhile_prefix _)).symm
      obtain ⟨rest, hrest⟩ := List.head?_eq_some_iff.mp hguard.2
      refine ⟨rest, ?_⟩
      conv_rhs => rw [hsplit, hrest]
      simp only [List.append_assoc, List.singleton_append]
  · cases h

theorem projectsMatch_cases (t : Text) : projectsMatch t = [] ∨
    ∃ n, n ≠ [] ∧ (∀ c ∈ n, c.isDigit = true) ∧ projectsMatch t = "/projects/".toList ++ n ++ ['/'] ∧
      projectsMatch t <:+: t := by
  induction t with
  | nil => exact Or.inl rfl
  | cons c cs ih =>
    rw [projectsMatch]
    cases hhere : projectHere (c :: cs) with
    | none =>
      rcases ih with hnil | ⟨n, hne, hn, heq, hinfix⟩
      · exact Or.inl hnil
      · exact Or.inr ⟨n, hne, hn, heq, hinfix.trans (List.suffix_cons c cs).isInfix⟩
    | some n =>
      obtain ⟨hne, hn, hpre⟩ := projectHere_some hhere
      exact Or.inr ⟨n, hne, hn, rfl, hpre.isInfix⟩

/-! ## The last segment -/

theorem getLast_split_append (hne : n ≠ []) (hslash : '/' ∉ n) (a : Text) :
    (split '/' (a ++ '/' :: n)).getLast? = some n := by
  have hsplit : (a ++ '/' :: n).splitOn '/' = a.splitOn '/' ++ [n] := by
    rw [List.splitOn_append_cons_self, List.splitOn_eq_singleton hslash]
  rw [split, hsplit, List.rdropWhile_concat_neg _ _ _ (by simpa using hne), List.getLast?_concat]

/-- There is no last segment exactly if nothing but slashes is there. -/
theorem getLast_split_eq_nil : (split '/' path).getLast?.getD [] = [] ↔ ∀ c ∈ path, c = '/' := by
  have hsegments : (split '/' path).getLast?.getD [] = [] ↔ split '/' path = [] := by
    constructor
    · intro h
      by_contra hne
      rw [List.getLast?_eq_getLast_of_ne_nil hne, Option.getD_some] at h
      have hlast := List.rdropWhile_last_not List.isEmpty (path.splitOn '/') hne
      rw [show (List.rdropWhile List.isEmpty (path.splitOn '/')).getLast hne = [] from h] at hlast
      exact hlast rfl
    · intro h
      rw [h]
      rfl
  rw [hsegments, split, List.rdropWhile_eq_nil_iff]
  constructor
  · intro h c hc
    have hjoin : ['/'].intercalate (path.splitOn '/') = path := List.intercalate_splitOn '/'
    rw [← hjoin] at hc
    rcases mem_join hc with heq | ⟨seg, hseg, hc⟩
    · exact heq
    · rw [List.isEmpty_iff.mp (h seg hseg)] at hc
      cases hc
  · intro h seg hseg
    clear hsegments
    rw [List.isEmpty_iff]
    induction path with
    | nil => exact List.mem_singleton.mp hseg
    | cons c cs ih =>
      obtain rfl := h c List.mem_cons_self
      have hcons : ('/' :: cs).splitOn '/' = [] :: cs.splitOn '/' :=
        List.splitOn_append_cons_self_of_not_mem (List.not_mem_nil (a := '/')) cs
      rw [hcons] at hseg
      rcases List.mem_cons.mp hseg with rfl | hseg
      · rfl
      · exact ih (fun d hd => h d (List.mem_cons_of_mem _ hd)) hseg

/-! ## Which paths are read as they should be -/

theorem urlProjectId_of_names (h : NamesProject path n) : urlProjectId path = n := by
  obtain ⟨hne, hn, rfl | ⟨rest, rfl⟩⟩ := h
  · -- a match has three slashes, and the path two
    have hnone : projectsMatch ("/projects/".toList ++ n) = [] := by
      rcases projectsMatch_cases ("/projects/".toList ++ n) with hnil | ⟨m, -, hm, heq, hinfix⟩
      · exact hnil
      · have hcount := hinfix.count_le '/'
        rw [heq, List.count_append, List.count_append, List.count_append, List.count_eq_zero.mpr (slash_notMem_digits hn),
          List.count_eq_zero.mpr (slash_notMem_digits hm), List.count_singleton_self] at hcount
        omega
    have hlast := getLast_split_append hne (slash_notMem_digits hn) "/projects".toList
    rw [urlProjectId, hnone]
    rw [if_pos (by rfl)]
    show (split '/' ("/projects".toList ++ '/' :: n)).getLast?.getD [] = n
    rw [hlast, Option.getD_some]
  · have hmatch : projectsMatch ("/projects/".toList ++ n ++ '/' :: rest) = "/projects/".toList ++ n ++ ['/'] := by
      have hhere := projectHere_of_names hn hne rest
      cases ht : "/projects/".toList ++ n ++ '/' :: rest with
      | nil => simp at ht
      | cons c cs =>
        rw [ht] at hhere
        rw [projectsMatch, hhere]
    rw [urlProjectId, hmatch, firstDigits_match hn hne]
    exact if_neg hne

theorem urlProjectId_eq_nil : urlProjectId path = [] ↔ ∀ c ∈ path, c = '/' := by
  rw [urlProjectId]
  rcases projectsMatch_cases path with hnil | ⟨n, hne, hn, heq, hinfix⟩
  · rw [hnil]
    rw [if_pos (by rfl)]
    exact getLast_split_eq_nil
  · rw [heq, firstDigits_match hn hne]
    rw [if_neg hne]
    refine iff_of_false hne fun h => ?_
    have hp : 'p' ∈ path := hinfix.subset (heq ▸ by simp)
    exact absurd (h 'p' hp) (by decide)

theorem recognizes_iff :
    Recognizes path (urlProjectId path) ↔ (∃ n, NamesProject path n) ∨ ∀ c ∈ path, c = '/' := by
  constructor
  · intro h
    by_cases hnames : ∃ n, NamesProject path n
    · exact Or.inl hnames
    · exact Or.inr (urlProjectId_eq_nil.mp (h.other fun n hn => hnames ⟨n, hn⟩))
  · intro h
    refine ⟨fun n => urlProjectId_of_names, fun hnone => urlProjectId_eq_nil.mpr ?_⟩
    exact h.resolve_left fun ⟨n, hn⟩ => hnone n hn

end Text

/-- Both actions read the id as they should exactly for the paths of projects and for paths without a segment. -/
theorem url_recognized_iff (path : Text) :
    (Recognizes path (CollectionsController.urlProject path) ∧
      Recognizes path (ProjectsController.urlProject path)) ↔
      (∃ n, NamesProject path n) ∨ ∀ c ∈ path, c = '/' := by
  rw [← recognizes_iff]
  exact and_self_iff

/-- The collection 7 is taken for the project 7, and an address below it for another project. -/
theorem url_misread :
    ¬ Recognizes "/collections/7".toList (CollectionsController.urlProject "/collections/7".toList) ∧
      CollectionsController.urlProject "/collections/7".toList = "7".toList ∧
      ProjectsController.urlProject "/users/2/projects/3/".toList = "3".toList := by
  refine ⟨fun h => ?_, by decide, by decide⟩
  have hempty := h.other fun n hn => by
    obtain ⟨-, -, hpath | ⟨rest, hpath⟩⟩ := hn
    · have hletter : some 'c' = some 'p' := congrArg (fun t => (t.drop 1).head?) hpath
      exact absurd hletter (by decide)
    · have hletter : some 'c' = some 'p' := congrArg (fun t => (t.drop 1).head?) hpath
      exact absurd hletter (by decide)
  revert hempty
  decide
