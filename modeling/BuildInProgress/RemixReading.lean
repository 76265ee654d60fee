import BuildInProgress.PublishedRows
import BuildInProgress.RemixLineage

/-!
# What a remix leaves of `last`

The loop of `Project#remix` resets `last` with an update of a record that may be invalid, and only for the
copies it comes to.  Here is which copies stay marked, from the ancestries of the original.
-/

open Text Ancestry

/-! ## Numerals -/

namespace Database

theorem head_toS {n : Nat} (h : 0 < n) : ∃ c cs, toS n = c :: cs ∧ c ≠ '0' := by
  induction n using Nat.strongRecOn with
  | ind n ih =>
    by_cases hlt : n < 10
    · refine ⟨n.digitChar, [], Nat.toDigits_of_lt_base hlt, ?_⟩
      intro hzero
      have hback : Nat.ofDigitChars 10 (toS n) 0 = n := Nat.ofDigitChars_ten_toDigits
      rw [toS, Nat.toDigits_of_lt_base hlt, hzero] at hback
      exact absurd hback.symm (by show n ≠ 0; omega)
    · obtain ⟨c, cs, heq, hc⟩ := ih (n / 10) (by omega) (by omega)
      refine ⟨c, cs ++ [(n % 10).digitChar], ?_, hc⟩
      rw [toS, Nat.toDigits_of_base_le (by decide) (by omega), ← toS, heq, List.cons_append]

theorem integer_toS (n : Nat) : integer (toS n) = some n := by
  have hdigits : ∀ c ∈ toS n, c.isDigit = true := fun c hc => isDigit_of_mem_toS hc
  have hstrip : (toS n).rdropWhile isSpace = toS n := by
    rw [List.rdropWhile_eq_self_iff]
    intro hne hspace
    rw [not_isSpace_of_isDigit (hdigits _ (List.getLast_mem hne))] at hspace
    cases hspace
  rcases Nat.eq_zero_or_pos n with rfl | hpos
  · decide
  · obtain ⟨c, cs, heq, hc⟩ := head_toS hpos
    have hall : (c :: cs).all Char.isDigit = true := List.all_eq_true.mpr (heq ▸ hdigits)
    rw [integer, hstrip, heq]
    dsimp only
    rw [hall, Bool.not_true, if_neg Bool.false_ne_true, if_neg hc, ← heq]
    exact congrArg some Nat.ofDigitChars_ten_toDigits

theorem mapM_integer_toS (l : List Nat) : (l.map toS).mapM integer = some l := by
  induction l with
  | nil => rfl
  | cons n l ih => rw [List.map_cons, List.mapM_cons, integer_toS, ih]; rfl

/-- The ancestries that the program writes are read as `remix` reads them. -/
theorem readIds_render {l : List Nat} (hl : l ≠ []) : readIds (some (render l)) = some l := by
  rw [readIds]
  split
  · rw [split_render, mapM_integer_toS]
  · rename_i hno
    rcases l with _ | ⟨a, _ | ⟨b, l⟩⟩
    · exact absurd rfl hl
    · rw [render_singleton]
      exact mapM_integer_toS [a]
    · rw [render_cons (by simp)] at hno
      simp at hno

/-! ## One copy -/

section Copy

variable {now : Nat} {authors : List Nat} {s r : Step}

theorem standing_credited (authors : List Nat) (s : Step) : (credited authors s).standing = s.standing := by
  unfold credited
  split
  · rfl
  · rfl

theorem standing_kept (h : r.standing = s.standing) : (kept now s r).standing = s.standing := by
  unfold kept
  split
  · rfl
  · exact h

/-- A copy loses the mark when its record is valid in the end. -/
theorem standing_settledCopy (h : r.standing = s.standing) : (settledCopy now authors s r).standing =
    if s.last = some true ∧ (credited authors s).valid = true then (s.id, s.projectId, some false)
    else s.standing := by
  have hsame := standing_credited authors s
  have hlast : (credited authors s).last = s.last := (credited_rest authors s).2.2.2.1
  -- the row after the first two saves
  have hfirst : (kept now (credited authors s) (kept now s r)).standing = s.standing := by
    rw [standing_kept ((standing_kept h).trans hsame.symm), hsame]
  unfold settledCopy
  dsimp only
  rw [hlast]
  by_cases hmarked : s.last = some true
  · rw [if_pos hmarked]
    have hvalid : ({ credited authors s with last := some false } : Step).valid = (credited authors s).valid := rfl
    cases hv : (credited authors s).valid with
    | true =>
      rw [if_pos ⟨hmarked, rfl⟩, kept, if_pos (hvalid.trans hv)]
      show ((credited authors s).id, (credited authors s).projectId, some false) = _
      rw [show (credited authors s).projectId = s.projectId from congrArg (fun x => x.2.1) hsame,
        (credited_rest authors s).1]
    | false =>
      have hno : ({ credited authors s with last := some false } : Step).valid ≠ true := by
        rw [hvalid, hv]
        exact Bool.false_ne_true
      rw [if_neg fun hc => Bool.false_ne_true hc.2, kept, if_neg hno, hfirst]
  · rw [if_neg hmarked, if_neg fun hc => hmarked hc.1, hfirst]

end Copy

/-- Two ids, one of them unknown, leave a gap between the slashes. -/
theorem pattern_joinIds {hash : Nat → Option Nat} {ids : List Nat} (hne : ids ≠ []) :
    pattern (joinIds hash ids) = ids.all fun i => (hash i).isSome := by
  rw [joinIds, pattern_join (by simpa using hne), List.all_map]
  · congr 1
    funext i
    rw [Function.comp]
    cases hash i with
    | none => rfl
    | some j =>
      rw [Option.isSome_some, Bool.not_eq_true', List.isEmpty_eq_false_iff]
      exact toS_ne_nil j
  · intro t ht c hc
    obtain ⟨i, -, rfl⟩ := List.mem_map.mp ht
    cases hi : hash i with
    | none =>
      rw [hi] at hc
      cases hc
    | some j =>
      rw [hi] at hc
      exact isDigit_of_mem_toS hc

theorem joinIds_known {hash : Nat → Option Nat} {f : Nat → Nat} {ids : List Nat} (h : ∀ i ∈ ids, hash i = some (f i)) :
    joinIds hash ids = render (ids.map f) := by
  rw [joinIds, render, List.map_map]
  congr 1
  apply List.map_congr_left
  intro i hi
  rw [h i hi]
  rfl

/-- A blank path makes the copy a step at the top. -/
theorem valid_credited_blank {s : Step} {authors : List Nat} {t : Text} (hname : blank s.name = false) (hid : s.id ≠ 0)
    (ht : blank t = true) : (credited authors { s with ancestry := some t }).valid = true := by
  have hzero : ancestorIds (some ['0']) = [0] := by decide
  have hown : ([0] : List Nat).contains s.id = false := by simpa using hid
  rw [credited, if_pos (by exact ht)]
  show (!blank s.name && validFormat (some ['0']) && !(ancestorIds (some ['0'])).contains s.id) = true
  rw [hname, hzero, hown]
  decide

theorem valid_credited_path {s : Step} {authors : List Nat} {t : Text} (hname : blank s.name = false)
    (ht : blank t = false) : (credited authors { s with ancestry := some t }).valid =
      (pattern t && !(ancestorIds (some t)).contains s.id) := by
  rw [credited, if_neg (by show ¬ blank t = true; rw [ht]; exact Bool.false_ne_true)]
  show (!blank s.name && validFormat (some t) && !(ancestorIds (some t)).contains s.id) = _
  rw [hname]
  rfl

/-- The record of a copy ends up valid when its own step is not on its path, and an unknown id stands alone:
it is dropped, and the copy goes to the top. -/
theorem valid_credited {hash : Nat → Option Nat} {s : Step} {i : Nat} {ids authors : List Nat}
    (hname : blank s.name = false) (hi : hash i = some s.id) (hid : s.id ≠ 0)
    (hinj : ∀ j, hash j = some s.id → j = i) :
    (credited authors { s with ancestry := some (joinIds hash ids) }).valid =
      (!ids.contains i && (ids.length == 1 || ids.all fun j => (hash j).isSome)) := by
  by_cases hknown : ∀ j ∈ ids, (hash j).isSome = true
  · -- all ids are renamed
    have hall : (ids.all fun j => (hash j).isSome) = true := List.all_eq_true.mpr hknown
    have hget : ∀ j ∈ ids, hash j = some ((hash j).getD 0) := by
      intro j hj
      obtain ⟨k, hk⟩ := Option.isSome_iff_exists.mp (hknown j hj)
      rw [hk, Option.getD_some]
    rw [hall, Bool.or_true, Bool.and_true, joinIds_known hget]
    by_cases hne : ids = []
    · rw [hne]
      exact valid_credited_blank hname hid rfl
    · have hne' : ids.map (fun j => (hash j).getD 0) ≠ [] := by simpa using hne
      rw [valid_credited_path hname (blank_render hne'), pattern_render hne', ancestorIds_render, Bool.true_and]
      congr 1
      rw [Bool.eq_iff_iff, List.contains_iff_mem, List.contains_iff_mem, List.mem_map]
      constructor
      · intro hmem
        obtain ⟨j, hj, heq⟩ := hmem
        rw [← hinj j (by rw [hget j hj, heq])]
        exact hj
      · intro hmem
        exact ⟨i, hmem, by rw [hi, Option.getD_some]⟩
  · have hall : (ids.all fun j => (hash j).isSome) = false := by
      rw [← Bool.not_eq_true, List.all_eq_true]
      exact hknown
    have hne : ids ≠ [] := by
      intro hnil
      rw [hnil] at hknown
      exact hknown (by simp)
    rw [hall, Bool.or_false]
    by_cases hone : ids.length = 1
    · -- the text is empty
      obtain ⟨j, rfl⟩ := List.length_eq_one_iff.mp hone
      have hj : hash j = none := by
        rw [List.forall_mem_singleton, Bool.not_eq_true, Option.isSome_eq_false_iff, Option.isNone_iff_eq_none] at hknown
        exact hknown
      have hij : i ≠ j := by
        rintro rfl
        rw [hi] at hj
        cases hj
      have hempty : joinIds hash [j] = [] := by
        rw [joinIds, List.map_singleton, hj]
        rfl
      rw [hempty, valid_credited_blank hname hid rfl]
      simp [hij]
    -- the slash between two ids is there even when both are unknown
    · have hblank : blank (joinIds hash ids) = false := by
        obtain ⟨j, k, rest, rfl⟩ : ∃ j k rest, ids = j :: k :: rest := by
          cases ids with
          | nil => exact absurd rfl hne
          | cons j l =>
            cases l with
            | nil => exact absurd rfl hone
            | cons k rest => exact ⟨j, k, rest, rfl⟩
        rw [joinIds, List.map_cons, List.map_cons, join, List.intercalate_cons_cons, blank, List.all_append,
          List.all_append]
        have hslash : ['/'].all isWideSpace = false := by decide
        rw [hslash, Bool.and_false, Bool.false_and]
      rw [valid_credited_path hname hblank, pattern_joinIds hne, hall, Bool.false_and, beq_eq_false_iff_ne.mpr hone, Bool.and_false]

/-! ## The loop -/

/-- The ids that place the copy of a step, read off the first step at its position. -/
def pathAt (db : Database) (p : Nat) (s : Step) : Option (List Nat) :=
  ((db.orderedSteps p).find? (·.position = s.position)).bind fun original => readIds original.ancestry

/-- The copy of `s` with these ids above it can be saved. -/
def renames (db : Database) (p : Nat) (s : Step) (ids : List Nat) : Bool :=
  !ids.contains s.id && (ids.length == 1 || ids.all fun i => (db.projectSteps p).any (·.id == i))

/-- The steps whose copies the loop comes to and can save. -/
def unmarked (db : Database) (p : Nat) (ss : List Step) : List Step :=
  (ss.takeWhile fun s => (db.pathAt p s).isSome).filter fun s => (db.pathAt p s).any (db.renames p s)

/-- The steps of the new project `q` are new copies of those of `p`. -/
structure Copied (db : Database) (p q : Nat) (hash : Nat → Option Nat) (c : Step → Step) : Prop where
  other : p ≠ q
  hashed : ∀ s ∈ db.projectSteps p, hash s.id = some (c s).id
  unknown : ∀ i, (∀ s ∈ db.projectSteps p, s.id ≠ i) → hash i = none
  injective : ∀ s ∈ db.projectSteps p, ∀ t ∈ db.projectSteps p, (c s).id = (c t).id → s = t
  positive : ∀ s ∈ db.projectSteps p, (c s).id ≠ 0
  fresh : ∀ s ∈ db.projectSteps p, ∀ t ∈ db.projectSteps p, (c s).id ≠ t.id
  named : ∀ s ∈ db.projectSteps p, blank (c s).name = false
  place : ∀ s, (c s).position = s.position ∧ (c s).last = s.last ∧ (c s).projectId = some q

section Loop

variable {db db' : Database} {p q : Nat} {hash : Nat → Option Nat} {c : Step → Step} {s : Step} (now : Nat)

theorem Copied.isSome_hash (h : Copied db p q hash c) (i : Nat) :
    (hash i).isSome = (db.projectSteps p).any (·.id == i) := by
  rw [Bool.eq_iff_iff, List.any_eq_true]
  constructor
  · intro hi
    by_contra hno
    have hnone := h.unknown i fun s hs heq => hno ⟨s, hs, beq_iff_eq.mpr heq⟩
    rw [hnone] at hi
    cases hi
  · intro hmem
    obtain ⟨s, hs, heq⟩ := hmem
    rw [← beq_iff_eq.mp heq, h.hashed s hs]
    rfl

theorem Copied.valid_iff (h : Copied db p q hash c) (hs : s ∈ db.projectSteps p) (authors ids : List Nat) :
    (credited authors { c s with ancestry := some (joinIds hash ids) }).valid = db.renames p s ids := by
  have hinj : ∀ j, hash j = some (c s).id → j = s.id := by
    intro j hj
    have hsome : (db.projectSteps p).any (·.id == j) = true := by
      rw [← h.isSome_hash, hj]
      rfl
    obtain ⟨t, ht, heq⟩ := List.any_eq_true.mp hsome
    have htj : t.id = j := beq_iff_eq.mp heq
    rw [← htj, h.hashed t ht, Option.some.injEq] at hj
    rw [← htj, h.injective t ht s hs hj]
  rw [valid_credited (h.named s hs) (h.hashed s hs) (h.positive s hs) hinj, renames]
  simp only [h.isSome_hash]

/-- One iteration reads the path off the original, which it has not changed. -/
theorem Copied.readStep_eq (h : Copied db p q hash c) (hsteps : db'.projectSteps p = db.projectSteps p) (s : Step) :
    (db.pathAt p s = none ∧ db'.readStep now p hash (c s) = none) ∨
      ∃ original ids, db.pathAt p s = some ids ∧ db'.readStep now p hash (c s) =
        some (db'.settleCopy now original { c s with ancestry := some (joinIds hash ids) }) := by
  have hordered : db'.orderedSteps p = db.orderedSteps p := by rw [orderedSteps, hsteps, orderedSteps]
  have hfind : (db'.orderedSteps p).find? (·.position = (c s).position) =
      (db.orderedSteps p).find? (·.position = s.position) := by rw [hordered, (h.place s).1]
  rw [readStep, pathAt, hfind]
  cases (db.orderedSteps p).find? (·.position = s.position) with
  | none => exact Or.inl ⟨rfl, rfl⟩
  | some original =>
    dsimp only
    rw [Option.bind_some]
    cases readIds original.ancestry with
    | none => exact Or.inl ⟨rfl, rfl⟩
    | some ids => exact Or.inr ⟨original, ids, rfl, rfl⟩

theorem Copied.settleCopy (h : Copied db p q hash c) (hs : s ∈ db.projectSteps p)
    (hsteps : db'.projectSteps p = db.projectSteps p)
    (hrow : ∀ r ∈ db'.steps.rows, r.id = (c s).id → r.standing = (c s).standing) (original : Step) (ids : List Nat) :
    let db₁ := db'.settleCopy now original { c s with ancestry := some (joinIds hash ids) }
    db₁.projectSteps p = db.projectSteps p ∧ db₁.steps.rows.map Step.standing = db'.steps.rows.map fun r =>
      if r.id = (c s).id ∧ s.last = some true ∧ db.renames p s ids = true then (r.id, r.projectId, some false)
      else r.standing := by
  dsimp only
  obtain ⟨hrows, -, -⟩ := settleCopy_spec db' now original { c s with ancestry := some (joinIds hash ids) }
  generalize (db'.stepUsersByName original.id).map User.id = authors at hrows
  -- what becomes of the row of the copy
  have hcopy : ∀ r ∈ db'.steps.rows, r.id = (c s).id →
      (settledCopy now authors { c s with ancestry := some (joinIds hash ids) } r).standing =
        if s.last = some true ∧ db.renames p s ids = true then (r.id, r.projectId, some false) else r.standing := by
    intro r hr hid
    have hstanding := hrow r hr hid
    have hproject : r.projectId = (c s).projectId := congrArg (fun x => x.2.1) hstanding
    rw [standing_settledCopy (by exact hstanding), h.valid_iff hs]
    show (if (c s).last = some true ∧ db.renames p s ids = true then ((c s).id, (c s).projectId, some false)
      else (c s).standing) = _
    rw [(h.place s).2.1, hid, hproject, hstanding]
  constructor
  · rw [projectSteps, hrows, List.filter_map, ← hsteps, projectSteps]
    have hkept : db'.steps.rows.filter ((fun r : Step => decide (r.projectId = some p)) ∘ fun r =>
        if r.id = (c s).id then settledCopy now authors { c s with ancestry := some (joinIds hash ids) } r else r) =
        db'.steps.rows.filter (·.projectId = some p) := by
      apply List.filter_congr
      intro r hr
      rw [Function.comp]
      by_cases hid : r.id = (c s).id
      · have hboth := congrArg (fun x => x.2.1) (hcopy r hr hid)
        have hproject : (settledCopy now authors { c s with ancestry := some (joinIds hash ids) } r).projectId =
            r.projectId := by
          refine Eq.trans hboth ?_
          split
          · rfl
          · rfl
        rw [if_pos hid, hproject]
      · rw [if_neg hid]
    refine Eq.trans (congrArg (List.map _) hkept) ?_
    apply List.map_eq_self_of_forall
    intro r hr
    refine if_neg fun hid => ?_
    have hmem : r ∈ db.projectSteps p := hsteps ▸ hr
    exact h.fresh s hs r hmem hid.symm
  · rw [hrows, List.map_map]
    apply List.map_congr_left
    intro r hr
    rw [Function.comp]
    by_cases hid : r.id = (c s).id
    · rw [if_pos (by exact hid), hcopy r hr hid]
      simp only [hid, true_and]
    · rw [if_neg (by exact hid), if_neg fun hc => hid hc.1]

/-- The copies that come later have not changed. -/
theorem Copied.others (h : Copied db p q hash c) {l : List Step} (hl : ∀ t ∈ s :: l, t ∈ db.projectSteps p)
    (hn : (s :: l).Nodup) (hsteps : db'.projectSteps p = db.projectSteps p)
    (hrows : ∀ t ∈ s :: l, ∀ r ∈ db'.steps.rows, r.id = (c t).id → r.standing = (c t).standing)
    (original : Step) (ids : List Nat) :
    ∀ t ∈ l, ∀ r ∈ (db'.settleCopy now original { c s with ancestry := some (joinIds hash ids) }).steps.rows,
      r.id = (c t).id → r.standing = (c t).standing := by
  have hs := hl s List.mem_cons_self
  obtain ⟨-, hrows₁⟩ := h.settleCopy now hs hsteps (hrows s List.mem_cons_self) original ids
  intro t ht r hr hid
  have hst := List.mem_map_of_mem (f := Step.standing) hr
  rw [hrows₁] at hst
  obtain ⟨r', hr', heq⟩ := List.mem_map.mp hst
  have hne : (c t).id ≠ (c s).id := by
    intro heq
    rw [h.injective t (hl t (List.mem_cons_of_mem s ht)) s hs heq] at ht
    exact (List.nodup_cons.mp hn).1 ht
  have hid' : r'.id = r.id := by
    have hfst := congrArg Prod.fst heq
    split at hfst
    · exact hfst
    · exact hfst
  rw [if_neg fun hc => hne (hid.symm.trans (hid'.symm.trans hc.1))] at heq
  rw [← heq]
  exact hrows t (List.mem_cons_of_mem s ht) r' hr' (hid'.trans hid)

/-- After the loop the copies that could be saved are not marked, and no other row has changed. -/
theorem Copied.readSteps (h : Copied db p q hash c) {l : List Step} (hl : ∀ s ∈ l, s ∈ db.projectSteps p)
    (hn : l.Nodup) (hsteps : db'.projectSteps p = db.projectSteps p)
    (hrows : ∀ s ∈ l, ∀ r ∈ db'.steps.rows, r.id = (c s).id → r.standing = (c s).standing) :
    (readSteps now p hash (l.map c) db').2.steps.rows.map Step.standing = db'.steps.rows.map fun r =>
      if ∃ s ∈ db.unmarked p l, r.id = (c s).id ∧ s.last = some true then (r.id, r.projectId, some false)
      else r.standing := by
  induction l generalizing db' with
  | nil =>
    apply List.map_congr_left
    intro r _
    rw [if_neg]
    intro hc
    obtain ⟨s, hs, -⟩ := hc
    cases hs
  | cons s l ih =>
    have hs := hl s List.mem_cons_self
    rw [List.map_cons, Database.readSteps]
    rcases h.readStep_eq now hsteps s with ⟨hpath, heq⟩ | ⟨original, ids, hpath, heq⟩
    · -- an ancestry cannot be read
      rw [heq]
      have hnil : db.unmarked p (s :: l) = [] := by
        rw [unmarked, List.takeWhile_cons_of_neg]
        · rfl
        · rw [hpath]
          exact Bool.false_ne_true
      rw [hnil]
      apply List.map_congr_left
      intro r _
      rw [if_neg]
      intro hc
      obtain ⟨t, ht, -⟩ := hc
      cases ht
    · rw [heq]
      dsimp only
      obtain ⟨hsteps₁, hrows₁⟩ := h.settleCopy now hs hsteps (hrows s List.mem_cons_self) original ids
      have hmem : ∀ t, t ∈ db.unmarked p (s :: l) ↔ (t = s ∧ db.renames p s ids = true) ∨ t ∈ db.unmarked p l := by
        intro t
        have hsome : (db.pathAt p s).isSome = true := by
          rw [hpath]
          rfl
        rw [unmarked, List.takeWhile_cons, if_pos hsome, List.filter_cons, hpath, Option.any_some]
        by_cases hrenames : db.renames p s ids = true
        · rw [if_pos hrenames, List.mem_cons, ← unmarked]
          simp only [hrenames, and_true]
        · rw [if_neg hrenames, ← unmarked]
          exact ⟨Or.inr, fun hmem => hmem.resolve_left fun hc => hrenames hc.2⟩
      -- the rest of the loop finds the later copies as they were
      rw [ih (fun t ht => hl t (List.mem_cons_of_mem s ht)) (List.nodup_cons.mp hn).2 hsteps₁ ?_]
      · -- both maps read a row only through its standing
        have hread : ∀ rows : List Step, (rows.map fun r =>
            if ∃ t ∈ db.unmarked p l, r.id = (c t).id ∧ t.last = some true then (r.id, r.projectId, some false)
            else r.standing) = (rows.map Step.standing).map fun x =>
              if ∃ t ∈ db.unmarked p l, x.1 = (c t).id ∧ t.last = some true then (x.1, x.2.1, some false) else x := by
          intro rows
          rw [List.map_map]
          rfl
        rw [hread, hrows₁, List.map_map]
        apply List.map_congr_left
        intro r _
        rw [Function.comp]
        by_cases hold : ∃ t ∈ db.unmarked p l, r.id = (c t).id ∧ t.last = some true
        · obtain ⟨t, ht, hid, hlast⟩ := hold
          have hnew : ∃ t ∈ db.unmarked p (s :: l), r.id = (c t).id ∧ t.last = some true :=
            ⟨t, (hmem t).mpr (Or.inr ht), hid, hlast⟩
          rw [if_pos hnew]
          split
          · exact if_pos ⟨t, ht, hid, hlast⟩
          · exact if_pos ⟨t, ht, hid, hlast⟩
        · by_cases hone : r.id = (c s).id ∧ s.last = some true ∧ db.renames p s ids = true
          · have hnew : ∃ t ∈ db.unmarked p (s :: l), r.id = (c t).id ∧ t.last = some true :=
              ⟨s, (hmem s).mpr (Or.inl ⟨rfl, hone.2.2⟩), hone.1, hone.2.1⟩
            rw [if_pos hone, if_pos hnew]
            exact if_neg hold
          · rw [if_neg hone]
            rw [if_neg (by exact hold), if_neg]
            intro hc
            obtain ⟨t, ht, hid, hlast⟩ := hc
            rcases (hmem t).mp ht with ⟨rfl, hrenames⟩ | ht
            · exact hone ⟨hid, hlast, hrenames⟩
            · exact hold ⟨t, ht, hid, hlast⟩
      · exact h.others now hl hn hsteps hrows original ids

/-- When every ancestry reads as its decimals the loop is the one of `remix`. -/
theorem Copied.readSteps_eq (h : Copied db p q hash c)
    (hread : ∀ s ∈ db.projectSteps p, readIds s.ancestry = some (ancestryArray s.ancestry)) {l : List Step}
    (hl : ∀ s ∈ l, s ∈ db.projectSteps p) (hn : l.Nodup) (hsteps : db'.projectSteps p = db.projectSteps p)
    (hrows : ∀ s ∈ l, ∀ r ∈ db'.steps.rows, r.id = (c s).id → r.standing = (c s).standing) :
    Database.readSteps now p hash (l.map c) db' = (true, (l.map c).foldl (remixStep now p hash) db') := by
  induction l generalizing db' with
  | nil => rfl
  | cons s l ih =>
    have hs := hl s List.mem_cons_self
    have hfound : ∃ original, (db'.orderedSteps p).find? (·.position = (c s).position) = some original ∧
        original ∈ db.projectSteps p := by
      cases hfind : (db'.orderedSteps p).find? (·.position = (c s).position) with
      | none =>
        have hno := List.find?_eq_none.mp hfind s (mem_orderedSteps.mpr (hsteps ▸ hs))
        simp [(h.place s).1] at hno
      | some original =>
        refine ⟨original, rfl, ?_⟩
        rw [← hsteps]
        exact mem_orderedSteps.mp (List.mem_of_find?_eq_some hfind)
    obtain ⟨original, hfind, horiginal⟩ := hfound
    have hone : remixStep now p hash db' (c s) = db'.settleCopy now original
        { c s with ancestry := some (joinIds hash (ancestryArray original.ancestry)) } := by
      rw [remixStep, hfind]
      rfl
    rw [List.map_cons, Database.readSteps, readStep, hfind]
    dsimp only
    rw [hread original horiginal, Option.map_some, List.foldl_cons, hone]
    exact ih (fun t ht => hl t (List.mem_cons_of_mem s ht)) (List.nodup_cons.mp hn).2
      (h.settleCopy now hs hsteps (hrows s List.mem_cons_self) original _).1 (h.others now hl hn hsteps hrows original _)

end Loop

/-! ## The whole remix -/

section Remix

variable {db : Database} {u : User} {now p : Nat} {project : Project}

theorem copied_beginRemix (u : User) (hproject : db.projects.find? p = some project)
    (hvalid : remixValid (remixProject project now db.projects.next) (db.projectSteps p) = true)
    (hnew : db.projectSteps db.projects.next = []) :
    ∃ c : Step → Step,
      db.Copied p db.projects.next ((db.beginRemix u now p project).stepHash p db.projects.next) c ∧
      (db.beginRemix u now p project).projectSteps p = db.projectSteps p ∧
      (db.beginRemix u now p project).orderedSteps db.projects.next = (db.orderedSteps p).map c ∧
      (db.beginRemix u now p project).steps.rows = db.steps.rows ++ (db.projectSteps p).map c ∧
      ∀ s, db.steps.next ≤ (c s).id := by
  obtain ⟨hp, -⟩ := projectSteps_beginRemix hproject hnew u now
  obtain ⟨-, hordered⟩ := orderedSteps_beginRemix hproject hnew u now
  have hnamed : ∀ s ∈ db.projectSteps p, blank s.name = false := by
    rw [remixValid, Bool.and_eq_true, List.all_eq_true] at hvalid
    intro s hs
    have hs' := hvalid.2 s hs
    rw [Step.validNew, Bool.and_eq_true, Bool.not_eq_true'] at hs'
    exact hs'.1
  refine ⟨db.copyOf now p, ?_, hp, hordered, db.rows_beginRemix u now p project, db.le_copyOf now p⟩
  refine ⟨ne_next_of_find? hproject, ?_, ?_, ?_, ?_, ?_, ?_, fun _ => ⟨rfl, rfl, rfl⟩⟩
  · exact fun s hs => stepHash_beginRemix hproject hnew u now hs
  · exact fun i hi => stepHash_beginRemix_eq_none hproject hnew u now hi
  · exact fun s hs t ht heq => List.inj_on_of_nodup_map (db.nodup_copyOf now p) hs ht heq
  · intro s hs
    have hlt : s.id < db.steps.next := (db.steps.bound s (mem_projectSteps.mp hs).1).2
    have hle := db.le_copyOf now p s
    omega
  · exact fun s _ t ht => db.copyOf_ne now p s (mem_projectSteps.mp ht).1
  · exact fun s hs => hnamed s hs

theorem touches_readSteps (now p : Nat) (hash : Nat → Option Nat) (ss : List Step) (db : Database) :
    Touches [.steps, .decisions, .edits] db (readSteps now p hash ss db).2 := by
  induction ss generalizing db with
  | nil => exact .refl _ db
  | cons s ss ih =>
    rw [readSteps]
    cases hstep : db.readStep now p hash s with
    | none => exact .refl _ db
    | some db' =>
      refine Touches.trans ?_ (ih db')
      rw [readStep] at hstep
      cases hfind : (db.orderedSteps p).find? (·.position = s.position) with
      | none =>
        rw [hfind] at hstep
        cases hstep
      | some original =>
        rw [hfind] at hstep
        obtain ⟨ids, -, heq⟩ := Option.map_eq_some_iff.mp hstep
        rw [← heq]
        exact touches_settleCopy db now original _

/-- A remix is refused, or it adds a project. -/
theorem remixOrRaise_project (u : User) (now p : Nat) (db : Database) :
    (remixOrRaise u now p db).2 = db ∧ (∀ project, db.projects.find? p = some project →
        remixValid (remixProject project now db.projects.next) (db.projectSteps p) = false) ∨
      ∃ project description, db.projects.find? p = some project ∧
        remixValid (remixProject project now db.projects.next) (db.projectSteps p) = true ∧
        (remixOrRaise u now p db).2.projects.rows =
          db.projects.rows ++ [{ remixProject project now db.projects.next with description }] ∧
        (remixOrRaise u now p db).2.projects.next = db.projects.next + 1 := by
  rw [remixOrRaise]
  cases hproject : db.projects.find? p with
  | none => exact Or.inl ⟨rfl, nofun⟩
  | some project =>
    dsimp only
    cases hvalid : remixValid (remixProject project now db.projects.next) (db.projectSteps p) with
    | false =>
      refine Or.inl ⟨rfl, fun project' heq => ?_⟩
      cases heq
      exact hvalid
    | true =>
      right
      obtain ⟨description, hprojects, hnext, -, -, -⟩ := db.beginRemix_spec u now p project
      rw [Bool.not_true, if_neg Bool.false_ne_true]
      generalize db.beginRemix u now p project = db₁ at *
      have htouches := touches_readSteps now p (db₁.stepHash p db.projects.next) (db₁.orderedSteps db.projects.next) db₁
      have himages := touches_remixImages (readSteps now p (db₁.stepHash p db.projects.next)
        (db₁.orderedSteps db.projects.next) db₁).2 db.projects.next (db₁.stepHash p db.projects.next)
        ((db.projectImages p).insertionSort (imageBefore · ·))
      refine ⟨project, description, rfl, hvalid, ?_⟩
      split
      · have hloop : Touches [.steps, .decisions, .edits, .images, .videos] db₁ _ := htouches.mono (by decide)
        have hlast := hloop.trans (himages.mono (by decide))
        rw [(hlast .projects (by decide) : _ = _)]
        exact ⟨hprojects, hnext⟩
      · rw [(htouches .projects (by decide) : _ = _)]
        exact ⟨hprojects, hnext⟩

/-- A remix copies every step.  The copies of marked steps that the loop did not come to, or could not save, are
marked. -/
theorem standing_remixOrRaise (u : User) (hproject : db.projects.find? p = some project)
    (hvalid : remixValid (remixProject project now db.projects.next) (db.projectSteps p) = true)
    (hnew : db.projectSteps db.projects.next = []) :
    ∃ c : Step → Step, (remixOrRaise u now p db).2.steps.rows.map Step.standing =
      db.steps.rows.map Step.standing ++ (db.projectSteps p).map fun s => ((c s).id, some db.projects.next,
        if s ∈ db.unmarked p (db.orderedSteps p) ∧ s.last = some true then some false else s.last) := by
  obtain ⟨c, hcopied, hp, hq, hrows, hids⟩ := copied_beginRemix u hproject hvalid hnew
  refine ⟨c, ?_⟩
  rw [remixOrRaise, hproject]
  dsimp only
  rw [hvalid, Bool.not_true, if_neg Bool.false_ne_true, hq]
  generalize db.beginRemix u now p project = db₁ at *
  generalize db₁.stepHash p db.projects.next = hash at *
  have hloop := hcopied.readSteps now (l := db.orderedSteps p) (fun s hs => mem_orderedSteps.mp hs)
    (List.Nodup.of_map _ (db.nodup_orderedSteps p)) hp fun s hs r hr hid => by
      rw [Table.eq_of_key hr ?_ hid]
      rw [hrows]
      exact List.mem_append_right _ (List.mem_map_of_mem (mem_orderedSteps.mp hs))
  generalize Database.readSteps now p hash ((db.orderedSteps p).map c) db₁ = r at *
  -- the images come after the steps
  have hsteps : (if r.1 = true then (Outcome.ok, ((db.projectImages p).insertionSort (imageBefore · ·)).foldl
      (remixImage db.projects.next hash) r.2) else (.error, r.2)).2.steps = r.2.steps := by
    split
    · exact touches_remixImages _ _ _ _ .steps (by decide)
    · rfl
  rw [hsteps, hloop, hrows, List.map_append, List.map_map]
  congr 1
  · apply List.map_congr_left
    intro r hr
    refine if_neg fun hc => ?_
    obtain ⟨s, -, hid, -⟩ := hc
    have hlt : r.id < db.steps.next := (db.steps.bound r hr).2
    have hle := hids s
    omega
  · apply List.map_congr_left
    intro s hs
    rw [Function.comp]
    have hown : (∃ t ∈ db.unmarked p (db.orderedSteps p), (c s).id = (c t).id ∧ t.last = some true) ↔
        s ∈ db.unmarked p (db.orderedSteps p) ∧ s.last = some true := by
      constructor
      · intro hc
        obtain ⟨t, ht, hid, hmarked⟩ := hc
        have htp : t ∈ db.projectSteps p :=
          mem_orderedSteps.mp ((List.takeWhile_sublist _).subset (List.mem_filter.mp ht).1)
        rw [hcopied.injective s hs t htp hid]
        exact ⟨ht, hmarked⟩
      · exact fun hc => ⟨s, hc.1, rfl, hc.2⟩
    obtain ⟨-, hclast, hcproject⟩ := hcopied.place s
    by_cases hc : s ∈ db.unmarked p (db.orderedSteps p) ∧ s.last = some true
    · rw [if_pos (hown.mpr hc), if_pos hc, hcproject]
    · rw [if_neg fun h => hc (hown.mp h), if_neg hc, Step.standing, hcproject, hclast]

/-- On ancestries whose numerals are decimals the remix that may raise is the one that does not. -/
theorem remixOrRaise_eq (u : User) (now p : Nat) (db : Database) (hnew : db.projectSteps db.projects.next = [])
    (hread : ∀ s ∈ db.projectSteps p, readIds s.ancestry = some (ancestryArray s.ancestry)) :
    (remixOrRaise u now p db).2 = (remix u now p db).2 := by
  rw [remixOrRaise, remix]
  cases hproject : db.projects.find? p with
  | none => rfl
  | some project =>
    dsimp only
    cases hvalid : remixValid (remixProject project now db.projects.next) (db.projectSteps p) with
    | false => rfl
    | true =>
      obtain ⟨c, hcopied, hp, hq, hrows, -⟩ := copied_beginRemix u hproject hvalid hnew
      rw [Bool.not_true, if_neg Bool.false_ne_true, if_neg Bool.false_ne_true, ← beginRemix, remixSteps, hq]
      generalize db.beginRemix u now p project = db₁ at *
      rw [hcopied.readSteps_eq now hread (fun s hs => mem_orderedSteps.mp hs)
        (List.Nodup.of_map _ (db.nodup_orderedSteps p)) hp ?_, if_pos rfl]
      intro s hs r hr hid
      rw [Table.eq_of_key hr ?_ hid]
      rw [hrows]
      exact List.mem_append_right _ (List.mem_map_of_mem (mem_orderedSteps.mp hs))

end Remix

end Database
