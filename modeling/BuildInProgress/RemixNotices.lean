import Mathlib.Algebra.GroupWithZero.Nat
import BuildInProgress.Announcements

/-!
# Notices about a remix

When a remix is published, and whenever one of its steps is saved afterwards, `Project#set_published` tells the
authors of the projects it descends from.  It walks through the ancestors and, for each of them, through its authors.
-/

open Text

namespace Database

/-- The mails that are requested with the first publication; `remixed` is the setting of a user. -/
def remixMails (db : Database) (remixed : User → Bool) (p : Project) (u : Nat) : List User :=
  (db.remixRecipients p u).filter remixed

/-- How often the user is listed among the authors of the projects that `p` descends from. -/
def authorships (db : Database) (p : Project) (r : Nat) : Nat :=
  ((db.projectAncestors p).map fun q => (db.projectUsers q.id).countP (·.id = r)).sum

/-- The authors of at least one ancestor, without the current user. -/
def AncestorAuthor (db : Database) (p : Project) (u r : Nat) : Prop :=
  r ≠ u ∧ ∃ q ∈ db.projectAncestors p, ∃ a ∈ db.projectUsers q.id, a.id = r

variable {db : Database} {p : Project} {u : Nat}

theorem mem_remixRecipients {r : Nat} :
    r ∈ (db.remixRecipients p u).map User.id ↔ db.AncestorAuthor p u r := by
  rw [remixRecipients, List.mem_map, AncestorAuthor]
  constructor
  · rintro ⟨a, ha, rfl⟩
    obtain ⟨ha, hne⟩ := List.mem_filter.mp ha
    obtain ⟨q, hq, ha⟩ := List.mem_flatMap.mp ha
    exact ⟨of_decide_eq_true hne, q, hq, a, ha, rfl⟩
  · rintro ⟨hne, q, hq, a, ha, rfl⟩
    exact ⟨a, List.mem_filter.mpr ⟨List.mem_flatMap.mpr ⟨q, hq, ha⟩, decide_eq_true hne⟩, rfl⟩

/-- A user is told as often as they are listed. -/
theorem count_remixRecipients (r : Nat) :
    ((db.remixRecipients p u).map User.id).count r = if r = u then 0 else db.authorships p r := by
  have hcount : ∀ as : List User, (as.map User.id).count r = as.countP (·.id = r) := by
    intro as
    rw [List.count, List.countP_map]
    exact List.countP_congr fun a _ => by simp
  rw [hcount, remixRecipients, List.countP_filter]
  by_cases hr : r = u
  · rw [if_pos hr, List.countP_eq_zero]
    intro a _
    simp [hr]
  · rw [if_neg hr, List.countP_flatMap, authorships]
    refine congrArg List.sum (List.map_congr_left fun q _ => List.countP_congr fun a _ => ?_)
    simp only [Bool.and_eq_true, decide_eq_true_eq, and_iff_left_iff_imp]
    rintro rfl
    exact hr

theorem nodup_remixRecipients :
    ((db.remixRecipients p u).map User.id).Nodup ↔ ∀ r, r ≠ u → db.authorships p r ≤ 1 := by
  rw [List.nodup_iff_count_le_one]
  apply forall_congr'
  intro r
  rw [count_remixRecipients]
  by_cases hr : r = u
  · rw [if_pos hr]
    exact iff_of_true (Nat.zero_le 1) fun hne => absurd hr hne
  · rw [if_neg hr]
    exact ⟨fun h _ => h, fun h => h hr⟩

theorem announces_recipients (t : Trackable) (i : Nat) (key : Text) (rs : List User) :
    Announces ((rs.map User.id).map fun r => ⟨0, some t, some i, key, some u, some r, some true⟩) db
      (rs.foldl (fun (db : Database) (r : User) => db.createActivity t i key (some u) (some r.id)) db) := by
  rw [List.map_map]
  exact Announces.foldl (fun db r => Announces.create db t i key (some u) (some r.id)) rs db

/-- The recipients are told once each exactly if none of them is listed twice. -/
theorem tellsOnce_recipients (t : Trackable) (i : Nat) (key : Text) {db' : Database}
    (h : Announces (((db.remixRecipients p u).map User.id).map fun r =>
      ⟨0, some t, some i, key, some u, some r, some true⟩) db db') :
    TellsOnce t i key true (db.AncestorAuthor p u) db db' ↔ ∀ r, r ≠ u → db.authorships p r ≤ 1 := by
  rw [h.tellsOnce_iff, filterMap_tells, ← nodup_remixRecipients]
  exact and_iff_left fun r => mem_remixRecipients

/-- What a call of `set_published` owes the authors of the ancestors: when the remix is published for the first
time, one activity and at most one mail for each; later, one activity about the step that is saved. -/
def RemixNotices (remixed : User → Bool) (now u i : Nat) (step : Option Nat) (db : Database) : Prop :=
  ∀ p, db.projects.find? i = some p → p.isRemix = true → db.published p = true →
    (p.unpublished = true →
      TellsOnce .project i "project.create".toList true (db.AncestorAuthor p u) db (db.setPublished now u i step) ∧
        ∀ r, ((db.remixMails remixed p u).map User.id).count r ≤ 1) ∧
    (p.unpublished = false → p.isPrivate = false → ∀ s, step.bind db.steps.find? = some s →
      TellsOnce .step s.id (stepKey s) true (db.AncestorAuthor p u) db (db.setPublished now u i step))

/-- The call makes notices for the ancestors of the project. -/
def MakesNotices (step : Option Nat) (db : Database) (p : Project) : Prop :=
  p.isRemix = true ∧ db.published p = true ∧
    (p.unpublished = true ∨ p.isPrivate = false ∧ (step.bind db.steps.find?).isSome = true)

theorem tellsOnce_updateProject {t : Trackable} {i : Nat} {key : Text} {S : Nat → Prop} {db' : Database}
    (stamp : Option Nat) (j : Nat) (f : Project → Project) :
    TellsOnce t i key true S db (db'.updateProject stamp j f) ↔ TellsOnce t i key true S db db' := by
  have hactivities : (db'.updateProject stamp j f).activities = db'.activities :=
    touches_updateProject db' stamp j f .activities (by decide)
  rw [TellsOnce, TellsOnce, hactivities]

/-- The first publication. -/
theorem tellsOnce_first {now i : Nat} {step : Option Nat} (hp : db.projects.find? i = some p) (hremix : p.isRemix = true)
    (hpub : db.published p = true) (hfirst : p.unpublished = true) :
    TellsOnce .project i "project.create".toList true (db.AncestorAuthor p u) db (db.setPublished now u i step) ↔
      ∀ r, r ≠ u → db.authorships p r ≤ 1 := by
  have hid : p.id = i := (Table.find?_eq_some.mp hp).2
  have hcall : db.setPublished now u i step = (db.announceProject u p).updateProject (some now) i fun p =>
      { p with privacy := some "public".toList } := by
    rw [setPublished, hp]
    dsimp only
    rw [hpub, hfirst, Bool.and_true, if_pos rfl]
  have hannounce : Announces (((db.remixRecipients p u).map User.id).map fun r =>
      ⟨0, some .project, some i, "project.create".toList, some u, some r, some true⟩) db (db.announceProject u p) := by
    rw [announceProject, if_pos hremix, hid]
    exact announces_recipients .project i _ _
  rw [hcall, tellsOnce_updateProject]
  exact tellsOnce_recipients _ _ _ hannounce

/-- A step is saved in a remix that is shown. -/
theorem tellsOnce_later {now i : Nat} {step : Option Nat} {s : Step} (hp : db.projects.find? i = some p)
    (hremix : p.isRemix = true) (hpub : db.published p = true) (hlater : p.unpublished = false)
    (hshown : p.isPrivate = false) (hstep : step.bind db.steps.find? = some s) :
    TellsOnce .step s.id (stepKey s) true (db.AncestorAuthor p u) db (db.setPublished now u i step) ↔
      ∀ r, r ≠ u → db.authorships p r ≤ 1 := by
  have hcall : db.setPublished now u i step = (db.announceStep u p s).updateProject (some now) i fun p =>
      { p with privacy := some "public".toList } := by
    rw [setPublished, hp]
    dsimp only
    rw [hpub, hlater, Bool.and_false, if_neg Bool.false_ne_true, hshown, Bool.not_false, Bool.and_true, if_pos rfl, hstep]
    rfl
  have hannounce : Announces (((db.remixRecipients p u).map User.id).map fun r =>
      ⟨0, some .step, some s.id, stepKey s, some u, some r, some true⟩) db (db.announceStep u p s) := by
    rw [announceStep, if_pos hremix]
    exact announces_recipients .step s.id _ _
  rw [hcall, tellsOnce_updateProject]
  exact tellsOnce_recipients _ _ _ hannounce

/-- The mails go to some of the recipients. -/
theorem count_remixMails_le (remixed : User → Bool) (h : ∀ r, r ≠ u → db.authorships p r ≤ 1) (r : Nat) :
    ((db.remixMails remixed p u).map User.id).count r ≤ 1 := by
  have hmails : ((db.remixMails remixed p u).map User.id).Nodup :=
    (nodup_remixRecipients.mpr h).sublist (List.filter_sublist.map User.id)
  exact List.nodup_iff_count_le_one.mp hmails r

/-- The notices are as they should be exactly if nobody else is listed twice among the authors of the ancestors. -/
theorem remix_notices_iff (remixed : User → Bool) (now u i : Nat) (step : Option Nat) (db : Database) :
    RemixNotices remixed now u i step db ↔ ∀ p, db.projects.find? i = some p → MakesNotices step db p →
      ∀ r, r ≠ u → db.authorships p r ≤ 1 := by
  rw [RemixNotices]
  apply forall₂_congr
  intro p hp
  by_cases hremix : p.isRemix = true
  · by_cases hpub : db.published p = true
    · simp only [MakesNotices, hremix, hpub, true_and, forall_const]
      by_cases hfirst : p.unpublished = true
      · rw [tellsOnce_first hp hremix hpub hfirst]
        constructor
        · intro h _
          exact (h.1 hfirst).1
        · intro h
          have honce := h (Or.inl hfirst)
          refine ⟨fun _ => ⟨honce, count_remixMails_le remixed honce⟩, fun hlater => ?_⟩
          rw [hfirst] at hlater
          cases hlater
      · have hlater : p.unpublished = false := Bool.eq_false_of_not_eq_true hfirst
        simp only [hlater, Bool.false_eq_true, false_or, forall_const]
        rw [and_iff_right fun h => by cases h]
        by_cases hprivate : p.isPrivate = true
        · rw [hprivate]
          exact iff_of_true (fun h => by cases h) fun h => by cases h.1
        · have hshown : p.isPrivate = false := Bool.eq_false_of_not_eq_true hprivate
          cases hstep : step.bind db.steps.find? with
          | none => exact iff_of_true (fun _ _ hs => by cases hs) fun h => by cases h.2
          | some s =>
            simp only [hshown, forall_const, Option.some.injEq, forall_eq', Option.isSome_some, and_self]
            exact tellsOnce_later hp hremix hpub hlater hshown hstep
    · exact iff_of_true (fun _ h => absurd h hpub) fun h => absurd h.2.1 hpub
  · exact iff_of_true (fun h => absurd h hremix) fun h => absurd h.1 hremix

end Database

/-- A remix of a remix by ada; bob made both of the projects that it descends from. -/
def Database.secondRemix : Database :=
  { Database.empty with
    users := Database.adaAndBob
    projects := .ofRows [⟨1, "Lamp".toList, none, some "public".toList, none, none, none, none, none, 0, 0⟩,
      ⟨2, "Lamp".toList, none, some "public".toList, some "1".toList, none, none, none, none, 0, 1⟩,
      ⟨3, "Lamp".toList, none, none, some "1/2".toList, none, none, none, none, 2, 3⟩] 4 (by decide)
    projectsUsers := [(1, 2), (2, 2), (3, 1)]
    images := .ofRows [⟨1, none, some 3, some "lamp.png".toList, none, none, none, none, none, none, none, none, none⟩] 2 (by decide) }

/-- Bob gets the notice about the new remix twice, and a mail for each. -/
theorem remix_notices_repeated : ¬ Database.RemixNotices (fun _ => true) 4 1 3 none Database.secondRemix ∧
    (Database.secondRemix.setPublished 4 1 3 none).activities.rows.map (·.recipientId) = [some 2, some 2] := by
  refine ⟨?_, by decide +kernel⟩
  intro h
  obtain ⟨-, hmails⟩ := (h _ rfl (by decide) (by decide)).1 (by decide)
  exact absurd (hmails 2) (by decide +kernel)
