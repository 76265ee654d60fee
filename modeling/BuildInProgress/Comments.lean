import BuildInProgress.Ability
import BuildInProgress.Announcements
import BuildInProgress.DanglingActivities

/-!
# Commenting on a step

`CommentsController#create` tells the authors of the project and the people who have commented on the step
before.  A comment stays when the account of its author is deleted.  Mails change no row.
-/

open Text Keyed

/-- `comments`, with the columns that say who wrote what. -/
structure UserComment extends Comment where
  userId : Nat
  body : Text
  deriving DecidableEq, Repr

instance : Keyed UserComment := ⟨fun c => c.id⟩

/-- The database and its comments. -/
structure Threads where
  db : Database
  comments : Table UserComment

namespace Database

/-- `@project.steps.find`, which looks among the steps of the project only. -/
def findProjectStep (db : Database) (p : Nat) : StepKey → Option Step
  | .integer i => (db.projectSteps p).find? fun s => (s.id : Int) = i
  | .text t => ((db.projectSteps p).find? (·.position = Text.toI t)).or
      ((db.projectSteps p).find? fun s => (s.id : Int) = Text.toI t)

end Database

namespace Threads

/-- `step.comment_threads` -/
def commentThreads (w : Threads) (s : Nat) : List UserComment :=
  w.comments.rows.filter fun c => c.commentableType == "Step".toList && c.commentableId == s

end Threads

namespace CommentsController

/-- The user of an earlier comment is pushed once, unless it is the author of the comment or one of the authors
of the project.  The user may be gone; nobody includes a nil. -/
def pushUser (db : Database) (authors : List User) (c : Nat) (ids : List Nat) (x : UserComment) : List Nat :=
  if !ids.contains x.userId && x.userId != c &&
      !(db.users.find? x.userId).any fun user => authors.any fun a => a.id == user.id then
    ids ++ [x.userId]
  else ids

/-- The users that have previously commented on the step. -/
def commentUsers (db : Database) (authors : List User) (c : Nat) (thread : List UserComment) : List Nat :=
  thread.foldl (pushUser db authors c) []

/-- The loop over the authors. -/
def notifyAuthors (authors : List User) (c i : Nat) (db : Database) : Database :=
  (authors.filter (·.id ≠ c)).foldl (fun (db : Database) (r : User) =>
    db.recordActivity .comment i "comment.create".toList (some c) (some r.id) true) db

/-- The loop over the other commenters; `User.find` raises for an account that is gone. -/
def notifyCommenters (c i : Nat) : List Nat → Database → Bool × Database
  | [], db => (true, db)
  | r :: rs, db =>
    match db.users.find? r with
    | none => (false, db)
    | some user =>
      notifyCommenters c i rs
        (db.recordActivity .comment i "comment.create".toList (some c) (some user.id) false)

/-- `Comment#valid?` -/
def valid (db : Database) (c : Nat) (body : Text) : Bool := !blank body && (db.users.find? c).isSome

/-- `POST /projects/:project_id/steps/:step_id/comments` -/
def create (current : User) (p : Nat) (key : StepKey) (body : Text) (w : Threads) : Outcome × Threads :=
  match w.db.projects.find? p with
  | none => (.notFound, w)
  | some project =>
    match w.db.findProjectStep project.id key with
    | none => (.notFound, w)
    | some step =>
      if !valid w.db current.id body then (.invalid, w)
      else
        let i := w.comments.next
        let comments := w.comments.insert (fun i => ⟨⟨i, "Step".toList, step.id⟩, current.id, body⟩) (fun _ => rfl)
        let authors := w.db.projectUsers project.id
        let db := notifyAuthors authors current.id i w.db
        let thread := Threads.commentThreads ⟨db, comments⟩ step.id
        let r := notifyCommenters current.id i (commentUsers db authors current.id thread) db
        (if r.1 then .ok else .error, ⟨r.2, comments⟩)

end CommentsController

/-! ## Who is told -/

namespace CommentsController

open Database

variable {db : Database} {authors : List User} {c i : Nat} {thread : List UserComment}

/-- Neither the author of the comment nor an author of the project. -/
def Others (db : Database) (authors : List User) (c r : Nat) : Prop :=
  r ≠ c ∧ ∀ user, db.users.find? r = some user → user.id ∉ authors.map User.id

theorem pushUser_cases (db : Database) (authors : List User) (c : Nat) (ids : List Nat) (x : UserComment) :
    ((x.userId ∉ ids ∧ Others db authors c x.userId) ∧ pushUser db authors c ids x = ids ++ [x.userId]) ∨
      ¬ (x.userId ∉ ids ∧ Others db authors c x.userId) ∧ pushUser db authors c ids x = ids := by
  have hothers : (x.userId != c &&
      !(db.users.find? x.userId).any fun user => authors.any fun a => a.id == user.id) = true ↔
      Others db authors c x.userId := by
    rw [Bool.and_eq_true, bne_iff_ne, Bool.not_eq_true', Others]
    apply and_congr_right
    intro _
    cases db.users.find? x.userId with
    | none => simp
    | some user =>
      rw [Option.any_some, List.any_eq_false]
      simp only [Option.some.injEq, forall_eq', List.mem_map, not_exists, not_and, beq_iff_eq]
  have hcond : (!ids.contains x.userId && x.userId != c &&
      !(db.users.find? x.userId).any fun user => authors.any fun a => a.id == user.id) = true ↔
      x.userId ∉ ids ∧ Others db authors c x.userId := by
    rw [Bool.and_assoc, Bool.and_eq_true, hothers, Bool.not_eq_true', List.contains_eq_mem, decide_eq_false_iff_not]
  rw [pushUser]
  by_cases hnew : x.userId ∉ ids ∧ Others db authors c x.userId
  · exact Or.inl ⟨hnew, if_pos (hcond.mpr hnew)⟩
  · exact Or.inr ⟨hnew, if_neg fun h => hnew (hcond.mp h)⟩

theorem foldl_pushUser {ids : List Nat} (hids : ids.Nodup) : (thread.foldl (pushUser db authors c) ids).Nodup ∧
    ∀ r, r ∈ thread.foldl (pushUser db authors c) ids ↔
      r ∈ ids ∨ (∃ x ∈ thread, x.userId = r) ∧ Others db authors c r := by
  induction thread generalizing ids with
  | nil => simp [hids]
  | cons x thread ih =>
    rw [List.foldl_cons]
    rcases pushUser_cases db authors c ids x with ⟨hnew, heq⟩ | ⟨hnew, heq⟩
    · have hnodup : (ids ++ [x.userId]).Nodup := by
        rw [List.nodup_append]
        refine ⟨hids, List.nodup_singleton _, ?_⟩
        intro r hr r' hr' heq
        rw [List.mem_singleton] at hr'
        exact hnew.1 (hr' ▸ heq ▸ hr)
      rw [heq]
      refine ⟨(ih hnodup).1, fun r => ?_⟩
      rw [(ih hnodup).2 r, List.mem_append, List.mem_singleton, List.exists_mem_cons_iff, or_assoc, or_and_right]
      refine or_congr_right (or_congr_left ?_)
      constructor
      · rintro rfl
        exact ⟨rfl, hnew.2⟩
      · rintro ⟨rfl, -⟩
        rfl
    · rw [heq]
      refine ⟨(ih hids).1, fun r => ?_⟩
      rw [(ih hids).2 r, List.exists_mem_cons_iff, or_and_right, ← or_assoc]
      refine or_congr_left (or_iff_left_of_imp ?_).symm
      rintro ⟨rfl, hr⟩
      exact of_not_not fun hmem => hnew ⟨hmem, hr⟩

theorem nodup_commentUsers (db : Database) (authors : List User) (c : Nat) (thread : List UserComment) :
    (commentUsers db authors c thread).Nodup := (foldl_pushUser List.nodup_nil).1

theorem mem_commentUsers {r : Nat} : r ∈ commentUsers db authors c thread ↔
    (∃ x ∈ thread, x.userId = r) ∧ Others db authors c r :=
  ((foldl_pushUser List.nodup_nil).2 r).trans (or_iff_right List.not_mem_nil)

theorem announces_notifyAuthors (authors : List User) (c i : Nat) (db : Database) :
    Announces ((authors.filter (·.id ≠ c)).map fun r =>
        ⟨0, some .comment, some i, "comment.create".toList, some c, some r.id, some true⟩)
      db (notifyAuthors authors c i db) :=
  Announces.foldl (fun db _ => Announces.record db _ _ _ _ _ _) _ db

/-- The second loop comes to its end if every account is there, and tells each of them. -/
theorem notifyCommenters_spec (db : Database) (rs : List Nat) :
    ((notifyCommenters c i rs db).1 = true ↔ ∀ r ∈ rs, db.users.find? r ≠ none) ∧
      ((notifyCommenters c i rs db).1 = true → Announces (rs.map fun r =>
        ⟨0, some .comment, some i, "comment.create".toList, some c, some r, some false⟩) db
          (notifyCommenters c i rs db).2) := by
  induction rs generalizing db with
  | nil => exact ⟨iff_of_true rfl fun _ hr => absurd hr List.not_mem_nil, fun _ => Announces.refl db⟩
  | cons r rs ih =>
    rw [notifyCommenters, List.forall_mem_cons]
    cases huser : db.users.find? r with
    | none => exact ⟨iff_of_false Bool.false_ne_true fun h => h.1 rfl, fun h => by cases h⟩
    | some user =>
      have hid : user.id = r := (Table.find?_eq_some.mp huser).2
      have hone := Announces.record db .comment i "comment.create".toList (some c) (some user.id) false
      have husers : (db.recordActivity .comment i "comment.create".toList (some c) (some user.id) false).users =
          db.users := rfl
      dsimp only
      generalize db.recordActivity .comment i "comment.create".toList (some c) (some user.id) false = db₁ at *
      obtain ⟨hdone, hrest⟩ := ih db₁
      rw [husers] at hdone
      refine ⟨hdone.trans (and_iff_right (Option.some_ne_none user)).symm, fun h => ?_⟩
      rw [hid] at hone
      exact hone.trans (hrest h)

end CommentsController

/-- The comment with id `i` of user `c` on the step is stored, and everybody concerned is told once: the authors
of the project by a primary activity, the earlier commenters with an account by another one. -/
structure Notifies (c : Nat) (project step : Nat) (body : Text) (w w' : Threads) : Prop where
  saved : w'.comments.rows = w.comments.rows ++ [⟨⟨w.comments.next, "Step".toList, step⟩, c, body⟩]
  authors : Database.TellsOnce .comment w.comments.next "comment.create".toList true
    (fun r => r ∈ (w.db.projectUsers project).map User.id ∧ r ≠ c) w.db w'.db
  commenters : Database.TellsOnce .comment w.comments.next "comment.create".toList false
    (fun r => (∃ x ∈ w.commentThreads step, x.userId = r) ∧ (∃ user ∈ w.db.users.rows, user.id = r) ∧ r ≠ c ∧
      r ∉ (w.db.projectUsers project).map User.id) w.db w'.db
  others : ∀ added, w'.db.activities.rows = w.db.activities.rows ++ added → ∀ a ∈ added,
    ∃ r primary, a.content = ⟨0, some .comment, some w.comments.next, "comment.create".toList, some c, some r,
      some primary⟩

namespace CommentsController

open Database

/-- Everybody is told once when both loops come to their ends. -/
theorem notifies_of_announces {w w' : Threads} {c project step : Nat} {body : Text} {rs : List Nat}
    (hdistinct : ((w.db.projectUsers project).map User.id).Nodup)
    (hsaved : w'.comments.rows = w.comments.rows ++ [⟨⟨w.comments.next, "Step".toList, step⟩, c, body⟩])
    (hnodup : rs.Nodup)
    (hrs : ∀ r, r ∈ rs ↔ (∃ x ∈ w.commentThreads step, x.userId = r) ∧ (∃ user ∈ w.db.users.rows, user.id = r) ∧
      r ≠ c ∧ r ∉ (w.db.projectUsers project).map User.id)
    (h : Announces ((((w.db.projectUsers project).filter (·.id ≠ c)).map User.id).map (fun r =>
        ⟨0, some .comment, some w.comments.next, "comment.create".toList, some c, some r, some true⟩) ++
      rs.map fun r => ⟨0, some .comment, some w.comments.next, "comment.create".toList, some c, some r, some false⟩)
      w.db w'.db) : Notifies c project step body w w' := by
  refine ⟨hsaved, h.tellsOnce_iff.mpr ?_, h.tellsOnce_iff.mpr ?_, ?_⟩
  · rw [List.filterMap_append, filterMap_tells, filterMap_tells_other (by decide), List.append_nil]
    refine ⟨hdistinct.sublist (List.filter_sublist.map _), fun r => ?_⟩
    simp only [List.mem_map, List.mem_filter, decide_eq_true_eq]
    constructor
    · rintro ⟨a, ⟨ha, hne⟩, rfl⟩
      exact ⟨⟨a, ha, rfl⟩, hne⟩
    · rintro ⟨⟨a, ha, rfl⟩, hne⟩
      exact ⟨a, ⟨ha, hne⟩, rfl⟩
  · rw [List.filterMap_append, filterMap_tells, filterMap_tells_other (by decide), List.nil_append]
    exact ⟨hnodup, hrs⟩
  · intro added hadded a ha
    obtain ⟨added', hrows, hcontent⟩ := h.activities
    rw [hrows] at hadded
    rw [← List.append_cancel_left hadded] at ha
    have hmem : a.content ∈ added'.map Activity.content := List.mem_map_of_mem ha
    rw [hcontent, List.mem_append, List.mem_map, List.mem_map] at hmem
    rcases hmem with ⟨r, -, hr⟩ | ⟨r, -, hr⟩
    · exact ⟨r, true, hr.symm⟩
    · exact ⟨r, false, hr.symm⟩

end CommentsController

namespace CommentsController

open Database

variable {w : Threads} {authors : List User} {c project step : Nat} {body : Text}

/-- The comment is in the thread itself when its users are collected, but its author is skipped. -/
theorem mem_commentUsers_saved {db : Database} (husers : db.users = w.db.users) (r : Nat) :
    r ∈ commentUsers db authors c (Threads.commentThreads ⟨db, w.comments.insert
        (fun i => ⟨⟨i, "Step".toList, step⟩, c, body⟩) (fun _ => rfl)⟩ step) ↔
      (∃ x ∈ w.commentThreads step, x.userId = r) ∧ r ≠ c ∧
        ∀ user, w.db.users.find? r = some user → user.id ∉ authors.map User.id := by
  rw [mem_commentUsers, Others, husers, Threads.commentThreads, Table.rows_insert, List.filter_append]
  refine and_congr_left fun h => ?_
  constructor
  · rintro ⟨x, hx, rfl⟩
    rcases List.mem_append.mp hx with hx | hx
    · exact ⟨x, hx, rfl⟩
    · rw [List.mem_singleton.mp (List.mem_of_mem_filter hx)] at h
      exact absurd rfl h.1
  · rintro ⟨x, hx, rfl⟩
    exact ⟨x, List.mem_append_left _ hx, rfl⟩

variable {rs : List Nat}
  (hmem : ∀ r, r ∈ rs ↔ (∃ x ∈ w.commentThreads step, x.userId = r) ∧ r ≠ c ∧
    ∀ user, w.db.users.find? r = some user → user.id ∉ authors.map User.id)

include hmem

/-- An account that is gone is no author, so it is among the users that are looked up. -/
theorem forall_found_iff : (∀ r ∈ rs, w.db.users.find? r ≠ none) ↔
    ∀ x ∈ w.commentThreads step, x.userId = c ∨ w.db.users.find? x.userId ≠ none := by
  constructor
  · intro h x hx
    refine or_iff_not_imp_left.mpr fun hne hnone => ?_
    exact h x.userId ((hmem _).mpr ⟨⟨x, hx, rfl⟩, hne, fun user huser => by rw [hnone] at huser; cases huser⟩) hnone
  · intro h r hr
    obtain ⟨⟨x, hx, rfl⟩, hne, -⟩ := (hmem r).mp hr
    exact (h x hx).resolve_left hne

/-- When all of them have accounts, they are the ones who ought to be told. -/
theorem mem_iff_of_found (hfound : ∀ r ∈ rs, w.db.users.find? r ≠ none) (r : Nat) :
    r ∈ rs ↔ (∃ x ∈ w.commentThreads step, x.userId = r) ∧ (∃ user ∈ w.db.users.rows, user.id = r) ∧ r ≠ c ∧
      r ∉ authors.map User.id := by
  constructor
  · intro hr
    obtain ⟨user, huser⟩ := Option.ne_none_iff_exists'.mp (hfound r hr)
    obtain ⟨hrow, hid⟩ := Table.find?_eq_some.mp huser
    have huid : user.id = r := hid
    obtain ⟨hx, hne, hauthor⟩ := (hmem r).mp hr
    exact ⟨hx, ⟨user, hrow, huid⟩, hne, huid ▸ hauthor user huser⟩
  · rintro ⟨hx, -, hne, hauthor⟩
    refine (hmem r).mpr ⟨hx, hne, fun user huser => ?_⟩
    have huid : user.id = r := (Table.find?_eq_some.mp huser).2
    exact huid.symm ▸ hauthor

end CommentsController

/-- The request ends well, with exact notifications, unless somebody who commented before is gone. -/
theorem create_notifies_iff {w : Threads} {c : User} {p : Nat} {key : StepKey} {body : Text} {project : Project}
    {step : Step} (hproject : w.db.projects.find? p = some project)
    (hstep : w.db.findProjectStep project.id key = some step)
    (hdistinct : ((w.db.projectUsers project.id).map User.id).Nodup)
    (hvalid : CommentsController.valid w.db c.id body = true) :
    ((CommentsController.create c p key body w).1 = .ok ∧
      Notifies c.id project.id step.id body w (CommentsController.create c p key body w).2) ↔
      ∀ x ∈ w.commentThreads step.id, x.userId = c.id ∨ w.db.users.find? x.userId ≠ none := by
  unfold CommentsController.create
  rw [hproject]
  dsimp only
  rw [hstep]
  dsimp only
  rw [hvalid, Bool.not_true, if_neg Bool.false_ne_true]
  have hauthors := CommentsController.announces_notifyAuthors (w.db.projectUsers project.id) c.id
    w.comments.next w.db
  generalize CommentsController.notifyAuthors (w.db.projectUsers project.id) c.id w.comments.next w.db = db₁ at *
  have husers : db₁.users = w.db.users := hauthors.others .users (by decide)
  have hmem : ∀ r, r ∈ CommentsController.commentUsers db₁ (w.db.projectUsers project.id) c.id
      (Threads.commentThreads ⟨db₁, w.comments.insert
        (fun i => ⟨⟨i, "Step".toList, step.id⟩, c.id, body⟩) (fun _ => rfl)⟩ step.id) ↔ _ :=
    CommentsController.mem_commentUsers_saved husers
  -- the loop runs over the commenters as they are after the save
  have hnodup := CommentsController.nodup_commentUsers db₁ (w.db.projectUsers project.id) c.id
    (Threads.commentThreads ⟨db₁, w.comments.insert
      (fun i => ⟨⟨i, "Step".toList, step.id⟩, c.id, body⟩) (fun _ => rfl)⟩ step.id)
  dsimp only
  generalize CommentsController.commentUsers db₁ (w.db.projectUsers project.id) c.id
    (Threads.commentThreads ⟨db₁, w.comments.insert
      (fun i => ⟨⟨i, "Step".toList, step.id⟩, c.id, body⟩) (fun _ => rfl)⟩ step.id) = rs at *
  obtain ⟨hdone, hcommenters⟩ := CommentsController.notifyCommenters_spec (c := c.id) (i := w.comments.next) db₁ rs
  rw [husers] at hdone
  rw [← CommentsController.forall_found_iff hmem, ← hdone]
  constructor
  · -- a loop that stops half way ends the request
    rintro ⟨hok, -⟩
    by_contra hstop
    rw [if_neg hstop] at hok
    cases hok
  · intro hend
    refine ⟨if_pos hend, CommentsController.notifies_of_announces hdistinct rfl hnodup ?_ ?_⟩
    · exact CommentsController.mem_iff_of_found hmem (hdone.mp hend)
    · rw [List.map_map]
      exact hauthors.trans (hcommenters hend)

/-- The lamp of ada with a step, on which somebody has commented. -/
def lampThread (commenter : Nat) : Threads where
  db := { Database.oneProject "Lamp".toList (some "public".toList) with
    users := .ofRows [ada, bob] 4 (by decide)
    steps := .ofRows [⟨1, some 1, "Saw".toList, none, 0, none, none, none, none, none, none, none, none, 0, 0⟩] 2
      (by decide) }
  comments := .ofRows [⟨⟨1, "Step".toList, 1⟩, commenter, "nice".toList⟩] 2 (by simp [Table.WellKeyed, key])

/-- Bob comments again on the lamp. -/
theorem notifies_lampThread :
    (CommentsController.create bob 1 (.ofId 1) "again".toList (lampThread 2)).1 = .ok ∧
      Notifies 2 1 1 "again".toList (lampThread 2)
        (CommentsController.create bob 1 (.ofId 1) "again".toList (lampThread 2)).2 :=
  have hproject : (lampThread 2).db.projects.find? 1 =
      some ⟨1, "Lamp".toList, none, some "public".toList, none, some false, none, none, none, 0, 0⟩ := rfl
  have hstep : (lampThread 2).db.findProjectStep 1 (.ofId 1) =
      some ⟨1, some 1, "Saw".toList, none, 0, none, none, none, none, none, none, none, none, 0, 0⟩ := rfl
  (create_notifies_iff hproject hstep (by decide) (by decide)).mpr (by decide)

/-- The account that commented first is gone: the comment is there and ada is told, but the request raises. -/
theorem comment_raises : ((lampThread 3).db.users.find? 3).isNone = true ∧
    (CommentsController.create bob 1 (.ofId 1) "me too".toList (lampThread 3)).1 = .error ∧
    (CommentsController.create bob 1 (.ofId 1) "me too".toList (lampThread 3)).2.comments.rows.map
      (·.userId) = [3, 2] ∧
    (CommentsController.create bob 1 (.ofId 1) "me too".toList
      (lampThread 3)).2.db.activities.rows.map (·.recipientId) = [some 1] := by
  decide +kernel
