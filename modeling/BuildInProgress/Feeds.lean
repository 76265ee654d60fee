import BuildInProgress.DanglingActivities

/-!
# The feeds of a user

`config/initializers/public_activity.rb` and the queries of `app/models/user.rb`.  Every feed is a query that ends
in `public_activities`, which drops the activities that `is_private?` finds.  A nil project on the way makes
`is_private?` raise, and with it the feed.
-/

open Text

/-- A row of `activities` with the columns that only the feeds read. -/
structure Notice where
  activity : Activity
  viewed : Option Bool
  createdAt : Nat
  deriving DecidableEq, Repr

/-- `Collection#private?` -/
def Collection.isPrivate (c : Collection) : Bool := c.privacy == some "private".toList

namespace Discussed

variable (w : Discussed)

/-- `record.project.private?`; a record without a project makes it raise. -/
def projectPrivate (p : Option Nat) : Option Bool := (p.bind w.db.projects.find?).map Project.isPrivate

/-- `trackable.present? && trackable.private?`; only projects and collections can be asked. -/
def trackablePrivate (t : Trackable) (i : Nat) : Option Bool :=
  match t with
  | .project => some ((w.db.projects.find? i).any Project.isPrivate)
  | .collection => some ((w.db.collections.find? i).any Collection.isPrivate)
  -- the other classes have no `private?`, so a record that is there makes it raise
  | t => if (w.trackableIds t).contains i then none else some false

/-- What `is_private?` asks of the trackable by its class. -/
def classPrivate (t : Trackable) (i : Nat) : Option Bool :=
  match t with
  | .step =>
    match w.db.steps.find? i with
    | none => some false
    | some s => w.projectPrivate s.projectId
  | .project => some ((w.db.projects.find? i).any Project.isPrivate)
  | .collectify =>
    match w.db.collectifies.find? i with
    | none => some false
    | some c => w.projectPrivate (some c.projectId)
  | _ => some false

/-- `is_private?`; nothing if it raises. -/
def isPrivate (a : Activity) : Option Bool :=
  match a.trackableType, a.trackableId with
  | some t, some i =>
    if a.key = "project.feature_public".toList then
      (w.trackablePrivate t i).bind fun hidden => if hidden then some true else w.classPrivate t i
    else w.classPrivate t i
  | _, _ => some false

/-- `public_activities` on the rows of a query. -/
def publicActivities : List Notice → Option (List Notice)
  | [] => some []
  | n :: ns =>
    match w.isPrivate n.activity, publicActivities ns with
    | some hidden, some shown => some (if hidden then shown else n :: shown)
    | _, _ => none

end Discussed

/-! ## The queries -/

namespace Notice

/-- `owner_id != recipient_id OR recipient_id IS NULL OR owner_id IS NULL` -/
def notOwn (a : Activity) : Bool :=
  a.ownerId.isNone || a.recipientId.isNone || a.ownerId != a.recipientId

/-- `trackable_type != 'Step'`, which a null is not. -/
def notStep (a : Activity) : Bool := a.trackableType.isSome && a.trackableType != some .step

end Notice

/-- The queries whose rows go through `public_activities`. -/
inductive Feed where
  | userProjectNotifications
  | newUserProjectNotifications
  | allNotifications
  | allNewNotifications
  /-- the activities of the users that are followed, since a time -/
  | followersActivity (following : List Nat) (since : Nat)

namespace Feed

open Notice

/-- The condition of the query for the user `u`. -/
def wanted (u : User) (n : Notice) : Feed → Bool
  | userProjectNotifications =>
    n.activity.recipientId == some u.id && notOwn n.activity && n.activity.primary == some true && notStep n.activity
  | newUserProjectNotifications =>
    n.activity.recipientId == some u.id && notOwn n.activity && n.activity.primary == some true &&
      notStep n.activity && n.viewed == some false
  | allNotifications => n.activity.recipientId == some u.id && notOwn n.activity && notStep n.activity
  | allNewNotifications =>
    n.activity.recipientId == some u.id && n.viewed == some false &&
      (n.activity.ownerId.isNone || n.activity.ownerId != n.activity.recipientId) && notStep n.activity
  | followersActivity following since =>
    n.activity.ownerId.any following.contains && decide (since < n.createdAt)

/-- The rows of the query, the latest first. -/
def rows (f : Feed) (u : User) (notices : List Notice) : List Notice :=
  (notices.filter fun n => f.wanted u n).insertionSort fun a b => b.createdAt ≤ a.createdAt

/-- The list that the user gets, unless it raises. -/
def shown (f : Feed) (u : User) (w : Discussed) (notices : List Notice) : Option (List Notice) :=
  w.publicActivities (f.rows u notices)

end Feed

/-! ## What the feeds hide -/

namespace Discussed

variable {w : Discussed}

/-- The project that a record is, or belongs to. -/
def projectOf (w : Discussed) : Trackable → Nat → Option Project
  | .project, i => w.db.projects.find? i
  | .step, i => stepProject i
  | .question, i => (w.db.questions.find? i).bind fun q => stepProject q.stepId
  | .comment, i => (w.comments.find? i).bind fun c =>
    if c.commentableType = "Step".toList then stepProject c.commentableId else none
  | .collectify, i => (w.db.collectifies.find? i).bind fun c => w.db.projects.find? c.projectId
  | .favoriteProject, i => (w.db.favoriteProjects.find? i).bind fun f => w.db.projects.find? f.projectId
  | .collection, _ => none
  | .user, _ => none
where
  stepProject (i : Nat) : Option Project :=
    ((w.db.steps.find? i).bind Step.projectId).bind w.db.projects.find?

/-- The activity is about a private project, or about a record of one. -/
def AboutPrivate (w : Discussed) (a : Activity) : Prop :=
  ∃ t i p, a.Of t i ∧ w.projectOf t i = some p ∧ p.isPrivate = true

/-- The classes that `is_private?` leaves out. -/
def unasked : Trackable → Bool
  | .comment => true
  | .question => true
  | .favoriteProject => true
  | _ => false

/-- A class that is asked about says of a record of a private project that it is private. -/
theorem classPrivate_of_project {t : Trackable} {i : Nat} {p : Project} (hasked : unasked t = false)
    (hp : w.projectOf t i = some p) (hprivate : p.isPrivate = true) : w.classPrivate t i = some true := by
  cases t with
  | project =>
    have hfind : w.db.projects.find? i = some p := hp
    rw [classPrivate, hfind, Option.any_some, hprivate]
  | step =>
    have hstep : ((w.db.steps.find? i).bind Step.projectId).bind w.db.projects.find? = some p := hp
    obtain ⟨q, hq, hfind⟩ := Option.bind_eq_some_iff.mp hstep
    obtain ⟨s, hs, hsq⟩ := Option.bind_eq_some_iff.mp hq
    rw [classPrivate, hs]
    show w.projectPrivate s.projectId = some true
    rw [projectPrivate, hsq, Option.bind_some, hfind, Option.map_some, hprivate]
  | collectify =>
    obtain ⟨c, hc, hfind⟩ := Option.bind_eq_some_iff.mp (hp : (w.db.collectifies.find? i).bind _ = some p)
    rw [classPrivate, hc]
    show w.projectPrivate (some c.projectId) = some true
    rw [projectPrivate, Option.bind_some, hfind, Option.map_some, hprivate]
  | collection => cases hp
  | user => cases hp
  | comment => cases hasked
  | question => cases hasked
  | favoriteProject => cases hasked

/-- An activity that is shown, and is about a private project, is of a class that is left out. -/
theorem unasked_of_shown {a : Activity} {t : Trackable} {i : Nat} {p : Project} (ha : a.Of t i)
    (hp : w.projectOf t i = some p) (hprivate : p.isPrivate = true) (hshown : w.isPrivate a = some false) :
    unasked t = true := by
  by_contra hno
  have hasked := classPrivate_of_project (Bool.eq_false_iff.mpr hno) hp hprivate
  rw [isPrivate, ha.1, ha.2] at hshown
  dsimp only at hshown
  rw [hasked] at hshown
  split at hshown
  -- a featured activity is hidden by either question
  · obtain ⟨hidden, -, hthen⟩ := Option.bind_eq_some_iff.mp hshown
    cases hidden with
    | true => cases hthen
    | false => cases hthen
  · cases hshown

/-- An activity of a class that is left out is shown, unless it raises. -/
theorem shown_of_unasked {a : Activity} {t : Trackable} {i : Nat} (ha : a.Of t i) (hunasked : unasked t = true) :
    w.isPrivate a = some false ∨ w.isPrivate a = none := by
  have hclass : w.classPrivate t i = some false := by
    cases t with
    | comment => rfl
    | question => rfl
    | favoriteProject => rfl
    | _ => cases hunasked
  have htrackable : w.trackablePrivate t i = some false ∨ w.trackablePrivate t i = none := by
    have hif : ∀ b : Bool, (if b = true then none else some false : Option Bool) = some false ∨
        (if b = true then none else some false : Option Bool) = none := by decide
    cases t with
    | comment => exact hif _
    | question => exact hif _
    | favoriteProject => exact hif _
    | _ => cases hunasked
  rw [isPrivate, ha.1, ha.2]
  dsimp only
  rw [hclass]
  split
  · rcases htrackable with heq | heq
    · rw [heq]
      exact Or.inl rfl
    · rw [heq]
      exact Or.inr rfl
  · exact Or.inl rfl

theorem publicActivities_eq_none {ns : List Notice} :
    w.publicActivities ns = none ↔ ∃ n ∈ ns, w.isPrivate n.activity = none := by
  induction ns with
  | nil => simp [publicActivities]
  | cons n ns ih =>
    rw [publicActivities, List.exists_mem_cons_iff, ← ih]
    cases hn : w.isPrivate n.activity with
    | none => exact iff_of_true rfl (Or.inl rfl)
    | some hidden =>
      cases hns : w.publicActivities ns with
      | none => exact iff_of_true rfl (Or.inr rfl)
      | some shown => exact iff_of_false nofun (fun h => h.elim nofun nofun)

theorem mem_publicActivities {ns shown : List Notice} (h : w.publicActivities ns = some shown) {n : Notice} :
    n ∈ shown ↔ n ∈ ns ∧ w.isPrivate n.activity = some false := by
  induction ns generalizing shown with
  | nil =>
    cases h
    simp
  | cons m ns ih =>
    rw [publicActivities] at h
    cases hm : w.isPrivate m.activity with
    | none =>
      rw [hm] at h
      cases h
    | some hidden =>
      -- one notice that raises ends the whole list
      cases hns : w.publicActivities ns with
      | none =>
        rw [hm, hns] at h
        cases h
      | some rest =>
        rw [hm, hns] at h
        cases h
        cases hidden with
        | true =>
          show n ∈ rest ↔ _
          rw [ih hns, List.mem_cons]
          constructor
          · exact fun hn => ⟨Or.inr hn.1, hn.2⟩
          · intro hn
            refine ⟨hn.1.resolve_left fun heq => ?_, hn.2⟩
            rw [heq, hm] at hn
            cases hn.2
        | false =>
          show n ∈ m :: rest ↔ _
          rw [List.mem_cons, ih hns, List.mem_cons]
          constructor
          · intro hn
            rcases hn with heq | hn
            · exact ⟨Or.inl heq, heq ▸ hm⟩
            · exact ⟨Or.inr hn.1, hn.2⟩
          · exact fun hn => hn.1.imp id fun hmem => ⟨hmem, hn.2⟩

end Discussed

/-- A feed hides the private projects exactly when its query finds no comment, question or favorite of one.  A feed
that raises shows nothing. -/
theorem feeds_hide_private_iff (w : Discussed) (notices : List Notice) (u : User) (f : Feed) :
    (∀ shown, f.shown u w notices = some shown → ∀ n ∈ shown, ¬ w.AboutPrivate n.activity) ↔
      (∃ n ∈ f.rows u notices, w.isPrivate n.activity = none) ∨
        ∀ n ∈ f.rows u notices, ∀ t i p, n.activity.Of t i → Discussed.unasked t = true →
          w.projectOf t i = some p → p.isPrivate = false := by
  rw [← Discussed.publicActivities_eq_none]
  cases hshown : f.shown u w notices with
  | none => exact iff_of_true nofun (Or.inl hshown)
  | some shown =>
    have hsome : w.publicActivities (f.rows u notices) = some shown := hshown
    rw [hsome]
    constructor
    · intro h
      refine Or.inr fun n hn t i p ha hunasked hp => ?_
      rw [← Bool.not_eq_true]
      intro hprivate
      -- a row of a class that is left out is shown, and an exception would have taken the whole feed
      rcases Discussed.shown_of_unasked (w := w) ha hunasked with hfalse | hnone
      · exact h shown rfl n ((Discussed.mem_publicActivities hsome).mpr ⟨hn, hfalse⟩) ⟨t, i, p, ha, hp, hprivate⟩
      · have hraise := Discussed.publicActivities_eq_none.mpr ⟨n, hn, hnone⟩
        rw [hsome] at hraise
        cases hraise
    · intro h shown' heq n hn habout
      cases heq
      obtain ⟨t, i, p, ha, hp, hprivate⟩ := habout
      obtain ⟨hrow, hfalse⟩ := (Discussed.mem_publicActivities hsome).mp hn
      rcases h with hraise | h
      · cases hraise
      · have hpublic := h n hrow t i p ha (Discussed.unasked_of_shown ha hp hprivate hfalse) hp
        rw [hprivate] at hpublic
        cases hpublic

/-- A private lamp whose author asks a question. -/
def privateQuestion : Discussed :=
  ⟨(StepsController.create ada 1 false 1 [.name "Base".toList, .questionAttributes ⟨"Which wood?".toList, none, none⟩]
    (.oneProject "Lamp".toList (some "private".toList))).2, Table.empty⟩

/-- Bob, who follows the author, is shown the question, which is about her private lamp. -/
theorem private_question_shown :
    let notices : List Notice := privateQuestion.db.activities.rows.map fun a => ⟨a, some false, 1⟩
    let asked : Notice :=
      ⟨⟨1, some .question, some 1, "question.create".toList, some 1, none, some true⟩, some false, 1⟩
    (Feed.followersActivity [1] 0).shown bob privateQuestion notices = some [asked] ∧
      privateQuestion.AboutPrivate asked.activity := by
  intro notices asked
  refine ⟨by decide +kernel, ?_⟩
  have hproject : (privateQuestion.projectOf .question 1).any Project.isPrivate = true := by decide +kernel
  obtain ⟨p, hp, hprivate⟩ := (Option.any_eq_true _ _).mp hproject
  exact ⟨.question, 1, p, ⟨rfl, rfl⟩, hp, hprivate⟩
