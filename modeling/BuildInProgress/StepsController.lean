import BuildInProgress.Ability
import BuildInProgress.ProcessMap

/-!
# The steps controller

`app/controllers/steps_controller.rb`.  `get_global_variables` looks up the project of the URL before
every action.  A request is not one transaction: what an action has written before an exception
stays written.  `u` is the signed-in user, `now` the clock.  The pushes to the village server, the
delayed log and the touches of the user are left out.
-/

open Text Ancestry

namespace StepsController

/-! ## Creating a step -/

/-- `@project.steps.last`, the step with the greatest id. -/
def lastStepId (db : Database) (p : Nat) : Option Nat := ((db.projectSteps p).map (·.id)).max?

/-- The parameters after `create` has checked the parent and the pin. -/
def createParams (db : Database) (p : Nat) (params : List StepAttr) : List StepAttr :=
  let parent := (StepAttr.parentOf params).bind fun key => db.stepById key.toI
  let params :=
    if parent.isSome then params
    else StepAttr.setParent ((lastStepId db p).map fun i : Nat => .integer i) params
  params.map StepAttr.clearEmptyPin

/-- A record as `build` starts it. -/
def blankStep (id p now : Nat) : Step where
  id := id
  projectId := some p
  name := []
  description := none
  position := 0
  ancestry := none
  publishedOn := none
  last := none
  userId := none
  originalAuthors := none
  label := none
  labelColor := none
  pin := none
  createdAt := now
  updatedAt := now

/-- `@project.steps.build(params[:step])`; the association sets `project_id` itself. -/
def buildStep (db : Database) (now p : Nat) (params : List StepAttr) : Option Step :=
  (StepAttr.assignAll db (blankStep db.steps.next p now) params).map fun s =>
    { s with projectId := some p, createdAt := now, updatedAt := now, id := db.steps.next }

/-- Save the decision that comes with a question.  One that is emptied goes. -/
def saveDecision (db : Database) (q : Nat) (decision : Option Text) : Database :=
  match decision with
  | none => db
  | some d =>
    match db.questionDecision q with
    | some x =>
      { db with
        decisions :=
          if blank d then db.decisions.filter (·.id ≠ x.id)
          else db.decisions.modify x.id (fun x => { x with description := d }) (fun _ => rfl) }
    | none => { db with decisions := db.decisions.insert (fun id => ⟨id, q, d⟩) (fun _ => rfl) }

/-- Save the question a step form submits.  A blank description is rejected. -/
def saveQuestion (db : Database) (s : Nat) (params : List StepAttr) : Database :=
  match StepAttr.questionOf params with
  | none => db
  | some q =>
    if blank q.description then db
    else
      match db.stepQuestion s with
      | some r =>
        saveDecision { db with
          questions := db.questions.modify r.id (fun r =>
            { r with description := q.description, answered := q.answered.getD r.answered })
            (fun _ => rfl) } r.id q.decision
      | none =>
        { db with
          questions := db.questions.insert (fun id => ⟨id, s, q.description, q.answered.getD false, none⟩)
            (fun _ => rfl)
          decisions := match q.decision with
            | none => db.decisions
            | some d => db.decisions.insert (fun id => ⟨id, db.questions.next, d⟩) (fun _ => rfl) }

/-- The callbacks of a saved step: its question is saved, then its decision is checked. -/
def updateQuestion (db : Database) (s : Nat) (params : List StepAttr) : Database :=
  (saveQuestion db s params).checkDecision s

/-- `collection.touch` for the collections of a project. -/
def touchCollections (db : Database) (now p : Nat) : Database :=
  let ids := (db.collectifies.rows.filter (·.projectId = p)).map (·.collectionId)
  { db with
    collections := db.collections.map
      (fun c => if ids.contains c.id then { c with updatedAt := now } else c)
      (fun c => by split <;> rfl) }

/-- There is an activity about the question. -/
def announced (db : Database) (q : Question) : Bool :=
  db.activities.rows.any fun a => a.trackableType == some .question && a.trackableId == some q.id

/-- The activity about the question of the step, when there is none about it yet.  `gone` is the question that
`update` has destroyed: the step still holds its record, and a destroyed record gets no activity. -/
def announceQuestion (db : Database) (u s : Nat) (gone : Option Question) : Database :=
  match gone, db.stepQuestion s with
  | none, some q =>
    if announced db q then db else db.createActivity .question q.id "question.create".toList (some u) none
  | _, _ => db

/-- The activity about the question of a step that was just created. -/
def createQuestionActivity (db : Database) (u s : Nat) : Database :=
  match db.stepQuestion s with
  | none => db
  | some q => db.createActivity .question q.id "question.create".toList (some u) none

/-- Media uploaded for a step that was not saved yet are marked with the step id `-1`. -/
def claimMedia (db : Database) (p s : Nat) : Database :=
  { db with
    images := db.images.map (fun m =>
      if m.projectId = some p ∧ m.stepId = some (-1) then
        { m with saved := some true, stepId := some s } else m) (fun m => by split <;> rfl)
    videos := db.videos.map (fun v =>
      if v.projectId = some p ∧ v.stepId = some (-1) then
        { v with saved := some true, stepId := some s } else v)
        (fun v => by split <;> rfl) }

def insertStep (db : Database) (s : Step) : Database :=
  { db with steps := db.steps.insert (fun i => { s with id := i }) (fun _ => rfl) }

def createEdit (db : Database) (u s p : Nat) (startedEditingAt : Option Nat) (temp : Option Bool) :
    Database :=
  { db with
    edits := db.edits.insert (fun i => ⟨i, some u, some s, some p, startedEditingAt, temp⟩)
      (fun _ => rfl) }

/-- What `create` does once the step is saved. -/
def afterCreate (u : User) (now : Nat) (html : Bool) (project : Project) (s : Step)
    (params : List StepAttr) (db : Database) : Database :=
  let p := project.id
  let db := saveQuestion db s.id params
  let db := touchCollections db now p
  let db := createEdit db u.id s.id p none none
  let db :=
    if project.isPublic || project.unpublished then db.setPublished now u.id p (some s.id) else db
  let db := db.setBuilt now p
  let db := db.touchProject now p
  let db := db.updateStep (some now) s.id fun s => { s with publishedOn := some s.createdAt }
  let db := createQuestionActivity db u.id s.id
  if html then claimMedia db p s.id else db

/-- The submitted position, or the number of steps the project has. -/
def createPosition (db : Database) (p : Nat) (params : List StepAttr) : Int :=
  (StepAttr.positionOf params).getD (db.projectSteps p).length

/-- `POST /projects/:project_id/steps` -/
def create (u : User) (now : Nat) (html : Bool) (p : Nat) (params : List StepAttr) (db : Database) :
    Outcome × Database :=
  match db.projects.find? p with
  | none => (.notFound, db)
  | some project =>
    let params := createParams db p params
    match buildStep db now p params with
    | none => (.notFound, db)
    | some s =>
      authorize (Ability.createStep db u s) db <|
        let s := { s with position := createPosition db p params }
        if s.validNew then (.ok, afterCreate u now html project s params (insertStep db s))
        else (.invalid, db)

/-! ## Editing and updating a step -/

/-- `@project.steps.find_by_position(position)` -/
def findByPosition (db : Database) (p : Nat) (position : Int) : Option Step :=
  (db.projectSteps p).find? (·.position = position)

/-- `GET /projects/:project_id/steps/:id/edit`: marks the step as being edited by `u`. -/
def edit (u : User) (now p : Nat) (id : Int) (db : Database) : Outcome × Database :=
  match db.projects.find? p with
  | none => (.notFound, db)
  | some _ =>
    match findByPosition db p id with
    | none => (.denied, db)
    | some s =>
      authorize (Ability.updateStep db u s) db <|
        match db.editOf u.id s.id with
        | some e =>
          (.ok, { db with
            edits := db.edits.modify e.id (fun e => { e with startedEditingAt := some now })
              (fun _ => rfl) })
        | none =>
          if db.author p u.id then (.ok, createEdit db u.id s.id p (some now) (some true))
          else (.ok, db)

/-- A submitted question with an empty text removes the question of the step. -/
def removeQuestion (db : Database) (s : Nat) (params : List StepAttr) : Database :=
  match StepAttr.questionOf params, db.stepQuestion s with
  | some q, some r => if q.description.isEmpty then db.destroyQuestion r.id else db
  | _, _ => db

/-- The question that `removeQuestion` destroys. -/
def emptiedQuestion (db : Database) (s : Nat) (params : List StepAttr) : Option Question :=
  match StepAttr.questionOf params, db.stepQuestion s with
  | some q, some r => if q.description.isEmpty then some r else none
  | _, _ => none

/-- The user's edit of the step is over. -/
def clearEdit (db : Database) (e : Edit) (p : Nat) : Database :=
  { db with
    edits := db.edits.modify e.id (fun e =>
      { e with startedEditingAt := none, projectId := some (e.projectId.getD p) }) (fun _ => rfl) }

def saveImages (db : Database) (s : Nat) : Database :=
  { db with
    images := db.images.map (fun m =>
      if m.stepId = some (s : Int) then { m with saved := some true } else m)
      (fun m => by split <;> rfl) }

/-- What `update` does once the step is saved.  A user without an edit of the step, such as an
admin, makes it raise, and so does at the end a destroyed question that was never announced. -/
def afterUpdate (u : User) (now : Nat) (project : Project) (s : Step) (params : List StepAttr)
    (gone : Option Question) (db : Database) : Outcome × Database :=
  let p := project.id
  let db := updateQuestion db s.id params
  let db := if s.label = some false then db.putStep { s with labelColor := none, updatedAt := now } else db
  match db.editOf u.id s.id with
  | none => (.error, db)
  | some e =>
    let db := clearEdit db e p
    let db :=
      if project.isPublic || project.unpublished then db.setPublished now u.id p (some s.id) else db
    let db := db.setBuilt now p
    (if gone.all (announced db) then .ok else .error, announceQuestion db u.id s.id gone)

/-- `PUT /projects/:project_id/steps/:id`, where `:id` is a position. -/
def update (u : User) (now p : Nat) (id : Int) (params : List StepAttr) (db : Database) :
    Outcome × Database :=
  match db.projects.find? p with
  | none => (.notFound, db)
  | some project =>
    match findByPosition db p id with
    | none => (.denied, db)
    | some s =>
      authorize (Ability.updateStep db u s) db <|
        let gone := emptiedQuestion db s.id params
        let db := touchCollections db now p
        let db := saveImages db s.id
        let db := removeQuestion db s.id params
        let db := db.touchProject now p
        match StepAttr.assignAll db s params with
        | none => (.notFound, db)
        | some s' =>
          if s'.valid then afterUpdate u now project s' params gone (db.storeRow (some now) s') else (.invalid, db)

/-! ## Destroying a step -/

/-- The root guard: a root written by the process map with more than one child. -/
def rootGuard (db : Database) (p : Nat) (d : Step) : Bool :=
  d.ancestry == some ['0'] &&
    ((db.projectSteps p).filter (·.ancestry = some (toS d.id))).length > 1

/-- What the root's place in the ancestry of another step is replaced by. -/
def rerooted (d : Step) (a : Text) : Text :=
  if a = toS d.id then ['0'] else gsub (toS d.id ++ ['/']) [] a

/-- Before a root is destroyed its id is taken out of the ancestries.  A nil ancestry raises; the
flag says whether the loop got to its end. -/
def reroot (now : Nat) (d : Step) : List Step → Database → Bool × Database
  | [], db => (true, db)
  | s :: ss, db =>
    match s.ancestry with
    | none => (false, db)
    | some a =>
      reroot now d ss ((db.saveStep (some now) { s with ancestry := some (rerooted d a) }).getD db)

/-- The step at a position, if there is one, moves down by one. -/
def moveDown (now p : Nat) (position : Int) (db : Database) : Database :=
  match (db.orderedSteps p).find? (·.position = position) with
  | none => db
  | some s => db.storeStep (some now) { s with position := position - 1 }

/-- The loop over `n` positions that closes the gap below them. -/
def renumber (now p : Nat) : Nat → Int → Database → Database
  | 0, _, db => db
  | n + 1, position, db => renumber now p n (position + 1) (moveDown now p position db)

/-- What `destroy` does once the step is gone: positions, publication, built flag. -/
def afterDestroy (u : User) (now : Nat) (project : Project) (d : Step) (db : Database) : Database :=
  let p := project.id
  let count : Int := (db.projectSteps p).length
  let db := if d.position < count then renumber now p (count - d.position).toNat (d.position + 1) db
    else db
  let db := if project.isPublic then db.setPublished now u.id p none else db
  db.setBuilt now p

/-- The activities and news about a step, by its id. -/
def forgetStep (db : Database) (d : Step) : Database :=
  let question := db.stepQuestion d.id
  let db := db.destroyActivities (some d.id)
  let db := question.elim db fun q => db.destroyActivities (some q.id)
  { db with news := db.news.filter (·.stepId ≠ some d.id) }

/-- `DELETE /projects/:project_id/steps/:id` with a `step_id`, by which the step is looked up. -/
def destroy (u : User) (now p : Nat) (key : StepKey) (db : Database) : Outcome × Database :=
  match db.projects.find? p with
  | none => (.notFound, db)
  | some project =>
    match db.findStep key with
    | none => (.notFound, db)
    | some d =>
      authorize (Ability.destroyStep db u d) db <|
        if rootGuard db p d then (.refused, db)
        else
          let r :=
            if d.ancestry = some ['0'] then
              reroot now d ((db.projectSteps p).filter (·.id ≠ d.id)) db
            else (true, db)
          if r.1 then
            (.ok, afterDestroy u now project d ((forgetStep r.2 d).destroyStep now d))
          else (.error, r.2)

/-! ## Reordering -/

/-- `Step.update_all({position: index+1}, {id: id})` for the listed ids. -/
def sortFrom : Nat → List Nat → Database → Database
  | _, [], db => db
  | index, i :: ids, db =>
    sortFrom (index + 1) ids
      { db with
        steps := db.steps.modify i (fun s => { s with position := (index : Int) + 1 }) (fun _ => rfl) }

/-- `POST /projects/:project_id/steps/sort` -/
def sort (p : Nat) (ids : List Nat) (db : Database) : Outcome × Database :=
  match db.projects.find? p with
  | none => (.notFound, db)
  | some _ => (.ok, sortFrom 0 ids db)

/-- One entry of the map: position first, ancestry second, timestamps off. -/
def updateEntry (db : Database) (e : MapEntry) : Database :=
  let id := (toI e.key).toNat
  let db := db.updateStep none id fun s => { s with position := e.position }
  db.updateStep none id fun s => { s with ancestry := some e.ancestry }

/-- `GET /projects/:project_id/steps/update_ancestry` -/
def updateAncestry (p : Nat) (entries : List MapEntry) (db : Database) : Outcome × Database :=
  match db.projects.find? p with
  | none => (.notFound, db)
  | some _ => (.ok, entries.foldl updateEntry db)

/-! ## Leaving the edit form -/

/-- `GET /projects/:project_id/steps/reset_started_editing` with a user id and a step id. -/
def resetStartedEditing (p user step : Nat) (db : Database) : Outcome × Database :=
  match db.projects.find? p with
  | none => (.notFound, db)
  | some _ =>
    match db.editOf user step with
    | none => (.ok, db)
    | some e =>
      if e.temp = some true then
        (.ok, { db with edits := db.edits.filter (·.id ≠ e.id) })
      else
        (.ok, { db with
          edits := db.edits.modify e.id (fun e => { e with startedEditingAt := none })
            (fun _ => rfl) })

/-! ## The rows after `update_ancestry` -/

/-- What one entry makes of a row. -/
def remapped (s : Step) (e : MapEntry) : Step :=
  if s.id = (toI e.key).toNat then
    (s.updated none fun s => { s with position := e.position }).updated none fun s =>
      { s with ancestry := some e.ancestry }
  else s

theorem remapped_id (s : Step) (e : MapEntry) : (remapped s e).id = s.id := by
  unfold remapped
  split
  · rw [Step.updated_id _ (by intro _; rfl), Step.updated_id _ (by intro _; rfl)]
  · rfl

theorem remapped_projectId (s : Step) (e : MapEntry) : (remapped s e).projectId = s.projectId := by
  unfold remapped Step.updated
  split
  · dsimp only
    split <;> split <;> rfl
  · rfl

theorem remapped_name (s : Step) (e : MapEntry) : (remapped s e).name = s.name := by
  unfold remapped Step.updated
  split
  · dsimp only
    split <;> split <;> rfl
  · rfl

theorem rows_updateEntry (db : Database) (e : MapEntry) :
    (updateEntry db e).steps.rows = db.steps.rows.map (remapped · e) := by
  rw [updateEntry, Database.rows_updateStep _ _ _ (by intro _; rfl),
    Database.rows_updateStep _ _ _ (by intro _; rfl), List.map_map]
  apply List.map_congr_left
  intro s _
  rw [Function.comp, remapped]
  by_cases h : s.id = (toI e.key).toNat
  · rw [if_pos h, if_pos h, if_pos (by rw [Step.updated_id _ (by intro _; rfl)]; exact h)]
  · rw [if_neg h, if_neg h, if_neg h]

theorem rows_foldl_updateEntry (entries : List MapEntry) (db : Database) :
    (entries.foldl updateEntry db).steps.rows =
      db.steps.rows.map fun s => entries.foldl remapped s := by
  induction entries generalizing db with
  | nil => simp
  | cons e es ih =>
    rw [List.foldl_cons, ih, rows_updateEntry, List.map_map]
    rfl

theorem foldl_remapped_id (entries : List MapEntry) (s : Step) :
    (entries.foldl remapped s).id = s.id := by
  induction entries generalizing s with
  | nil => rfl
  | cons e es ih => rw [List.foldl_cons, ih, remapped_id]

theorem foldl_remapped_projectId (entries : List MapEntry) (s : Step) :
    (entries.foldl remapped s).projectId = s.projectId := by
  induction entries generalizing s with
  | nil => rfl
  | cons e es ih => rw [List.foldl_cons, ih, remapped_projectId]

theorem foldl_remapped_name (entries : List MapEntry) (s : Step) : (entries.foldl remapped s).name = s.name := by
  induction entries generalizing s with
  | nil => rfl
  | cons e es ih => rw [List.foldl_cons, ih, remapped_name]

theorem position_foldl_remapped (entries : List MapEntry) (s : Step) :
    (entries.foldl remapped s).position = s.position ∨
      ∃ e ∈ entries, s.id = (toI e.key).toNat ∧ (entries.foldl remapped s).position = e.position := by
  induction entries generalizing s with
  | nil => exact Or.inl rfl
  | cons e es ih =>
    rw [List.foldl_cons]
    have hone : (remapped s e).position = s.position ∨
        s.id = (toI e.key).toNat ∧ (remapped s e).position = e.position := by
      unfold remapped Step.updated
      split
      · rename_i hid
        dsimp only
        split <;> split <;> first | exact Or.inl rfl | exact Or.inr ⟨hid, rfl⟩
      · exact Or.inl rfl
    rcases ih (remapped s e) with hrest | ⟨x, hx, hid, hpos⟩
    · rcases hone with hone | ⟨hid, hone⟩
      · exact Or.inl (hrest.trans hone)
      · exact Or.inr ⟨e, List.mem_cons_self, hid, hrest.trans hone⟩
    · rw [remapped_id] at hid
      exact Or.inr ⟨x, List.mem_cons_of_mem _ hx, hid, hpos⟩

/-- A row without an entry stays as it is. -/
theorem foldl_remapped_of_notMem {entries : List MapEntry} {s : Step}
    (h : ∀ e ∈ entries, s.id ≠ (toI e.key).toNat) : entries.foldl remapped s = s := by
  induction entries with
  | nil => rfl
  | cons e es ih =>
    rw [List.foldl_cons, remapped, if_neg (h e List.mem_cons_self),
      ih fun e he => h e (List.mem_cons_of_mem _ he)]

/-- A row with one entry is written as the entry says.  The position is written first, under the old
ancestry, so that either has to be valid or the position the same. -/
theorem remapped_eq {s : Step} {e : MapEntry} (hid : s.id = (toI e.key).toNat)
    (hold : s.valid = true ∨ s.position = e.position)
    (hnew : ({ s with ancestry := some e.ancestry } : Step).valid = true) :
    remapped s e = { s with position := e.position, ancestry := some e.ancestry } := by
  have hpos : (s.updated none fun s => { s with position := e.position }) =
      { s with position := e.position } := by
    rw [Step.updated]
    split
    · rfl
    · rename_i hv
      have hp := hold.resolve_left hv
      rw [← hp]
  rw [remapped, if_pos hid, hpos, Step.updated]
  exact if_pos hnew

theorem foldl_remapped_eq {entries : List MapEntry}
    (hn : (entries.map fun e => (toI e.key).toNat).Nodup) {s : Step} {e : MapEntry} (he : e ∈ entries)
    (hid : s.id = (toI e.key).toNat) (hold : s.valid = true ∨ s.position = e.position)
    (hnew : ({ s with ancestry := some e.ancestry } : Step).valid = true) :
    entries.foldl remapped s = { s with position := e.position, ancestry := some e.ancestry } := by
  induction entries with
  | nil => simp at he
  | cons x es ih =>
    rw [List.map_cons, List.nodup_cons] at hn
    rw [List.foldl_cons]
    rcases List.mem_cons.mp he with rfl | he
    · rw [remapped_eq hid hold hnew, foldl_remapped_of_notMem]
      intro x hx h
      exact hn.1 (List.mem_map.mpr ⟨x, hx, h.symm.trans hid⟩)
    · have hx : s.id ≠ (toI x.key).toNat := fun h =>
        hn.1 (List.mem_map.mpr ⟨e, he, hid.symm.trans h⟩)
      rw [show remapped s x = s from if_neg hx, ih hn.2 he]

/-- The steps of a project after `update_ancestry`. -/
theorem projectSteps_foldl_updateEntry (entries : List MapEntry) (db : Database) (p : Nat) :
    (entries.foldl updateEntry db).projectSteps p =
      (db.projectSteps p).map fun s => entries.foldl remapped s := by
  rw [Database.projectSteps, rows_foldl_updateEntry, List.filter_map, Database.projectSteps]
  congr 1
  apply List.filter_congr
  intro s _
  simp [foldl_remapped_projectId]

end StepsController
