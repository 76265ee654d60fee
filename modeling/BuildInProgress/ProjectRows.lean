import BuildInProgress.Privacy

/-!
# What the project functions do to the rows

`update_attributes`, `touch`, `set_published` and `set_built` write one row of the projects.  What
`set_published` makes of the row depends on the row alone, once `published?` is known.  The update of a
project saves the record of its parameters and may then ask `set_published`.
-/

open Text Ancestry

namespace Project

/-- The row after `update_attributes` on it. -/
def updated (stamp : Option Nat) (f : Project → Project) (p : Project) : Project :=
  if !(f p).valid || f p = p then p else { f p with updatedAt := stamp.getD (f p).updatedAt }

theorem updated_id (stamp : Option Nat) {f : Project → Project} (hf : ∀ p, (f p).id = p.id) (p : Project) :
    (p.updated stamp f).id = p.id := by
  unfold updated
  split
  · rfl
  · exact hf p

/-- The row after `set_published`, when `published?` has answered `published`. -/
def republished (published : Bool) (now : Nat) (p : Project) : Project :=
  if published && p.unpublished then p.updated (some now) fun p => { p with privacy := some "public".toList }
  else if published && !p.isPrivate then
    p.updated (some now) fun p => { p with privacy := some "public".toList }
  else if !published then
    let p := if p.featured == some true then p.updated (some now) fun p => { p with featured := some false } else p
    p.updated (some now) fun p => { p with privacy := none }
  else p

theorem republished_id (published : Bool) (now : Nat) (p : Project) : (p.republished published now).id = p.id := by
  unfold republished
  split
  · exact updated_id _ (by intro _; rfl) p
  · split
    · exact updated_id _ (by intro _; rfl) p
    · split
      · dsimp only
        rw [updated_id _ (by intro _; rfl)]
        split
        · exact updated_id _ (by intro _; rfl) p
        · rfl
      · rfl

theorem updated_of_valid {stamp : Option Nat} {f : Project → Project} {p : Project} (hv : (f p).valid = true)
    (hne : f p ≠ p) : p.updated stamp f = { f p with updatedAt := stamp.getD (f p).updatedAt } := by
  rw [updated, if_neg]
  rw [hv, Bool.not_true, Bool.false_or, decide_eq_true_eq]
  exact hne

theorem updated_of_eq {stamp : Option Nat} {f : Project → Project} {p : Project} (h : f p = p) :
    p.updated stamp f = p := by
  rw [updated, if_pos]
  rw [decide_eq_true h, Bool.or_true]

theorem updated_of_not_valid {stamp : Option Nat} {f : Project → Project} {p : Project}
    (hv : (f p).valid = false) : p.updated stamp f = p := by
  rw [updated, if_pos]
  rw [hv]
  rfl

theorem privacy_updated (stamp : Option Nat) (p : Project) (v : Option Text) :
    (p.updated stamp fun p => { p with privacy := v }).privacy = if p.valid then v else p.privacy := by
  by_cases hv : p.valid = true
  · rw [if_pos hv]
    by_cases hsame : ({ p with privacy := v } : Project) = p
    · rw [updated_of_eq hsame]
      exact (congrArg Project.privacy hsame).symm
    · rw [updated_of_valid hv hsame]
  · rw [if_neg hv, updated_of_not_valid (by exact Bool.eq_false_of_not_eq_true hv)]

end Project

namespace Database

variable (db : Database)

theorem rows_putProject (p : Project) :
    (db.putProject p).projects.rows = db.projects.rows.map fun r => if r.id = p.id then p else r := by
  rw [putProject, Table.rows_modify]
  apply List.map_congr_left
  intro r _
  change (if r.id = p.id then ({ p with id := r.id } : Project) else r) = _
  by_cases h : r.id = p.id
  · rw [if_pos h, if_pos h, h]
  · rw [if_neg h, if_neg h]

theorem rows_updateProject (stamp : Option Nat) (i : Nat) {f : Project → Project} (hf : ∀ p, (f p).id = p.id) :
    (db.updateProject stamp i f).projects.rows =
      db.projects.rows.map fun p => if p.id = i then p.updated stamp f else p := by
  rw [updateProject]
  cases hfind : db.projects.find? i with
  | none => exact (Table.map_not_found hfind _).symm
  | some p =>
    dsimp only
    by_cases hsame : (!(f p).valid || decide (f p = p)) = true
    · rw [if_pos hsame]
      exact (Table.map_found_self hfind (by rw [Project.updated, if_pos hsame])).symm
    · have hfid : i = (f p).id := ((hf p).trans (Table.find?_eq_some.mp hfind).2).symm
      subst hfid
      rw [if_neg hsame, rows_putProject]
      exact Table.map_congr_found hfind (by rw [Project.updated, if_neg hsame])

theorem find?_updateProject (stamp : Option Nat) (i : Nat) {f : Project → Project} (hf : ∀ p, (f p).id = p.id)
    (j : Nat) : (db.updateProject stamp i f).projects.find? j =
      (db.projects.find? j).map fun p => if p.id = i then p.updated stamp f else p := by
  refine Table.find?_of_rows_map (db.rows_updateProject stamp i hf) (fun p => ?_) j
  split
  · exact Project.updated_id stamp hf p
  · rfl

theorem rows_touchProject (now i : Nat) : (db.touchProject now i).projects.rows =
    db.projects.rows.map fun p => if p.id = i then { p with updatedAt := now } else p := rfl

theorem rows_setBuilt (now i : Nat) : (db.setBuilt now i).projects.rows = db.projects.rows.map fun p =>
    if p.id = i then p.updated (some now) fun p =>
      { p with built := some ((db.projectSteps i).any (·.last == some true)) } else p :=
  db.rows_updateProject _ _ fun _ => rfl

theorem projects_announceProject (u : Nat) (p : Project) : (db.announceProject u p).projects = db.projects :=
  touches_announceProject db u p .projects (by decide)

theorem projects_forgetActivities (i : Nat) : (db.forgetActivities i).projects = db.projects :=
  touches_forgetActivities db i .projects (by decide)

theorem rows_setPublished (now u i : Nat) (step : Option Nat) :
    (db.setPublished now u i step).projects.rows =
      db.projects.rows.map fun p => if p.id = i then p.republished (db.published p) now else p := by
  rw [setPublished]
  cases hfind : db.projects.find? i with
  | none => exact (Table.map_not_found hfind _).symm
  | some p =>
    -- the row of the project is the only one that `republished` is asked for
    have hone : (db.projects.rows.map fun r => if r.id = i then r.republished (db.published r) now else r) =
        db.projects.rows.map fun r => if r.id = i then r.republished (db.published p) now else r :=
      Table.map_congr_found hfind rfl
    have hbranch : ∀ f : Project → Project, p.republished (db.published p) now = f p →
        (db.projects.rows.map fun r => if r.id = i then f r else r) =
          db.projects.rows.map fun r => if r.id = i then r.republished (db.published p) now else r :=
      fun f hf => Table.map_congr_found hfind hf.symm
    rw [hone]
    dsimp only
    by_cases h1 : (db.published p && p.unpublished) = true
    · rw [if_pos h1, rows_updateProject _ _ _ (by intro _; rfl), projects_announceProject]
      refine hbranch _ ?_
      rw [Project.republished, if_pos h1]
    · rw [if_neg h1]
      by_cases h2 : (db.published p && !p.isPrivate) = true
      · have hstep : ((step.bind db.steps.find?).elim db (db.announceStep u p)).projects = db.projects := by
          cases step.bind db.steps.find? with
          | none => rfl
          | some s => exact touches_announceStep db u p s .projects (by decide)
        rw [if_pos h2, rows_updateProject _ _ _ (by intro _; rfl), hstep]
        refine hbranch _ ?_
        rw [Project.republished, if_neg h1, if_pos h2]
      · rw [if_neg h2]
        by_cases h3 : (!db.published p) = true
        · rw [if_pos h3, rows_updateProject _ _ _ (by intro _; rfl)]
          by_cases hfeatured : (p.featured == some true) = true
          · rw [if_pos hfeatured, rows_updateProject _ _ _ (by intro _; rfl), projects_forgetActivities,
              List.map_map]
            refine Eq.trans ?_ (hbranch (fun r => (r.updated (some now) fun r =>
              { r with featured := some false }).updated (some now) fun r => { r with privacy := none }) ?_)
            · apply List.map_congr_left
              intro r _
              rw [Function.comp]
              by_cases h : r.id = i
              · rw [if_pos h, if_pos h, if_pos]
                rw [Project.updated_id _ (by intro _; rfl)]
                exact h
              · rw [if_neg h, if_neg h, if_neg h]
            · rw [Project.republished, if_neg h1, if_neg h2, if_pos h3, if_pos hfeatured]
          · rw [if_neg hfeatured, projects_forgetActivities]
            refine hbranch _ ?_
            rw [Project.republished, if_neg h1, if_neg h2, if_pos h3, if_neg hfeatured]
        · rw [if_neg h3]
          have hsame : p.republished (db.published p) now = p := by
            rw [Project.republished, if_neg h1, if_neg h2, if_neg h3]
          exact (Table.map_found_self hfind hsame).symm

end Database

/-! ## The update of a project -/

namespace ProjectAttr

theorem assign_id (p : Project) (a : ProjectAttr) : (assign p a).id = p.id := by
  cases a <;> rfl

theorem record_id (now : Nat) (params : List ProjectAttr) (p : Project) : (record now params p).id = p.id := by
  have hall : (params.foldl assign p).id = p.id := by
    induction params generalizing p with
    | nil => rfl
    | cons a params ih => rw [List.foldl_cons, ih, assign_id]
  unfold record
  dsimp only
  split
  · exact hall
  · exact hall

end ProjectAttr

namespace ProjectsController

open Database

/-- The project whose record `update` comes to save. -/
def saves (u : User) (now i : Nat) (params : List ProjectAttr) (db : Database) : Option Project :=
  (db.projects.find? i).filter fun project => Ability.updateProject db u project &&
    nestedImagesFound db i params && (ProjectAttr.record now params project).valid

/-- `update` asks `set_published` about the saved record. -/
def asks (now : Nat) (params : List ProjectAttr) (project : Project) : Bool :=
  (ProjectAttr.record now params project).unpublished || untitled (ProjectAttr.record now params project)

/-- What `published?` says of the saved record. -/
def publishedAfter (db : Database) (now : Nat) (params : List ProjectAttr) (project : Project) : Bool :=
  (saveProject db now project params).published (ProjectAttr.record now params project)

/-- The row after the update. -/
def rowAfter (db : Database) (now : Nat) (params : List ProjectAttr) (project : Project) : Project :=
  if asks now params project then
    (ProjectAttr.record now params project).republished (publishedAfter db now params project) now
  else ProjectAttr.record now params project

theorem rowAfter_id (db : Database) (now : Nat) (params : List ProjectAttr) (project : Project) :
    (rowAfter db now params project).id = project.id := by
  unfold rowAfter
  split
  · rw [Project.republished_id, ProjectAttr.record_id]
  · exact ProjectAttr.record_id now params project

theorem projects_saveProject (db : Database) (now : Nat) (project : Project) (params : List ProjectAttr) :
    (saveProject db now project params).projects =
      (db.putProject (ProjectAttr.record now params project)).projects :=
  Touches.foldl (touches_saveNestedImage project.id) _ _ .projects (by decide)

theorem update_saves (u : User) (now i : Nat) (params : List ProjectAttr) (db : Database) :
    (saves u now i params db = none ∧ (update u now i params db).1 ≠ .ok ∧
        (update u now i params db).2.projects = db.projects ∧
        (update u now i params db).2.images = db.images ∧ (update u now i params db).2.users = db.users) ∨
      ∃ project, db.projects.find? i = some project ∧ saves u now i params db = some project ∧
        (ProjectAttr.record now params project).valid = true ∧
        (update u now i params db).2.projects.rows =
          db.projects.rows.map (fun p => if p.id = i then rowAfter db now params project else p) ∧
        (update u now i params db).2.images = (saveProject db now project params).images ∧
        (update u now i params db).2.users = db.users := by
  have htouch := StepsController.touches_touchCollections db now i
  rw [update, saves]
  cases hfind : db.projects.find? i with
  | none => exact Or.inl ⟨rfl, by simp, rfl, rfl, rfl⟩
  | some project =>
    have hid : project.id = i := (Table.find?_eq_some.mp hfind).2
    dsimp only
    cases hauth : Ability.updateProject db u project with
    | false =>
      refine Or.inl ⟨?_, by simp [authorize], rfl, rfl, rfl⟩
      rw [Option.filter_some, if_neg (by rw [hauth, Bool.false_and, Bool.false_and]; decide)]
    | true =>
      rw [authorize]
      have hsame : nestedImagesFound (StepsController.touchCollections db now i) i params =
          nestedImagesFound db i params := rfl
      rw [hsame]
      cases hfound : nestedImagesFound db i params with
      | false =>
        refine Or.inl ⟨?_, by simp, htouch .projects (by decide), htouch .images (by decide),
          htouch .users (by decide)⟩
        rw [Option.filter_some, if_neg (by rw [hauth, Bool.true_and, Bool.false_and]; decide)]
      | true =>
        cases hv : (ProjectAttr.record now params project).valid with
        | false =>
          refine Or.inl ⟨?_, by simp, htouch .projects (by decide), htouch .images (by decide),
            htouch .users (by decide)⟩
          rw [Option.filter_some, if_neg (by rw [hauth, hv, Bool.and_false]; decide)]
        | true =>
          refine Or.inr ⟨project, rfl, ?_, hv, ?_⟩
          · rw [Option.filter_some, if_pos (by rw [hauth, hv]; rfl)]
          · simp only [Bool.not_true, Bool.false_eq_true, if_false]
            rw [← asks]
            -- the row is saved first, and published from there
            have hsaved : (saveProject (StepsController.touchCollections db now i) now project params).projects.rows =
                db.projects.rows.map fun p => if p.id = i then ProjectAttr.record now params project else p := by
              rw [projects_saveProject, rows_putProject, ProjectAttr.record_id, hid]
              rfl
            have himages : (saveProject (StepsController.touchCollections db now i) now project params).images =
                (saveProject db now project params).images :=
              images_saveProject (htouch .images (by decide)) now project params
            have husers : (saveProject (StepsController.touchCollections db now i) now project params).users =
                db.users := Touches.foldl (touches_saveNestedImage project.id) _ _ .users (by decide)
            by_cases hask : asks now params project = true
            · rw [if_pos hask]
              refine ⟨?_, ?_, ?_⟩
              · rw [rows_setPublished, hsaved, List.map_map]
                apply List.map_congr_left
                intro r _
                rw [Function.comp]
                by_cases hr : r.id = i
                · rw [if_pos hr, if_pos hr, if_pos (by rw [ProjectAttr.record_id, hid]), rowAfter, if_pos hask,
                    publishedAfter, published_congr himages]
                · rw [if_neg hr, if_neg hr, if_neg hr]
              · rw [← himages]
                exact (SameRecords.setPublished _ _ _ _ _).touches .images (by decide)
              · rw [← husers]
                exact (SameRecords.setPublished _ _ _ _ _).touches .users (by decide)
            · rw [if_neg hask]
              refine ⟨?_, himages, husers⟩
              rw [hsaved, rowAfter, if_neg hask]

end ProjectsController
