import BuildInProgress.MediaRows
import BuildInProgress.Lib.Run

/-!
# Privacy along runs

Which requests change the privacy of a project that its authors have made private or unlisted.  The
step actions publish only a project that is public or has no privacy yet; `ProjectsController#update`
publishes again whenever the title contains "untitled", whatever the privacy is.
-/

open Text Ancestry

namespace Database

/-- The privacy column of a project, if there is the project. -/
def privacyOf (db : Database) (p : Nat) : Option (Option Text) := (db.projects.find? p).map Project.privacy

/-- The values an author chooses to keep a project out of the listings. -/
def Hidden (v : Option Text) : Prop := v = some "private".toList ∨ v = some "unlisted".toList

variable {db db' : Database} {p : Nat}

theorem privacyOf_congr (h : db'.projects = db.projects) : db'.privacyOf p = db.privacyOf p := by
  rw [privacyOf, h, privacyOf]

/-- A function that does not write projects. -/
theorem Touches.privacyOf {names : List TableName} (h : Touches names db db')
    (hn : TableName.projects ∉ names) : db'.privacyOf p = db.privacyOf p :=
  privacyOf_congr (h .projects hn)

theorem privacyOf_putProject (db : Database) {r : Project}
    (h : r.id = p → db.privacyOf p = some r.privacy) :
    (db.putProject r).privacyOf p = db.privacyOf p := by
  rw [privacyOf, putProject, Table.find?_modify, privacyOf, Option.map_map]
  cases hf : db.projects.find? p with
  | none => rfl
  | some q =>
    have hid : q.id = p := (Table.find?_eq_some.mp hf).2
    rw [Option.map_some, Option.map_some, Option.some.injEq, Function.comp]
    split
    · rename_i hq
      have hr : r.id = p := hq.symm.trans hid
      have hpriv := h hr
      rw [privacyOf, hf, Option.map_some, Option.some.injEq] at hpriv
      exact hpriv.symm
    · rfl

/-- An update writes the row of its own project, with the privacy `f` gives it. -/
theorem privacyOf_updateProject (db : Database) (stamp : Option Nat) {i : Nat} {f : Project → Project}
    (hid : ∀ r, (f r).id = r.id) (h : i = p → ∀ r, (f r).privacy = r.privacy) :
    (db.updateProject stamp i f).privacyOf p = db.privacyOf p := by
  unfold updateProject
  cases hf : db.projects.find? i with
  | none => rfl
  | some r =>
    dsimp only
    split
    · rfl
    · apply privacyOf_putProject
      intro hr
      have hri : r.id = i := (Table.find?_eq_some.mp hf).2
      have hip : i = p := hri.symm.trans ((hid r).symm.trans hr)
      rw [privacyOf, ← hip, hf]
      exact congrArg some (h hip r).symm

/-- A valid project gets the privacy it is given. -/
theorem privacyOf_updateProject_privacy {db : Database} {i : Nat} {project : Project}
    (h : db.projects.find? i = some project) (privacy : Option Text) :
    (db.updateProject none i fun p => { p with privacy }).privacyOf i =
      some (if project.valid then privacy else project.privacy) := by
  have hid : project.id = i := (Table.find?_eq_some.mp h).2
  have hvalid : ({ project with privacy } : Project).valid = project.valid := rfl
  rw [updateProject, h]
  dsimp only
  rw [hvalid]
  by_cases hproject : project.valid = true
  · rw [if_pos hproject, hproject, Bool.not_true, Bool.false_or]
    split
    · rename_i hsame
      rw [decide_eq_true_eq] at hsame
      rw [privacyOf, h, ← hsame]
      rfl
    · rw [privacyOf, putProject, Table.find?_modify, h, Option.map_some, Option.map_some, hid]
      rw [if_pos (show Keyed.key project = i from hid)]
  · rw [Bool.not_eq_true] at hproject
    rw [hproject, privacyOf]
    simp [h]

theorem privacyOf_touchProject (db : Database) (now i : Nat) :
    (db.touchProject now i).privacyOf p = db.privacyOf p := by
  rw [privacyOf, touchProject, Table.find?_modify, privacyOf, Option.map_map]
  congr 1
  funext r
  rw [Function.comp]
  split <;> rfl

theorem privacyOf_setBuilt (db : Database) (now i : Nat) :
    (db.setBuilt now i).privacyOf p = db.privacyOf p :=
  privacyOf_updateProject db _ (fun _ => rfl) fun _ _ => rfl

/-- Publishing a project says nothing about another one. -/
theorem privacyOf_setPublished_of_ne (db : Database) (now u : Nat) {i : Nat} (step : Option Nat)
    (h : i ≠ p) : (db.setPublished now u i step).privacyOf p = db.privacyOf p := by
  have hup : ∀ (db : Database) (f : Project → Project), (∀ r, (f r).id = r.id) →
      (db.updateProject (some now) i f).privacyOf p = db.privacyOf p := fun db f hf =>
    privacyOf_updateProject db _ hf fun e => absurd e h
  unfold setPublished
  split
  · rfl
  · dsimp only
    split
    · rw [hup _ _ (by intro _; rfl)]
      exact (touches_announceProject db _ _).privacyOf (by decide)
    · split
      · rw [hup _ _ (by intro _; rfl)]
        cases step.bind db.steps.find? with
        | none => rfl
        | some s => exact (touches_announceStep db _ _ _).privacyOf (by decide)
      · split
        · rw [hup _ _ (by intro _; rfl)]
          have hforget := (touches_forgetActivities db i).privacyOf (p := p) (by decide)
          split
          · rw [hup _ _ (by intro _; rfl), hforget]
          · exact hforget
        · rfl

theorem not_public_of_hidden {project : Project} (h : Hidden project.privacy) :
    project.isPublic = false ∧ project.unpublished = false := by
  rw [Project.isPublic, Project.unpublished]
  rcases h with h | h
  · rw [h]
    decide
  · rw [h]
    decide

theorem hidden_of_find (h : ∀ v, db.privacyOf p = some v → Hidden v) {i : Nat} {project : Project}
    (hproject : db.projects.find? i = some project) (hid : project.id = p) : Hidden project.privacy := by
  have hi : project.id = i := (Table.find?_eq_some.mp hproject).2
  apply h
  rw [privacyOf, ← hid, hi, hproject]
  rfl

/-- The step actions ask for the privacy before they publish. -/
theorem privacyOf_publish (db : Database) (now u i : Nat) (step : Option Nat) {project : Project}
    {gate : Bool} (hgate : gate = true → project.isPublic = true ∨ project.unpublished = true)
    (h : i = p → Hidden project.privacy) :
    (if gate then db.setPublished now u i step else db).privacyOf p = db.privacyOf p := by
  by_cases hip : i = p
  · obtain ⟨hpub, hun⟩ := not_public_of_hidden (h hip)
    have hoff : ¬ gate = true := by
      intro hon
      rcases hgate hon with hc | hc
      · rw [hpub] at hc
        cases hc
      · rw [hun] at hc
        cases hc
    rw [if_neg hoff]
  · split
    · exact privacyOf_setPublished_of_ne db now u step hip
    · rfl

end Database

/-! ## The requests -/

/-- A completed request that carries no decision about privacy. -/
inductive ProjectRequest where
  | createStep (u : User) (now : Nat) (html : Bool) (i : Nat) (params : List StepAttr)
  | updateStep (u : User) (now i : Nat) (id : Int) (params : List StepAttr)
  | destroyStep (u : User) (now i : Nat) (key : StepKey)
  | updateProject (u : User) (now i : Nat) (params : List ProjectAttr)
  | destroyImage (u : User) (now : Nat) (target : Text ⊕ Nat)
  | remix (u : User) (now i : Nat)

namespace ProjectRequest

def perform (db : Database) : ProjectRequest → Database
  | createStep u now html i params => (StepsController.create u now html i params db).2
  | updateStep u now i id params => (StepsController.update u now i id params db).2
  | destroyStep u now i key => (StepsController.destroy u now i key db).2
  | updateProject u now i params => (ProjectsController.update u now i params db).2
  | destroyImage u now target => (ImagesController.destroy u now target db).2
  | remix u now i => (db.remix u now i).2

/-- The project parameters carry no privacy value. -/
def WithoutPrivacy (_ : Database) : ProjectRequest → Prop
  | updateProject _ _ _ params => ∀ a ∈ params, a.carriesPrivacy = false
  | _ => True

/-- The update of project `p` is refused, or leaves a title without "untitled", or leaves a private
project that counts as published. -/
def Discreet (p : Nat) (db : Database) : ProjectRequest → Prop
  | updateProject u now i params =>
    i = p → ∀ project ∈ db.projects.find? p,
      Ability.updateProject db u project = false ∨
      ProjectsController.nestedImagesFound db p params = false ∨
      (ProjectAttr.record now params project).valid = false ∨
      ProjectsController.untitled (ProjectAttr.record now params project) = false ∨
      ((ProjectAttr.record now params project).isPrivate = true ∧
        (ProjectsController.saveProject db now project params).published
          (ProjectAttr.record now params project) = true)
  | _ => True

instance (db : Database) : ∀ r, Decidable (WithoutPrivacy db r)
  | updateProject _ _ _ params => inferInstanceAs (Decidable (∀ a ∈ params, a.carriesPrivacy = false))
  | createStep _ _ _ _ _ => .isTrue trivial
  | updateStep _ _ _ _ _ => .isTrue trivial
  | destroyStep _ _ _ _ => .isTrue trivial
  | destroyImage _ _ _ => .isTrue trivial
  | remix _ _ _ => .isTrue trivial

instance (p : Nat) (db : Database) : ∀ r, Decidable (Discreet p db r)
  | updateProject _ _ i _ => inferInstanceAs (Decidable (i = p → ∀ project ∈ db.projects.find? p, _))
  | createStep _ _ _ _ _ => .isTrue trivial
  | updateStep _ _ _ _ _ => .isTrue trivial
  | destroyStep _ _ _ _ => .isTrue trivial
  | destroyImage _ _ _ => .isTrue trivial
  | remix _ _ _ => .isTrue trivial

end ProjectRequest

/-! ## Step requests -/

namespace StepsController

open Database

variable {db : Database} {p i : Nat} {project : Project}

theorem privacyOf_afterCreate (h : project.id = p → Hidden project.privacy) (u : User) (now : Nat)
    (html : Bool) (s : Step) (params : List StepAttr) :
    (afterCreate u now html project s params db).privacyOf p = db.privacyOf p := by
  unfold afterCreate
  dsimp only
  -- the images and videos of an unsaved step come last
  have hmedia : ∀ db' : Database, (if html then claimMedia db' project.id s.id else db').privacyOf p =
      db'.privacyOf p := by
    intro db'
    split
    · exact (touches_media db' _ _).privacyOf (by decide)
    · rfl
  rw [hmedia, (touches_createQuestionActivity _ _ _).privacyOf (by decide),
    (SameButSteps.updateStep _ _ _ _).touches.privacyOf (by decide), privacyOf_touchProject,
    privacyOf_setBuilt, privacyOf_publish _ _ _ _ _ (by simp) h]
  calc (createEdit (touchCollections (saveQuestion db s.id params) now project.id) u.id s.id project.id
        none none).privacyOf p
      = (touchCollections (saveQuestion db s.id params) now project.id).privacyOf p :=
        (touches_edits _ _).privacyOf (by decide)
    _ = (saveQuestion db s.id params).privacyOf p := (touches_touchCollections _ _ _).privacyOf (by decide)
    _ = db.privacyOf p := (touches_saveQuestion db _ _).privacyOf (by decide)

theorem privacyOf_create (h : ∀ v, db.privacyOf p = some v → Hidden v) (u : User) (now : Nat)
    (html : Bool) (params : List StepAttr) :
    (create u now html i params db).2.privacyOf p = db.privacyOf p := by
  rcases create_cases u now html i params db with ⟨-, heq⟩ | ⟨project, s, hproject, -, -, -, heq⟩
  · rw [heq]
  · rw [heq, privacyOf_afterCreate (hidden_of_find h hproject)]
    exact (touches_steps db _).privacyOf (by decide)

theorem privacyOf_afterUpdate (h : project.id = p → Hidden project.privacy) (u : User) (now : Nat)
    (s : Step) (params : List StepAttr) (gone : Option Question) :
    (afterUpdate u now project s params gone db).2.privacyOf p = db.privacyOf p := by
  have hsaved : (relabel now s params db).privacyOf p = db.privacyOf p :=
    (touches_relabel db now s params).privacyOf (by decide)
  rcases afterUpdate_cases db u now project s params gone with ⟨-, heq⟩ | ⟨e, -, heq⟩
  · rw [heq]
    exact hsaved
  · rw [heq]
    dsimp only
    rw [endEdit, (touches_announceQuestion _ _ _ _).privacyOf (by decide), privacyOf_setBuilt,
      privacyOf_publish _ _ _ _ _ (by simp) h, ← hsaved]
    exact (touches_edits _ _).privacyOf (by decide)

theorem privacyOf_beforeUpdate (db : Database) (now : Nat) (s : Step) (params : List StepAttr) :
    (beforeUpdate now i s params db).privacyOf p = db.privacyOf p := by
  rw [beforeUpdate, privacyOf_touchProject, (touches_removeQuestion _ _ _).privacyOf (by decide),
    ← (touches_touchCollections db now i).privacyOf (by decide)]
  exact (touches_media _ _ _).privacyOf (by decide)

theorem privacyOf_update (h : ∀ v, db.privacyOf p = some v → Hidden v) (u : User) (now : Nat) (id : Int)
    (params : List StepAttr) : (update u now i id params db).2.privacyOf p = db.privacyOf p := by
  rcases update_cases u now i id params db with heq | ⟨project, s, hproject, -, -, heq | ⟨s', -, -, heq⟩⟩
  · rw [heq]
  · rw [heq, privacyOf_beforeUpdate]
  · rw [heq, privacyOf_afterUpdate (hidden_of_find h hproject),
      (SameButSteps.storeRow _ _ _).touches.privacyOf (by decide), privacyOf_beforeUpdate]

theorem privacyOf_afterDestroy (h : project.id = p → Hidden project.privacy) (u : User) (now : Nat)
    (d : Step) : (afterDestroy u now project d db).privacyOf p = db.privacyOf p := by
  rw [afterDestroy_eq, privacyOf_setBuilt, privacyOf_publish _ _ _ _ _ (fun hc => Or.inl hc) h]
  exact (touches_closeGap db now project.id d).privacyOf (by decide)

theorem privacyOf_destroy (h : ∀ v, db.privacyOf p = some v → Hidden v) (u : User) (now : Nat) (key : StepKey) :
    (destroy u now i key db).2.privacyOf p = db.privacyOf p := by
  rcases destroy_cases u now i key db with
    heq | ⟨project, d, hproject, -, -, -, ⟨-, heq⟩ | ⟨-, heq⟩⟩
  · rw [heq]
  · rw [heq, (touches_beforeDestroy db now i d).privacyOf (by decide)]
  · rw [heq, privacyOf_afterDestroy (hidden_of_find h hproject),
      (touches_destroyStep _ _ _).privacyOf (by decide), (touches_forgetStep _ _).privacyOf (by decide),
      (touches_beforeDestroy db now i d).privacyOf (by decide)]

end StepsController

/-! ## Updating and remixing a project -/

namespace ProjectsController

open Database

variable {db : Database} {p i : Nat}

theorem privacy_record (now : Nat) {params : List ProjectAttr} (project : Project)
    (h : ∀ a ∈ params, a.carriesPrivacy = false) :
    (ProjectAttr.record now params project).privacy = project.privacy ∧
      (ProjectAttr.record now params project).id = project.id := by
  have hall : ∀ (params : List ProjectAttr) (r : Project), (∀ a ∈ params, a.carriesPrivacy = false) →
      (params.foldl ProjectAttr.assign r).privacy = r.privacy ∧
        (params.foldl ProjectAttr.assign r).id = r.id := by
    intro params
    induction params with
    | nil => exact fun r _ => ⟨rfl, rfl⟩
    | cons a params ih =>
      intro r h
      have hone : (ProjectAttr.assign r a).privacy = r.privacy ∧ (ProjectAttr.assign r a).id = r.id := by
        have ha := h a List.mem_cons_self
        cases a with
        | privacy v => cases ha
        | _ => exact ⟨rfl, rfl⟩
      have hrest := ih (ProjectAttr.assign r a) fun b hb => h b (List.mem_cons_of_mem _ hb)
      exact ⟨hrest.1.trans hone.1, hrest.2.trans hone.2⟩
  unfold ProjectAttr.record
  dsimp only
  split <;> exact hall params project h

theorem privacyOf_saveProject (db : Database) (now : Nat) {project : Project} {params : List ProjectAttr}
    (hfind : db.projects.find? project.id = some project) (h : ∀ a ∈ params, a.carriesPrivacy = false) :
    (saveProject db now project params).privacyOf p = db.privacyOf p := by
  obtain ⟨hpriv, hid⟩ := privacy_record now project h
  have hput : (db.putProject (ProjectAttr.record now params project)).privacyOf p = db.privacyOf p := by
    apply privacyOf_putProject
    intro hp
    rw [hpriv, privacyOf, ← hp, hid, hfind]
    rfl
  rw [← hput]
  exact (Touches.foldl (touches_saveNestedImage project.id) _ _).privacyOf (by decide)

/-- A private project that counts as published is left alone by `set_published`. -/
theorem setPublished_of_private {db : Database} {project : Project}
    (hfind : db.projects.find? p = some project) (hpriv : project.isPrivate = true)
    (hpub : db.published project = true) (now u : Nat) (step : Option Nat) :
    db.setPublished now u p step = db := by
  have hblank : project.unpublished = false := by
    rw [Project.isPrivate, beq_iff_eq] at hpriv
    rw [Project.unpublished, hpriv]
    decide
  rw [setPublished, hfind]
  dsimp only
  rw [hpub, hpriv, hblank]
  rfl

theorem find?_saveProject (db : Database) (now : Nat) {project : Project} {params : List ProjectAttr}
    (hfind : db.projects.find? project.id = some project) (h : ∀ a ∈ params, a.carriesPrivacy = false) :
    (saveProject db now project params).projects.find? project.id =
      some (ProjectAttr.record now params project) := by
  obtain ⟨-, hid⟩ := privacy_record now project h
  have himages : (saveProject db now project params).projects =
      (db.putProject (ProjectAttr.record now params project)).projects :=
    Touches.foldl (touches_saveNestedImage project.id) _ _ .projects (by decide)
  rw [himages, putProject, Table.find?_modify, hfind, Option.map_some, hid]
  rw [if_pos (show Keyed.key project = project.id from rfl)]
  rw [← hid]

/-- The images after the nested parameters depend on the images before them only. -/
theorem images_saveProject {db db' : Database} (h : db'.images = db.images) (now : Nat)
    (project : Project) (params : List ProjectAttr) :
    (saveProject db' now project params).images = (saveProject db now project params).images := by
  have hall : ∀ (l : List (Option Nat × List ImageAttr)) (a b : Database), a.images = b.images →
      (l.foldl (saveNestedImage project.id) a).images = (l.foldl (saveNestedImage project.id) b).images := by
    intro l
    induction l with
    | nil => exact fun a b hab => hab
    | cons e l ih =>
      intro a b hab
      apply ih
      unfold saveNestedImage ImagesController.modifyImage ImagesController.insertImage
      cases e.1 with
      | none =>
        dsimp only
        rw [hab]
      | some i =>
        dsimp only
        rw [hab]
  exact hall _ _ _ h

theorem published_congr {db db' : Database} (h : db'.images = db.images) (r : Project) :
    db'.published r = db.published r := by
  rw [published, published, projectImages, projectImages, h]

theorem privacyOf_update (hv : ∀ v, db.privacyOf p = some v → Hidden v) {u : User} {now : Nat}
    {params : List ProjectAttr} (h : ∀ a ∈ params, a.carriesPrivacy = false)
    (hd : ProjectRequest.Discreet p db (.updateProject u now i params)) :
    (update u now i params db).2.privacyOf p = db.privacyOf p := by
  have htouch := (StepsController.touches_touchCollections db now i).privacyOf (p := p) (by decide)
  rcases update_cases u now i params db with heq | ⟨project, hproject, hauth, heq | ⟨hfound, hvalid, heq⟩⟩
  · rw [heq]
  · rw [heq, htouch]
  · have hid : project.id = i := (Table.find?_eq_some.mp hproject).2
    subst hid
    have hfind : (StepsController.touchCollections db now project.id).projects.find? project.id =
        some project := hproject
    have hsaved := privacyOf_saveProject (p := p) _ now hfind h
    rw [heq]
    dsimp only
    by_cases hip : project.id = p
    · -- the request is about this project: the condition rules out the second publication
      have hpriv : (ProjectAttr.record now params project).privacy = project.privacy :=
        (privacy_record now project h).1
      have hun := (not_public_of_hidden (hpriv ▸ hidden_of_find hv hproject hip :
        Hidden (ProjectAttr.record now params project).privacy)).2
      rw [hun, Bool.false_or]
      have hcond := hd hip project (hip ▸ hproject)
      rw [hauth, hvalid, ← hip, hfound] at hcond
      rcases hcond with hc | hc | hc | hc | ⟨hprivate, hpub⟩
      · cases hc
      · cases hc
      · cases hc
      · rw [hc, if_neg (by decide), hsaved, htouch]
      · split
        · have himages : (saveProject (StepsController.touchCollections db now project.id) now project
              params).images = (saveProject db now project params).images :=
            images_saveProject (StepsController.touches_touchCollections db now _ .images (by decide)) now
              project params
          rw [← published_congr himages] at hpub
          rw [setPublished_of_private (find?_saveProject _ now hfind h) hprivate hpub, hsaved, htouch]
        · rw [hsaved, htouch]
    · split
      · rw [privacyOf_setPublished_of_ne _ _ _ _ hip, hsaved, htouch]
      · rw [hsaved, htouch]

end ProjectsController

namespace Database

variable {db : Database} {p : Nat}

theorem privacyOf_remix {v : Option Text} (h : db.privacyOf p = some v) (u : User) (now i : Nat) :
    (db.remix u now i).2.privacyOf p = some v := by
  have hne : p ≠ db.projects.next := by
    rw [privacyOf, Option.map_eq_some_iff] at h
    obtain ⟨r, hr, -⟩ := h
    obtain ⟨hmem, rfl⟩ := Table.find?_eq_some.mp hr
    have hb := (db.projects.bound r hmem).2
    omega
  rw [remix]
  cases hfind : db.projects.find? i with
  | none => exact h
  | some project =>
    dsimp only
    by_cases hsave : (!remixValid (remixProject project now db.projects.next) (db.projectSteps i)) = true
    · rw [if_pos hsave]
      exact h
    · rw [if_neg hsave, (touches_remixImages _ _ _ _).privacyOf (by decide),
        (touches_remixSteps _ _ _ _).privacyOf (by decide),
        privacyOf_updateProject _ _ (by intro _; rfl) (by intro _ _; rfl),
        (touches_insertCopies _ _ _ _).privacyOf (by decide), privacyOf]
      exact (congrArg _ (Table.find?_insert_of_ne _ _ (fun _ => rfl) hne)).trans h

end Database

/-! ## Runs -/

theorem ProjectRequest.perform_privacyOf {db : Database} {p : Nat} {v : Option Text}
    (hv : Database.Hidden v) (h : db.privacyOf p = some v) {r : ProjectRequest}
    (hw : r.WithoutPrivacy db) (hd : r.Discreet p db) : (perform db r).privacyOf p = some v := by
  have hall : ∀ w, db.privacyOf p = some w → Database.Hidden w := by
    intro w hw
    rw [h, Option.some.injEq] at hw
    exact hw ▸ hv
  cases r with
  | createStep u now html i params => rw [perform, StepsController.privacyOf_create hall, h]
  | updateStep u now i id params => rw [perform, StepsController.privacyOf_update hall, h]
  | destroyStep u now i key => rw [perform, StepsController.privacyOf_destroy hall, h]
  | updateProject u now i params => rw [perform, ProjectsController.privacyOf_update hall hw hd, h]
  | destroyImage u now target =>
    rw [perform, (ImagesController.touches_destroy u now target db).privacyOf (by decide), h]
  | remix u now i => exact Database.privacyOf_remix h u now i

/-- Along a run without privacy values a private or unlisted project stays so, as long as every
update of it is discreet. -/
theorem privacy_only_explicit (db : Database) (p : Nat) (v : Option Text) (hv : Database.Hidden v)
    (h : db.privacyOf p = some v) (rs : List ProjectRequest)
    (hw : Run.Along ProjectRequest.perform ProjectRequest.WithoutPrivacy db rs)
    (hd : Run.Along ProjectRequest.perform (ProjectRequest.Discreet p) db rs) :
    (Run.after ProjectRequest.perform db rs).privacyOf p = some v := by
  refine Run.invariant (P := fun db r => ProjectRequest.WithoutPrivacy db r ∧ ProjectRequest.Discreet p db r)
    (I := fun db => Database.privacyOf db p = some v) ?_ h (hw.and hd)
  intro db r h ⟨hw, hd⟩
  exact ProjectRequest.perform_privacyOf hv h hw hd

/-- A run with every kind of request on an unlisted project. -/
theorem privacy_only_explicit_unlisted :
    (Run.after ProjectRequest.perform (Database.oneImage "Robot".toList (some "unlisted".toList))
      [.createStep ada 1 true 1 [.name "Arm".toList], .updateStep ada 2 1 1 [.description none],
        .updateProject ada 3 1 [.title "Robot arm".toList], .remix ada 4 1, .destroyImage ada 5 (.inr 1),
        .destroyStep ada 6 1 (.ofId 2)]).privacyOf 1 = some (some "unlisted".toList) :=
  privacy_only_explicit (Database.oneImage "Robot".toList (some "unlisted".toList)) 1 _ (Or.inr rfl)
    (by decide +kernel) _ (by decide +kernel) (by decide +kernel)

/-- An unlisted project whose title contains "untitled" is published by an update of its description. -/
theorem untitled_update_publishes :
    let db := Database.oneImage "My untitled robot".toList (some "unlisted".toList)
    let rs := [.updateProject ada 1 1 [.description (some "wip".toList)]]
    db.privacyOf 1 = some (some "unlisted".toList) ∧
      Run.Along ProjectRequest.perform ProjectRequest.WithoutPrivacy db rs ∧
      (Run.after ProjectRequest.perform db rs).privacyOf 1 = some (some "public".toList) := by
  decide +kernel
