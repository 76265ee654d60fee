import BuildInProgress.RemixTree
import BuildInProgress.StepPlaces

/-!
# What a remix copies

The rows that `Project#remix` adds, for every state and every project: a step below the new project for
each step of the original, and a copy of each of its images.  A copied image names the image it was first
uploaded as, and goes to the copy of its step.
-/

open Text

namespace Database

/-! ## The steps -/

theorem next_trySave (db : Database) (now : Nat) (s : Step) :
    (db.trySave now s).steps.next = db.steps.next := by
  rw [trySave, saveStep]
  split
  · rw [Option.getD_some, storeStep, steps_checkDecision, storeRow, putStep, Table.next_modify]
  · rfl

theorem steps_foldl_addStepUser (s : Nat) (us : List User) (db : Database) :
    (us.foldl (addStepUser s) db).steps = db.steps := by
  obtain ⟨edits, heq, -⟩ := foldl_addStepUser s us db
  rw [heq]

/-- A copied step is saved up to three times, always as the row that it is. -/
theorem remixStep_steps (now p : Nat) (hash : Nat → Option Nat) {db : Database} {s : Step}
    (hs : ∀ r ∈ db.steps.rows, r.id = s.id → s.place = r.place) :
    SamePlaces db (remixStep now p hash db s) ∧
      (remixStep now p hash db s).steps.next = db.steps.next := by
  -- a record with the place of `s` is saved over a row with that place
  have hsave : ∀ (db' : Database) (s' : Step), SamePlaces db db' → s'.place = s.place →
      SamePlaces db (db'.trySave now s') := by
    intro db' s' hdb hs'
    refine hdb.trans ?_
    rw [trySave, saveStep]
    split
    · rw [Option.getD_some]
      refine .storeStep _ fun r' hr' hid => ?_
      obtain ⟨r, hr, hplace⟩ := hdb.exists_row hr'
      have hrid : r.id = s.id := by
        rw [show r.id = r'.id from congrArg Prod.fst hplace, hid]
        exact congrArg Prod.fst hs'
      rw [hs', hs r hr hrid, hplace]
    · exact .refl _
  rw [remixStep]
  split
  · exact ⟨.refl db, rfl⟩
  · rename_i original _
    dsimp only
    have hcredited : ∀ authors, (credited authors (remapped hash original s)).place = s.place := by
      intro authors
      unfold credited
      split <;> rfl
    have hfirst := hsave db (remapped hash original s) (.refl db) rfl
    have husers : ∀ us : List User, SamePlaces db (us.foldl (addStepUser (remapped hash original s).id)
        (db.trySave now (remapped hash original s))) := fun us =>
      hfirst.trans (.of_eq (steps_foldl_addStepUser _ us _))
    split
    · refine ⟨hsave _ _ (hsave _ _ (husers _) (hcredited _)) (hcredited _), ?_⟩
      rw [next_trySave, next_trySave, steps_foldl_addStepUser, next_trySave]
    · refine ⟨hsave _ _ (husers _) (hcredited _), ?_⟩
      rw [next_trySave, steps_foldl_addStepUser, next_trySave]

theorem remixSteps_steps (now p q : Nat) (db : Database) :
    SamePlaces db (db.remixSteps now p q) ∧ (db.remixSteps now p q).steps.next = db.steps.next := by
  have hfold : ∀ (ss : List Step) (hash : Nat → Option Nat) (db : Database),
      (∀ s ∈ ss, ∀ r ∈ db.steps.rows, r.id = s.id → s.place = r.place) →
      SamePlaces db (ss.foldl (remixStep now p hash) db) ∧
        (ss.foldl (remixStep now p hash) db).steps.next = db.steps.next := by
    intro ss hash
    induction ss with
    | nil => exact fun db _ => ⟨.refl db, rfl⟩
    | cons s ss ih =>
      intro db h
      obtain ⟨hplaces, hnext⟩ := remixStep_steps now p hash (h s List.mem_cons_self)
      have hrest : ∀ x ∈ ss, ∀ r' ∈ (remixStep now p hash db s).steps.rows, r'.id = x.id →
          x.place = r'.place := by
        intro x hx r' hr' hid
        obtain ⟨r, hr, hplace⟩ := hplaces.exists_row hr'
        rw [← hplace]
        exact h x (List.mem_cons_of_mem _ hx) r hr ((congrArg Prod.fst hplace).trans hid)
      obtain ⟨hplaces', hnext'⟩ := ih _ hrest
      exact ⟨hplaces.trans hplaces', hnext'.trans hnext⟩
  refine hfold _ _ db fun s hs r hr hid => ?_
  rw [Table.eq_of_key hr (mem_projectSteps.mp (mem_orderedSteps.mp hs)).1 hid]

theorem next_insertCopies (db : Database) (now q : Nat) (ss : List Step) :
    (db.insertCopies now q ss).steps.next = db.steps.next + ss.length := by
  induction ss generalizing db with
  | nil => rfl
  | cons s ss ih =>
    rw [insertCopies, List.foldl_cons]
    refine (ih _).trans ?_
    show db.steps.next + 1 + ss.length = _
    rw [List.length_cons]
    omega

/-! ## The images -/

/-- The copy of an image, under its new id. -/
def imageCopy (q : Nat) (hash : Nat → Option Nat) (m : Image) (i : Nat) : Image :=
  { m with
    id := i
    stepId := copiedStepId hash m.stepId
    projectId := some q
    originalId := if m.originalId.isSome then m.originalId else some m.id }

theorem images_foldl_remixImage (q : Nat) (hash : Nat → Option Nat) (ms : List Image) (db : Database) :
    (ms.foldl (remixImage q hash) db).images.rows =
        db.images.rows ++ ms.zipIdx.map (fun e => imageCopy q hash e.1 (db.images.next + e.2)) ∧
      (ms.foldl (remixImage q hash) db).images.next = db.images.next + ms.length := by
  -- over the rest of the list the copies start at the key the sequence has reached
  have key : ∀ (ms : List Image) (db : Database) (next i : Nat), db.images.next = next + i →
      (ms.foldl (remixImage q hash) db).images.rows =
          db.images.rows ++ (ms.zipIdx i).map (fun e => imageCopy q hash e.1 (next + e.2)) ∧
        (ms.foldl (remixImage q hash) db).images.next = next + i + ms.length := by
    intro ms
    induction ms with
    | nil =>
      intro db next i hnext
      simp [hnext]
    | cons m ms ih =>
      intro db next i hnext
      rw [List.foldl_cons]
      have hone : (remixImage q hash db m).images.next = next + (i + 1) := by
        show db.images.next + 1 = _
        omega
      obtain ⟨hrows, hend⟩ := ih (remixImage q hash db m) next (i + 1) hone
      have hrow : (remixImage q hash db m).images.rows = db.images.rows ++ [imageCopy q hash m db.images.next] :=
        rfl
      constructor
      · rw [hrows, hrow, hnext, List.zipIdx_cons, List.map_cons, List.append_assoc]
        rfl
      · rw [hend, List.length_cons]
        omega
  exact key ms db db.images.next 0 rfl

/-- `project.images` in the order in which a remix copies them. -/
def orderedImages (db : Database) (p : Nat) : List Image :=
  (db.projectImages p).insertionSort (imageBefore · ·)

theorem mem_orderedImages {db : Database} {p : Nat} {m : Image} :
    m ∈ db.orderedImages p ↔ m ∈ db.images.rows ∧ m.projectId = some p := by
  rw [orderedImages, List.mem_insertionSort, projectImages, List.mem_filter, decide_eq_true_eq]

/-! ## The rows after a remix -/

/-- The description of the project that was added last is emptied, if that keeps it valid. -/
theorem projects_updateDescription {db db' : Database} {x : Project} {now : Nat}
    (hrows : db'.projects.rows = db.projects.rows ++ [x]) (hx : x.id = db.projects.next) (hnow : x.updatedAt = now) :
    ∃ description, (db'.updateProject (some now) db.projects.next fun r =>
        { r with description := some [] }).projects.rows = db.projects.rows ++ [{ x with description }] := by
  rw [updateProject]
  cases hfind : db'.projects.find? db.projects.next with
  | none => exact ⟨x.description, hrows⟩
  | some r =>
    obtain ⟨hr, hid⟩ := Table.find?_eq_some.mp hfind
    have hmem : x ∈ db'.projects.rows := by
      rw [hrows]
      simp
    have hrx : r = x := Table.eq_of_key hr hmem (hid.trans hx.symm)
    subst hrx
    dsimp only
    split
    · exact ⟨r.description, hrows⟩
    · refine ⟨some [], ?_⟩
      rw [putProject]
      dsimp only
      rw [hx, Table.rows_modify_concat hrows hx, Option.getD_some, hnow, hx]

/-- What the loop over the copied steps starts from. -/
theorem beginRemix_spec (db : Database) (u : User) (now p : Nat) (project : Project) :
    ∃ description, (db.beginRemix u now p project).projects.rows =
        db.projects.rows ++ [{ remixProject project now db.projects.next with description }] ∧
      (db.beginRemix u now p project).projects.next = db.projects.next + 1 ∧
      (db.beginRemix u now p project).projectsUsers = db.projectsUsers ++ [(db.projects.next, u.id)] ∧
      (db.beginRemix u now p project).steps.next = db.steps.next + (db.projectSteps p).length ∧
      Touches [.projects, .projectsUsers, .steps] db (db.beginRemix u now p project) := by
  unfold beginRemix
  dsimp only
  generalize hdb₁ : ({ db with
    projects := db.projects.insert (remixProject project now) (fun _ => rfl)
    projectsUsers := db.projectsUsers ++ [(db.projects.next, u.id)] } : Database) = db₁
  have hfirst : Touches [.projects, .projectsUsers] db db₁ := by
    rw [← hdb₁]
    intro t ht
    cases t <;> first | rfl | exact absurd (by decide) ht
  have hss : db₁.projectSteps p = db.projectSteps p := by
    rw [projectSteps, (hfirst .steps (by decide) : _ = _), projectSteps]
  rw [hss]
  -- first the project and its author, then the copies of the steps, then the description
  have hcopied := touches_insertCopies db₁ now db.projects.next (db.projectSteps p)
  have hsteps := next_insertCopies db₁ now db.projects.next (db.projectSteps p)
  rw [(hfirst .steps (by decide) : _ = _)] at hsteps
  generalize db₁.insertCopies now db.projects.next (db.projectSteps p) = db₂ at hcopied hsteps
  have hprojects : db₂.projects = db.projects.insert (remixProject project now) (fun _ => rfl) := by
    rw [(hcopied .projects (by decide) : _ = _), ← hdb₁]
  have hrows : db₂.projects.rows = db.projects.rows ++ [remixProject project now db.projects.next] := by
    rw [hprojects]
    rfl
  have hnext : db₂.projects.next = db.projects.next + 1 := by
    rw [hprojects]
    rfl
  have hauthors : db₂.projectsUsers = db.projectsUsers ++ [(db.projects.next, u.id)] := by
    rw [(hcopied .projectsUsers (by decide) : _ = _), ← hdb₁]
  have hstamp : (remixProject project now db.projects.next).updatedAt = now := rfl
  obtain ⟨description, hdescription⟩ := projects_updateDescription hrows rfl hstamp
  have hupdate : Touches [.projects] db₂ (db₂.updateProject (some now) db.projects.next fun r =>
      { r with description := some [] }) := touches_updateProject db₂ _ _ _
  exact ⟨description, hdescription, (next_updateProject db₂ _ _ _).trans hnext,
    (hupdate .projectsUsers (by decide) : _ = _).trans hauthors,
    (congrArg Table.next (hupdate .steps (by decide))).trans hsteps,
    (hfirst.mono (by decide)).trans ((hcopied.mono (by decide)).trans (hupdate.mono (by decide)))⟩

/-- A duplicate of a video still belongs to the image of the original. -/
theorem videos_foldl_remixImage (q : Nat) (hash : Nat → Option Nat) (ms : List Image) {db : Database} {v : Video}
    (hv : v ∈ (ms.foldl (remixImage q hash) db).videos.rows) : ∃ w ∈ db.videos.rows, w.imageId = v.imageId := by
  induction ms generalizing db with
  | nil => exact ⟨v, hv, rfl⟩
  | cons m ms ih =>
    obtain ⟨w, hw, hwv⟩ := ih hv
    rw [remixImage] at hw
    dsimp only at hw
    split at hw
    · exact ⟨w, hw, hwv⟩
    · rename_i x hfind
      rw [Table.rows_insert, List.mem_append, List.mem_singleton] at hw
      rcases hw with hw | hw
      · exact ⟨w, hw, hwv⟩
      · refine ⟨x, List.mem_of_find?_eq_some hfind, ?_⟩
        rw [← hwv, hw]

/-- A remix that cannot be saved changes nothing; otherwise it adds the copies. -/
theorem images_remix (u : User) (now p : Nat) (db : Database) :
    (remix u now p db).2 = db ∨ ∃ hash, (remix u now p db).2.images.rows =
        db.images.rows ++ (db.orderedImages p).zipIdx.map (fun e =>
          imageCopy db.projects.next hash e.1 (db.images.next + e.2)) ∧
      (remix u now p db).2.images.next = db.images.next + (db.orderedImages p).length ∧
      ∀ v ∈ (remix u now p db).2.videos.rows, ∃ w ∈ db.videos.rows, w.imageId = v.imageId := by
  rw [remix]
  cases db.projects.find? p with
  | none => exact Or.inl rfl
  | some project =>
    dsimp only
    split
    · exact Or.inl rfl
    · right
      obtain ⟨-, -, -, -, -, htouches⟩ := db.beginRemix_spec u now p project
      rw [← beginRemix]
      generalize db.beginRemix u now p project = db₁ at htouches
      have hloop := touches_remixSteps db₁ now p db.projects.next
      have himages : (db₁.remixSteps now p db.projects.next).images = db.images :=
        (hloop .images (by decide)).trans (htouches .images (by decide))
      have hvideos : (db₁.remixSteps now p db.projects.next).videos = db.videos :=
        (hloop .videos (by decide)).trans (htouches .videos (by decide))
      refine ⟨db₁.stepHash p db.projects.next, ?_, ?_, fun v hv => ?_⟩
      · rw [← orderedImages, (images_foldl_remixImage _ _ _ _).1, himages]
      · rw [← orderedImages, (images_foldl_remixImage _ _ _ _).2, himages]
      · rw [← hvideos]
        exact videos_foldl_remixImage _ _ _ hv

/-- A remix adds one project, one author of it, and touches nothing that is not copied. -/
theorem remix_project (u : User) (now p : Nat) (db : Database) :
    remix u now p db = (none, db) ∨ ∃ project description, db.projects.find? p = some project ∧
      (remix u now p db).1 = some db.projects.next ∧
      (remix u now p db).2.projects.rows =
        db.projects.rows ++ [{ remixProject project now db.projects.next with description }] ∧
      (remix u now p db).2.projects.next = db.projects.next + 1 ∧
      (remix u now p db).2.projectsUsers = db.projectsUsers ++ [(db.projects.next, u.id)] ∧
      Touches [.projects, .projectsUsers, .steps, .edits, .decisions, .images, .videos, .activities] db
        (remix u now p db).2 := by
  rw [remix]
  cases hproject : db.projects.find? p with
  | none => exact Or.inl rfl
  | some project =>
    dsimp only
    split
    · exact Or.inl rfl
    · right
      obtain ⟨description, hrows, hnext, hauthors, -, htouches⟩ := db.beginRemix_spec u now p project
      rw [← beginRemix]
      generalize db.beginRemix u now p project = db₁ at hrows hnext hauthors htouches
      have hloop := touches_remixSteps db₁ now p db.projects.next
      have himages := touches_remixImages (db₁.remixSteps now p db.projects.next) db.projects.next
        (db₁.stepHash p db.projects.next) ((db.projectImages p).insertionSort (imageBefore · ·))
      have hlast : Touches [.steps, .decisions, .edits, .images, .videos] db₁ (((db.projectImages p).insertionSort
          (imageBefore · ·)).foldl (remixImage db.projects.next (db₁.stepHash p db.projects.next))
            (db₁.remixSteps now p db.projects.next)) :=
        (hloop.mono (by decide)).trans (himages.mono (by decide))
      refine ⟨project, description, rfl, rfl, ?_, ?_, ?_, ?_⟩
      · exact (congrArg Table.rows (hlast .projects (by decide))).trans hrows
      · exact (congrArg Table.next (hlast .projects (by decide))).trans hnext
      · exact (hlast .projectsUsers (by decide)).trans hauthors
      · exact (htouches.mono (by decide)).trans (hlast.mono (by decide))

/-- The rows that a remix of `project` adds, and where the hash sends its steps. -/
structure RemixRows (db db' : Database) (now : Nat) (project : Project) (hash : Nat → Option Nat) : Prop where
  hashed : ∀ s ∈ db.projectSteps project.id, ∃ t, hash s.id = some t ∧ db.steps.next ≤ t
  unknown : ∀ i, (∀ s ∈ db.projectSteps project.id, s.id ≠ i) → hash i = none
  injective : ∀ i j t, hash i = some t → hash j = some t → i = j
  steps : db'.steps.rows.map Step.place = db.steps.rows.map Step.place ++
    (db.projectSteps project.id).map fun s => ((hash s.id).getD 0, some db.projects.next, s.position)
  nextStep : db.steps.next ≤ db'.steps.next
  images : db'.images.rows = db.images.rows ++ (db.orderedImages project.id).zipIdx.map fun e =>
    imageCopy db.projects.next hash e.1 (db.images.next + e.2)
  projects : ∃ description, db'.projects.rows =
    db.projects.rows ++ [{ remixProject project now db.projects.next with description }]
  nextProject : db'.projects.next = db.projects.next + 1

namespace RemixRows

variable {db db' : Database} {now : Nat} {project : Project} {hash : Nat → Option Nat}

/-- A key of the hash is a step of the original, its value a new step. -/
theorem known (h : RemixRows db db' now project hash) {i j : Nat} (hj : hash i = some j) :
    ∃ s ∈ db.projectSteps project.id, s.id = i ∧ db.steps.next ≤ j := by
  by_contra hno
  push Not at hno
  by_cases hi : ∃ s ∈ db.projectSteps project.id, s.id = i
  · obtain ⟨s, hs, rfl⟩ := hi
    obtain ⟨j', hj', hle⟩ := h.hashed s hs
    rw [hj, Option.some.injEq] at hj'
    have hlt := hno s hs rfl
    omega
  · push Not at hi
    rw [h.unknown i hi] at hj
    cases hj

theorem step_cases (h : RemixRows db db' now project hash) {t : Step} (ht : t ∈ db'.steps.rows) :
    (∃ s ∈ db.steps.rows, t.id = s.id ∧ t.projectId = s.projectId) ∨
      ∃ s ∈ db.projectSteps project.id, hash s.id = some t.id ∧ t.projectId = some db.projects.next := by
  have hplace : t.place ∈ db'.steps.rows.map Step.place := List.mem_map_of_mem ht
  rw [h.steps, List.mem_append] at hplace
  rcases hplace with hplace | hplace
  · obtain ⟨s, hs, heq⟩ := List.mem_map.mp hplace
    rw [Step.place, Step.place, Prod.mk.injEq, Prod.mk.injEq] at heq
    exact Or.inl ⟨s, hs, heq.1.symm, heq.2.1.symm⟩
  · obtain ⟨s, hs, heq⟩ := List.mem_map.mp hplace
    obtain ⟨j, hj, -⟩ := h.hashed s hs
    rw [Step.place, hj, Option.getD_some, Prod.mk.injEq, Prod.mk.injEq] at heq
    exact Or.inr ⟨s, hs, by rw [hj, heq.1], heq.2.1.symm⟩

theorem exists_step (h : RemixRows db db' now project hash) {i j : Nat} (hj : hash i = some j) :
    ∃ t ∈ db'.steps.rows, t.id = j := by
  obtain ⟨s, hs, rfl, -⟩ := h.known hj
  have hplace : (j, some db.projects.next, s.position) ∈ db'.steps.rows.map Step.place := by
    rw [h.steps, List.mem_append]
    refine Or.inr (List.mem_map.mpr ⟨s, hs, ?_⟩)
    rw [hj, Option.getD_some]
  obtain ⟨t, ht, heq⟩ := List.mem_map.mp hplace
  exact ⟨t, ht, congrArg Prod.fst heq⟩

end RemixRows

/-- A remix that cannot be saved changes nothing. -/
theorem remix_cases {db : Database} (hnew : db.projectSteps db.projects.next = []) (u : User) (now p : Nat) :
    ((∀ project ∈ db.projects.find? p,
        remixValid (remixProject project now db.projects.next) (db.projectSteps p) = false) ∧
        remix u now p db = (none, db)) ∨
      ∃ project hash, db.projects.find? p = some project ∧
        remixValid (remixProject project now db.projects.next) (db.projectSteps p) = true ∧
        (remix u now p db).1 = some db.projects.next ∧ RemixRows db (remix u now p db).2 now project hash := by
  cases hproject : db.projects.find? p with
  | none =>
    rw [remix, hproject]
    exact Or.inl ⟨(fun _ hr => by cases hr), rfl⟩
  | some project =>
    cases hvalid : remixValid (remixProject project now db.projects.next) (db.projectSteps p) with
    | false =>
      refine Or.inl ⟨fun r hr => ?_, ?_⟩
      · rw [← Option.some.inj hr]
        exact hvalid
      · rw [remix, hproject]
        dsimp only
        rw [hvalid, Bool.not_false, if_pos rfl]
    | true =>
      right
      have hid : project.id = p := (Table.find?_eq_some.mp hproject).2
      have hhash : ∀ s ∈ db.projectSteps p, (db.beginRemix u now p project).stepHash p db.projects.next s.id =
          some (db.copyOf now p s).id := fun s => stepHash_beginRemix hproject hnew u now
      have hunknown : ∀ i, (∀ s ∈ db.projectSteps p, s.id ≠ i) →
          (db.beginRemix u now p project).stepHash p db.projects.next i = none := fun i =>
        stepHash_beginRemix_eq_none hproject hnew u now
      obtain ⟨description, hprojects, hnextProject, -, hnextStep, htouch⟩ := db.beginRemix_spec u now p project
      have hrows₂ := db.rows_beginRemix u now p project
      rw [remix_eq u now hproject hvalid, ← orderedImages]
      generalize db.beginRemix u now p project = db₂ at *
      generalize db₂.stepHash p db.projects.next = hash at *
      -- the hash knows the copied steps and nothing else
      have hkey : ∀ i t, hash i = some t → ∃ s ∈ db.projectSteps p, s.id = i ∧ (db.copyOf now p s).id = t := by
        intro i t h
        by_contra hno
        push Not at hno
        by_cases hi : ∃ s ∈ db.projectSteps p, s.id = i
        · obtain ⟨s, hs, rfl⟩ := hi
          rw [hhash s hs, Option.some.injEq] at h
          exact hno s hs rfl h
        · push Not at hi
          rw [hunknown i hi] at h
          cases h
      obtain ⟨hplaces, hnext⟩ := remixSteps_steps now p db.projects.next db₂
      have htouch₃ := touches_remixSteps db₂ now p db.projects.next
      have himages₃ : (db₂.remixSteps now p db.projects.next).images = db.images :=
        (htouch₃ .images (by decide)).trans (htouch .images (by decide))
      generalize db₂.remixSteps now p db.projects.next = db₃ at hplaces hnext htouch₃ himages₃
      obtain ⟨hrows, -⟩ := images_foldl_remixImage db.projects.next hash (db.orderedImages p) db₃
      have hsteps := steps_foldl_remixImage db.projects.next hash (db.orderedImages p) db₃
      have hlast := touches_remixImages db₃ db.projects.next hash (db.orderedImages p)
      refine ⟨project, hash, rfl, hvalid, rfl, ?_⟩
      dsimp only
      generalize (db.orderedImages p).foldl (remixImage db.projects.next hash) db₃ = db₄ at hrows hsteps hlast
      refine ⟨?_, ?_, ?_, ?_, ?_, ?_, ?_, ?_⟩
      · rw [hid]
        intro s hs
        exact ⟨_, hhash s hs, db.le_copyOf now p s⟩
      · rw [hid]
        exact hunknown
      · intro i j t hi hj
        obtain ⟨s, hs, rfl, hst⟩ := hkey i t hi
        obtain ⟨s', hs', rfl, hst'⟩ := hkey j t hj
        rw [List.inj_on_of_nodup_map (db.nodup_copyOf now p) hs hs' (hst.trans hst'.symm)]
      · rw [hid, hsteps, (hplaces : _ = _), hrows₂, List.map_append, List.map_map]
        congr 1
        apply List.map_congr_left
        intro s hs
        rw [hhash s hs]
        rfl
      · rw [hsteps, hnext, hnextStep]
        exact Nat.le_add_right _ _
      · rw [hrows, himages₃, hid]
      · refine ⟨description, ?_⟩
        rw [(hlast .projects (by decide) : _ = _), (htouch₃ .projects (by decide) : _ = _), hprojects]
      · rw [(hlast .projects (by decide) : _ = _), (htouch₃ .projects (by decide) : _ = _), hnextProject]

end Database
