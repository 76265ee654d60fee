import BuildInProgress.Frame

/-!
# Which steps and edits a request reaches

The steps of a project stay as they are while a request writes in other projects, and so do the edits of
other users.  `create` keeps to the project of the URL, `update` to that project and the one it moves the step
to, the loops of `destroy` to the project of the URL.
-/

open Text Ancestry

namespace Database

/-- The edits of a project that belong to others than `u`. -/
def othersEdits (db : Database) (p : Nat) (u : User) : List Edit :=
  db.edits.rows.filter fun e => e.projectId = some p ∧ e.userId ≠ some u.id

/-- The user is an author of the project or an admin. -/
def MayWrite (db : Database) (u : User) (p : Nat) : Prop := db.author p u.id = true ∨ u.isAdmin = true

/-- A project column names no project at all, or one the user may write. -/
def OwnColumn (db : Database) (u : User) (column : Option Nat) : Prop :=
  ∀ p, column = some p → (db.projects.find? p).isSome = true → db.MayWrite u p

instance (db : Database) (u : User) (p : Nat) : Decidable (db.MayWrite u p) :=
  inferInstanceAs (Decidable (_ ∨ _))

instance (db : Database) (u : User) : ∀ column, Decidable (db.OwnColumn u column)
  | none => .isTrue fun _ h => nomatch h
  | some p =>
    decidable_of_iff ((db.projects.find? p).isSome = true → db.MayWrite u p)
      ⟨fun h _ hp => Option.some.inj hp ▸ h, fun h => h p rfl⟩

end Database

namespace StepAttr

/-- The project a submitted `project_id` moves the step to; the last one counts. -/
def projectOf (params : List StepAttr) (column : Option Nat) : Option Nat :=
  params.foldl (fun c a => match a with
    | projectId v => v
    | _ => c) column

end StepAttr

namespace Database

/-! ## Steps outside some projects -/

/-- The steps of the projects outside `S` are the same. -/
def StepsOutside (S : Nat → Prop) (db db' : Database) : Prop :=
  ∀ q, ¬ S q → db'.projectSteps q = db.projectSteps q

namespace StepsOutside

variable {S : Nat → Prop} {db db' db'' : Database}

theorem refl (S : Nat → Prop) (db : Database) : StepsOutside S db db := fun _ _ => rfl

theorem trans (h : StepsOutside S db db') (h' : StepsOutside S db' db'') : StepsOutside S db db'' :=
  fun q hq => (h' q hq).trans (h q hq)

theorem of_eq (h : db'.steps = db.steps) : StepsOutside S db db' := fun q _ => by
  rw [projectSteps, h, projectSteps]

/-- Rows that change lie inside before and after. -/
theorem of_map {f : Step → Step} (hrows : db'.steps.rows = db.steps.rows.map f)
    (h : ∀ s ∈ db.steps.rows, f s = s ∨ Inside S s.projectId ∧ Inside S (f s).projectId) :
    StepsOutside S db db' := by
  intro q hq
  rw [projectSteps, hrows, projectSteps]
  exact List.filter_map_outside hq h

/-- A stored record whose row, if there is one, lies in the same project. -/
theorem storeRow (stamp : Option Nat) {s : Step} (hs : ∀ q, s.projectId = some q → S q)
    (h : ∀ r ∈ db.steps.rows, r.id = s.id → ∀ q, r.projectId = some q → S q) :
    StepsOutside S db (db.storeRow stamp s) := by
  refine of_map (db.rows_storeRow stamp s) fun r hr => ?_
  by_cases hid : r.id = s.id
  · rw [if_pos hid]
    exact Or.inr ⟨h r hr hid, hs⟩
  · rw [if_neg hid]
    exact Or.inl rfl

theorem storeStep (stamp : Option Nat) {s : Step} (hs : ∀ q, s.projectId = some q → S q)
    (h : ∀ r ∈ db.steps.rows, r.id = s.id → ∀ q, r.projectId = some q → S q) :
    StepsOutside S db (db.storeStep stamp s) :=
  (storeRow stamp hs h).trans (of_eq (steps_checkDecision _ _))

end StepsOutside

end Database

namespace StepAttr

theorem assign_ids {db : Database} {s s' : Step} {a : StepAttr} (h : assign db s a = some s') :
    s'.id = s.id ∧ s'.projectId = projectOf [a] s.projectId := by
  cases a with
  | parentId v =>
    cases v with
    | none =>
      cases h
      exact ⟨rfl, rfl⟩
    | some q =>
      rw [assign] at h
      split at h
      · cases h
        exact ⟨rfl, rfl⟩
      · split at h
        · cases h
        · cases h
          exact ⟨rfl, rfl⟩
  | _ =>
    cases h
    exact ⟨rfl, rfl⟩

theorem assignAll_ids {db : Database} {params : List StepAttr} {s s' : Step}
    (h : assignAll db s params = some s') :
    s'.id = s.id ∧ s'.projectId = projectOf params s.projectId := by
  induction params generalizing s with
  | nil =>
    cases h
    exact ⟨rfl, rfl⟩
  | cons a params ih =>
    rw [assignAll, List.foldlM_cons] at h
    obtain ⟨s₁, h₁, h₂⟩ := Option.bind_eq_some_iff.mp h
    obtain ⟨hid₁, hp₁⟩ := assign_ids h₁
    obtain ⟨hid, hp⟩ := ih h₂
    exact ⟨hid.trans hid₁, by rw [hp, hp₁]; rfl⟩

end StepAttr

namespace StepsController

open Database

variable {db : Database} {u : User}

theorem author_of_permission {p : Nat} (h : Ability.authorOf db u (some p) = some true) :
    db.author p u.id = true := by
  rw [Ability.authorOf, Option.bind_some, Option.map_eq_some_iff] at h
  obtain ⟨project, hfind, hauthor⟩ := h
  have hid : project.id = p := (Table.find?_eq_some.mp hfind).2
  rw [← hid]
  exact hauthor

/-- The record `create` saves belongs to the project of the URL. -/
theorem buildStep_ids {now p : Nat} {params : List StepAttr} {s : Step}
    (h : buildStep db now p params = some s) : s.projectId = some p ∧ s.id = db.steps.next := by
  obtain ⟨s₀, -, rfl⟩ := Option.map_eq_some_iff.mp h
  exact ⟨rfl, rfl⟩

theorem stepsOutside_insertStep {S : Nat → Prop} {s : Step} (h : ∀ q, s.projectId = some q → S q) :
    StepsOutside S db (insertStep db s) := by
  intro q hq
  rw [projectSteps, insertStep, Table.rows_insert, projectSteps]
  exact List.filter_concat_outside hq h

theorem stepsOutside_create {S : Nat → Prop} {p : Nat} (hS : db.author p u.id = true → S p) (now : Nat)
    (html : Bool) (params : List StepAttr) :
    StepsOutside S db (create u now html p params db).2 := by
  rcases create_cases u now html p params db with ⟨-, heq⟩ | ⟨project, s, -, hbuild, hauth, -, heq⟩
  · rw [heq]
    exact .refl S db
  · obtain ⟨hproj, hid⟩ := buildStep_ids hbuild
    have hp : ∀ q, s.projectId = some q → S q := by
      intro q hq
      rw [hproj, Option.some.injEq] at hq
      exact hq ▸ hS (author_of_permission (hproj ▸ hauth))
    rw [heq]
    dsimp only
    generalize hpos : createPosition db p (createParams db p params) = position
    refine .trans (stepsOutside_insertStep (s := { s with position }) hp) ?_
    refine .of_map (rows_afterCreate u now html project _ _ _) fun r hr => ?_
    by_cases hrs : r.id = s.id
    · -- the row of the new step, which no older row can be
      have hrow : r.projectId = s.projectId := by
        rw [insertStep, Table.rows_insert, List.mem_append, List.mem_singleton] at hr
        rcases hr with hr | rfl
        · have hb : r.id < db.steps.next := (db.steps.bound r hr).2
          omega
        · rfl
      rw [if_pos hrs]
      refine Or.inr ⟨fun q hq => hp q (hrow ▸ hq), fun q hq => hp q ?_⟩
      rw [← hrow, ← hq]
      unfold Step.updated
      split <;> rfl
    · exact Or.inl (if_neg hrs)

/-- After the save only the colour of a label that is switched off is written. -/
theorem stepsOutside_afterUpdate {S : Nat → Prop} (u : User) (now : Nat) (project : Project) {s : Step}
    (params : List StepAttr) (gone : Option Question) (hs : ∀ q, s.projectId = some q → S q)
    (h : ∀ r ∈ db.steps.rows, r.id = s.id → ∀ q, r.projectId = some q → S q) :
    StepsOutside S db (afterUpdate u now project s params gone db).2 := by
  have hq : (updateQuestion db s.id params).steps = db.steps :=
    touches_updateQuestion db s.id params .steps (by decide)
  have hlabel : StepsOutside S db (relabel now s params db) := by
    unfold relabel
    split
    · refine .trans (.of_eq hq) (.of_map (rows_putStep _ _) fun r hr => ?_)
      by_cases hid : r.id = s.id
      · rw [if_pos hid]
        exact Or.inr ⟨h r (hq ▸ hr) hid, hs⟩
      · exact Or.inl (if_neg hid)
    · exact .of_eq hq
  rcases afterUpdate_cases db u now project s params gone with ⟨-, heq⟩ | ⟨e, -, heq⟩
  · rw [heq]
    exact hlabel
  · rw [heq]
    exact hlabel.trans (.of_eq (touches_endEdit _ u now project s e gone .steps (by decide)))

/-- `update` writes the row of the step it has found; a submitted project id moves it. -/
theorem stepsOutside_update {S : Nat → Prop} {p : Nat}
    (hS : Ability.authorOf db u (some p) = some true ∨ u.isAdmin = true → S p) (now : Nat) (id : Int)
    (params : List StepAttr) (hmove : (db.projects.find? p).isSome = true → ∀ s ∈ findByPosition db p id,
      Ability.updateStep db u s = some true → ∀ s' ∈ StepAttr.assignAll db s params, s'.valid = true →
        ∀ q, StepAttr.projectOf params (some p) = some q → S q) :
    StepsOutside S db (update u now p id params db).2 := by
  have hbefore : ∀ s, (beforeUpdate now p s params db).steps = db.steps := fun s =>
    touches_beforeUpdate db now p s params .steps (by decide)
  rcases update_cases u now p id params db with
    heq | ⟨project, s, hproject, hfind, hauth, heq | ⟨s', hassign, hvalid, heq⟩⟩
  · rw [heq]
    exact .refl S db
  · rw [heq]
    exact .of_eq (hbefore s)
  · rw [heq]
    have hsteps := Database.mem_projectSteps.mp (List.mem_of_find?_eq_some hfind)
    obtain ⟨hid, hproj⟩ := StepAttr.assignAll_ids hassign
    rw [hsteps.2] at hproj
    have hs' : ∀ q, s'.projectId = some q → S q := fun q hq =>
      hmove (hproject ▸ rfl) s hfind hauth s' (StepAttr.assignAll_congr (hbefore s) params s ▸ hassign) hvalid q
        (hproj ▸ hq)
    -- the step that was found belongs to the project of the address
    have hp : S p := by
      rw [Ability.updateStep, hsteps.2] at hauth
      obtain ⟨b, hb, hor⟩ := Option.map_eq_some_iff.mp hauth
      rw [Bool.or_eq_true] at hor
      rcases hor with rfl | hadmin
      · exact hS (Or.inl hb)
      · exact hS (Or.inr hadmin)
    have hrow : ∀ r ∈ db.steps.rows, r.id = s'.id → ∀ q, r.projectId = some q → S q := by
      intro r hr hrid q hq
      rw [Table.eq_of_key hr hsteps.1 (hrid.trans hid), hsteps.2, Option.some.injEq] at hq
      exact hq ▸ hp
    have hstored : StepsOutside S db ((beforeUpdate now p s params db).storeRow (some now) s') :=
      .trans (.of_eq (hbefore s)) (.storeRow _ hs' (by rw [hbefore s]; exact hrow))
    refine hstored.trans ?_
    generalize hdb : (beforeUpdate now p s params db).storeRow (some now) s' = db₁
    -- the row is written a second time, and is in the submitted project by then
    have hrow₁ : ∀ r ∈ db₁.steps.rows, r.id = s'.id → ∀ q, r.projectId = some q → S q := by
      intro r hr hrid q hq
      rw [← hdb, rows_storeRow] at hr
      obtain ⟨r₀, -, rfl⟩ := List.mem_map.mp hr
      split at hq
      · exact hs' q hq
      · rename_i hne
        rw [if_neg hne] at hrid
        exact absurd hrid hne
    exact stepsOutside_afterUpdate u now project params _ hs' hrow₁

/-! ## Destroying a step of another project -/

theorem stepsOutside_reroot {S : Nat → Prop} {p : Nat} (hp : S p) (now : Nat) (d : Step) {ss : List Step}
    (hss : ∀ s ∈ ss, s.projectId = some p) {db : Database}
    (h : ∀ s ∈ ss, ∀ r ∈ db.steps.rows, r.id = s.id → r.projectId = some p) :
    StepsOutside S db (reroot now d ss db).2 := by
  induction ss generalizing db with
  | nil => exact .refl S db
  | cons s ss ih =>
    have hin : ∀ q, s.projectId = some q → S q := by
      intro q hq
      rw [hss s List.mem_cons_self, Option.some.injEq] at hq
      exact hq ▸ hp
    have htail : ∀ x ∈ ss, x.projectId = some p := fun x hx => hss x (List.mem_cons_of_mem _ hx)
    unfold reroot
    cases s.ancestry with
    | none => exact .refl S db
    | some a =>
      dsimp only
      rw [saveStep]
      split
      · rw [Option.getD_some]
        refine .trans (.storeStep (s := { s with ancestry := some (rerooted d a) }) _ hin ?_) (ih htail ?_)
        · intro r hr hid q hq
          rw [h s List.mem_cons_self r hr hid, Option.some.injEq] at hq
          exact hq ▸ hp
        · -- the stored record lies in the project as well
          intro x hx r hr hid
          rw [rows_storeStep] at hr
          obtain ⟨r₀, hr₀, rfl⟩ := List.mem_map.mp hr
          split at hid
          · rw [if_pos ‹_›]
            exact hss s List.mem_cons_self
          · rw [if_neg ‹_›]
            exact h x (List.mem_cons_of_mem _ hx) r₀ hr₀ hid
      · rw [Option.getD_none]
        exact ih htail fun x hx => h x (List.mem_cons_of_mem _ hx)

theorem stepsOutside_beforeDestroy {S : Nat → Prop} {p : Nat} (hp : S p) (now : Nat) (d : Step)
    (db : Database) : StepsOutside S db (beforeDestroy now p d db).2 := by
  have hmem : ∀ s ∈ (db.projectSteps p).filter (·.id ≠ d.id), s ∈ db.projectSteps p :=
    fun s hs => List.mem_of_mem_filter hs
  unfold beforeDestroy
  split
  · refine stepsOutside_reroot hp now d (fun s hs => (mem_projectSteps.mp (hmem s hs)).2) ?_
    intro s hs r hr hid
    have hs' := mem_projectSteps.mp (hmem s hs)
    rw [Table.eq_of_key hr hs'.1 hid]
    exact hs'.2
  · exact .refl S db

theorem stepsOutside_renumber {S : Nat → Prop} {p : Nat} (hp : S p) (now n : Nat) (position : Int)
    (db : Database) : StepsOutside S db (renumber now p n position db) := by
  induction n generalizing db position with
  | zero => exact .refl S db
  | succ n ih =>
    refine .trans ?_ (ih _ _)
    unfold moveDown
    split
    · exact .refl S db
    · rename_i s hfind
      have hs := mem_projectSteps.mp (mem_orderedSteps.mp (List.mem_of_find?_eq_some hfind))
      have hin : ∀ q, s.projectId = some q → S q := by
        intro q hq
        rw [hs.2, Option.some.injEq] at hq
        exact hq ▸ hp
      refine .storeStep _ hin fun r hr hid q hq => ?_
      rw [Table.eq_of_key hr hs.1 hid] at hq
      exact hin q hq

theorem stepsOutside_afterDestroy {S : Nat → Prop} {project : Project} (hp : S project.id) (u : User)
    (now : Nat) (d : Step) (db : Database) : StepsOutside S db (afterDestroy u now project d db) := by
  have hloop : StepsOutside S db (closeGap now project.id d db) := by
    unfold closeGap
    split
    · exact stepsOutside_renumber hp now _ _ db
    · exact .refl S db
  exact hloop.trans (.of_eq (steps_afterDestroy u now project d db))

/-! ## Edits of others -/

theorem othersEdits_congr {db db' : Database} (h : db'.edits = db.edits) (q : Nat) :
    db'.othersEdits q u = db.othersEdits q u := by
  rw [othersEdits, h, othersEdits]

theorem othersEdits_createEdit (db : Database) (s p : Nat) (at_ : Option Nat) (temp : Option Bool) (q : Nat) :
    (createEdit db u.id s p at_ temp).othersEdits q u = db.othersEdits q u := by
  rw [othersEdits, createEdit, Table.rows_insert, List.filter_append, othersEdits,
    List.filter_cons_of_neg (by simp), List.filter_nil, List.append_nil]

/-- A create leaves the edits alone, or adds the one of its user and its step. -/
theorem edits_create (u : User) (now : Nat) (html : Bool) (p : Nat) (params : List StepAttr) (db : Database) :
    ((create u now html p params db).1 ≠ .ok ∧ (create u now html p params db).2.edits = db.edits) ∨
      ∃ project, db.projects.find? p = some project ∧ (create u now html p params db).1 = .ok ∧
        (create u now html p params db).2.edits =
          (createEdit db u.id db.steps.next project.id none none).edits := by
  rcases create_cases u now html p params db with ⟨hno, heq⟩ | ⟨project, s, hproject, hs, -, -, heq⟩
  · exact Or.inl ⟨hno, by rw [heq]⟩
  · have hid : s.id = db.steps.next := by
      obtain ⟨s₀, -, rfl⟩ := Option.map_eq_some_iff.mp hs
      rfl
    refine Or.inr ⟨project, hproject, by rw [heq], ?_⟩
    rw [heq, ← hid]
    dsimp only
    generalize createPosition db p (createParams db p params) = position
    unfold afterCreate
    dsimp only
    -- everything after the new edit leaves the edits alone
    have hmedia : ∀ db' : Database, (if html then claimMedia db' project.id s.id else db').edits = db'.edits := by
      intro db'
      split <;> rfl
    rw [hmedia, (touches_createQuestionActivity _ _ _ .edits (by decide) : _ = _),
      ((SameButSteps.updateStep _ _ _ _).touches .edits (by decide) : _ = _)]
    change ((_ : Database).setBuilt now project.id).edits = _
    rw [((SameRecords.setBuilt _ _ _).touches .edits (by decide) : _ = _),
      (touches_publish _ _ _ _ _ _ .edits (by decide) : _ = _)]
    have hbefore : (touchCollections (saveQuestion (insertStep db { s with position }) s.id
        (createParams db p params)) now project.id).edits = db.edits :=
      (touches_saveQuestion (insertStep db { s with position }) s.id (createParams db p params)) .edits (by decide)
    rw [createEdit, createEdit]
    dsimp only
    rw [hbefore]

theorem othersEdits_create (now : Nat) (html : Bool) (p : Nat) (params : List StepAttr) (q : Nat) :
    (create u now html p params db).2.othersEdits q u = db.othersEdits q u := by
  rcases edits_create u now html p params db with ⟨-, hsame⟩ | ⟨project, -, -, hadded⟩
  · exact othersEdits_congr hsame q
  · rw [othersEdits_congr hadded, othersEdits_createEdit]

theorem editOf_user {v s : Nat} {e : Edit} (h : db.editOf v s = some e) :
    e ∈ db.edits.rows ∧ e.userId = some v ∧ e.stepId = some s := by
  have hp := List.find?_some h
  rw [decide_eq_true_eq] at hp
  exact ⟨List.mem_of_find?_eq_some h, hp⟩

/-- A change to one edit, kept away from project `q` or to an edit of the user. -/
theorem othersEdits_modify {e : Edit} (he : e ∈ db.edits.rows) (f : Edit → Edit) (hf : ∀ e, (f e).id = e.id)
    {q : Nat} (h : (e.userId = some u.id ∧ (f e).userId = some u.id) ∨
      (e.projectId ≠ some q ∧ (f e).projectId ≠ some q)) :
    ({ db with edits := db.edits.modify e.id f hf } : Database).othersEdits q u = db.othersEdits q u := by
  rw [othersEdits, othersEdits, Table.rows_modify]
  have hall : ∀ l : List Edit, (∀ r ∈ l, r ∈ db.edits.rows) →
      (l.map fun r => if Keyed.key r = e.id then f r else r).filter
          (fun r => decide (r.projectId = some q ∧ r.userId ≠ some u.id)) =
        l.filter fun r => decide (r.projectId = some q ∧ r.userId ≠ some u.id) := by
    intro l
    induction l with
    | nil => exact fun _ => rfl
    | cons r l ih =>
      intro hl
      have hrest := ih fun x hx => hl x (List.mem_cons_of_mem _ hx)
      by_cases hid : Keyed.key r = e.id
      · have hre : r = e := Table.eq_of_key (hl r List.mem_cons_self) he hid
        subst hre
        rw [List.map_cons, if_pos hid, List.filter_cons_of_neg, List.filter_cons_of_neg, hrest]
        · rw [decide_eq_true_eq]
          rintro ⟨hp, hu⟩
          exact h.elim (fun h => hu h.1) fun h => h.1 hp
        · rw [decide_eq_true_eq]
          rintro ⟨hp, hu⟩
          exact h.elim (fun h => hu h.2) fun h => h.2 hp
      · rw [List.map_cons, if_neg hid, List.filter_cons, List.filter_cons, hrest]
  exact hall _ fun _ hr => hr

theorem edits_endEdit (u : User) (now : Nat) (project : Project) (s : Step) (e : Edit) (gone : Option Question)
    (db : Database) : (endEdit u now project s e gone db).edits = (clearEdit db e project.id).edits := by
  have hsettled := (touches_publish (clearEdit db e project.id) (project.isPublic || project.unpublished) now u.id
    project.id (some s.id)).trans (SameRecords.setBuilt _ now project.id).touches
  exact (hsettled.trans ((touches_announceQuestion _ u.id s.id gone).mono (by decide))) .edits (by decide)

/-- An update leaves the edits alone, or ends the one of its user for its step. -/
theorem edits_update (u : User) (now p : Nat) (id : Int) (params : List StepAttr) (db : Database) :
    ((update u now p id params db).1 ≠ .ok ∧ (update u now p id params db).2.edits = db.edits) ∨
      ∃ s e, findByPosition db p id = some s ∧ db.editOf u.id s.id = some e ∧
        (update u now p id params db).2.edits = (clearEdit db e p).edits := by
  have hbefore : ∀ s, (beforeUpdate now p s params db).edits = db.edits := fun s =>
    touches_beforeUpdate db now p s params .edits (by decide)
  have hstored : ∀ s s', ((beforeUpdate now p s params db).storeRow (some now) s').edits = db.edits := fun s s' =>
    ((SameButSteps.storeRow _ _ _).touches .edits (by decide)).trans (hbefore s)
  -- what comes before the edit is looked up
  have hsaved : ∀ s s', (relabel now s' params ((beforeUpdate now p s params db).storeRow (some now) s')).edits =
      db.edits := fun s s' => (touches_relabel _ now s' params .edits (by decide)).trans (hstored s s')
  -- the save looks up the edit of the user
  have hsave : ∀ project s s', db.projects.find? p = some project → findByPosition db p id = some s →
      StepAttr.assignAll (beforeUpdate now p s params db) s params = some s' →
      update u now p id params db = afterUpdate u now project s' params (emptiedQuestion db s.id params)
        ((beforeUpdate now p s params db).storeRow (some now) s') →
      ((update u now p id params db).1 ≠ .ok ∧ (update u now p id params db).2.edits = db.edits) ∨
        ∃ s e, findByPosition db p id = some s ∧ db.editOf u.id s.id = some e ∧
          (update u now p id params db).2.edits = (clearEdit db e p).edits := by
    intro project s s' hproject hs hassign heq
    have hp : project.id = p := (Table.find?_eq_some.mp hproject).2
    rw [heq]
    rcases afterUpdate_cases _ u now project s' params _ with ⟨-, hafter⟩ | ⟨e, he, hafter⟩
    · rw [hafter]
      exact Or.inl ⟨nofun, hsaved s s'⟩
    · rw [editOf, hstored, (StepAttr.assignAll_ids hassign).1, ← editOf] at he
      rw [hafter]
      refine Or.inr ⟨s, e, hs, he, ?_⟩
      dsimp only
      rw [edits_endEdit, clearEdit, clearEdit]
      dsimp only
      rw [hsaved, hp]
  by_cases hok : (update u now p id params db).1 = .ok
  · obtain ⟨project, s, s', hproject, hs, hassign, heq⟩ := update_ok hok
    exact hsave project s s' hproject hs hassign heq
  · rcases update_cases u now p id params db with heq | ⟨project, s, hproject, hs, -, heq | ⟨s', hassign, -, heq⟩⟩
    · exact Or.inl ⟨hok, by rw [heq]⟩
    · exact Or.inl ⟨hok, by rw [heq, hbefore]⟩
    · exact hsave project s s' hproject hs hassign heq

theorem othersEdits_update (now p : Nat) (id : Int) (params : List StepAttr) (q : Nat) :
    (update u now p id params db).2.othersEdits q u = db.othersEdits q u := by
  rcases edits_update u now p id params db with ⟨-, hsame⟩ | ⟨s, e, -, he, hcleared⟩
  · exact othersEdits_congr hsame q
  · obtain ⟨hmem, huser, -⟩ := editOf_user he
    rw [othersEdits_congr hcleared]
    exact othersEdits_modify hmem _ _ (Or.inl ⟨huser, huser⟩)

theorem edits_destroyDependents (db : Database) (s : Nat) :
    (db.destroyDependents s).edits = db.edits.filter (·.stepId ≠ some s) := by
  have himages : ∀ (l : List Image) (db : Database),
      (l.foldl (fun db m => db.destroyImage m.id) db).edits = db.edits := fun l db =>
    Touches.foldl (fun (db : Database) (m : Image) => touches_destroyImage db m.id) l db .edits (by decide)
  unfold destroyDependents
  dsimp only
  split
  · exact himages _ _
  · exact himages _ _

/-- The edits of the step go with it. -/
theorem edits_destroyed (u : User) (now p : Nat) (project : Project) (d : Step) (db : Database) :
    (afterDestroy u now project d ((forgetStep (beforeDestroy now p d db).2 d).destroyStep now d)).edits =
      db.edits.filter (·.stepId ≠ some d.id) := by
  have hbefore : (forgetStep (beforeDestroy now p d db).2 d).edits = db.edits :=
    Eq.trans (touches_forgetStep _ d .edits (by decide)) (touches_beforeDestroy db now p d .edits (by decide))
  generalize forgetStep (beforeDestroy now p d db).2 d = db₁ at hbefore
  have hdestroyed : (db₁.destroyStep now d).edits = db.edits.filter (·.stepId ≠ some d.id) := by
    rw [destroyStep]
    dsimp only
    rw [edits_destroyDependents, (touches_adoptChildren db₁ now d .edits (by decide) : _ = _), hbefore]
  rw [← hdestroyed]
  exact touches_afterDestroy _ u now project d .edits (by decide)

theorem othersEdits_resetStartedEditing {p user step : Nat} {q : Nat}
    (h : user = u.id ∨ ∀ e ∈ db.editOf user step, e.projectId ≠ some q) :
    (resetStartedEditing p user step db).2.othersEdits q u = db.othersEdits q u := by
  unfold resetStartedEditing
  split
  · rfl
  · split
    · rfl
    · rename_i e he
      obtain ⟨hmem, huser, -⟩ := editOf_user he
      have hside : (e.userId = some u.id) ∨ e.projectId ≠ some q :=
        h.imp (fun (h : user = u.id) => h ▸ huser) fun h => h e he
      split
      · rw [othersEdits, Table.rows_filter, List.filter_filter, othersEdits]
        apply List.filter_congr
        intro r hr
        by_cases hid : r.id = e.id
        · have hre : r = e := Table.eq_of_key hr hmem hid
          subst hre
          have hout : ¬ (r.projectId = some q ∧ r.userId ≠ some u.id) := fun hc =>
            hside.elim (fun h => hc.2 h) fun h => h hc.1
          simp only [hout, decide_false, Bool.false_and]
        · simp [hid]
      · exact othersEdits_modify hmem _ _ (hside.imp (fun h => ⟨h, h⟩) fun h => ⟨h, h⟩)

end StepsController
