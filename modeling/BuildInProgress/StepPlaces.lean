import BuildInProgress.StepAuthorization

/-!
# Where the steps of a project are

A step is addressed by its position, and the position is written by more actions than the one that
edits the step.  This module says how each action moves the steps: which rows keep their place, and
where the others go.
-/

open Text Ancestry

/-- What a URL and the controllers know of the place of a step. -/
def Step.place (s : Step) : Nat × Option Nat × Int := (s.id, s.projectId, s.position)

namespace Database

/-- The same steps in the same projects and places. -/
def SamePlaces (db db' : Database) : Prop :=
  db'.steps.rows.map Step.place = db.steps.rows.map Step.place

namespace SamePlaces

variable {db db' db'' : Database}

theorem refl (db : Database) : SamePlaces db db := rfl

theorem trans (h : SamePlaces db db') (h' : SamePlaces db' db'') : SamePlaces db db'' := Eq.trans h' h

theorem of_eq (h : db'.steps = db.steps) : SamePlaces db db' := by rw [SamePlaces, h]

theorem of_map {f : Step → Step} (hrows : db'.steps.rows = db.steps.rows.map f)
    (h : ∀ s ∈ db.steps.rows, (f s).place = s.place) : SamePlaces db db' := by
  rw [SamePlaces, hrows, List.map_map]
  exact List.map_congr_left h

theorem storeStep (stamp : Option Nat) {s : Step} (h : ∀ r ∈ db.steps.rows, r.id = s.id → s.place = r.place) :
    SamePlaces db (db.storeStep stamp s) := by
  refine of_map (db.rows_storeStep stamp s) fun r hr => ?_
  by_cases hid : r.id = s.id
  · rw [if_pos hid]
    exact h r hr hid
  · rw [if_neg hid]

theorem exists_row (h : SamePlaces db db') {t' : Step} (ht : t' ∈ db'.steps.rows) :
    ∃ t ∈ db.steps.rows, t.place = t'.place := by
  have hmem : t'.place ∈ db.steps.rows.map Step.place := h ▸ List.mem_map_of_mem ht
  obtain ⟨t, ht, heq⟩ := List.mem_map.mp hmem
  exact ⟨t, ht, heq⟩

theorem exists_step (h : SamePlaces db db') {t' : Step} (ht : t' ∈ db'.steps.rows) :
    ∃ t ∈ db.steps.rows, t.id = t'.id ∧ t.projectId = t'.projectId ∧ t'.position = t.position := by
  obtain ⟨t, ht, hplace⟩ := h.exists_row ht
  rw [Step.place, Step.place, Prod.mk.injEq, Prod.mk.injEq] at hplace
  exact ⟨t, ht, hplace.1, hplace.2.1, hplace.2.2.symm⟩

theorem length_filter (h : SamePlaces db db') (p : Nat × Option Nat × Int → Bool) :
    (db'.steps.rows.filter fun s => p s.place).length = (db.steps.rows.filter fun s => p s.place).length := by
  have hboth : ∀ l : List Step, (l.filter fun s => p s.place).length = (l.map Step.place).countP p := by
    intro l
    rw [List.countP_map, List.countP_eq_length_filter]
    rfl
  rw [hboth, hboth, h]

end SamePlaces

end Database

namespace StepsController

open Database

/-! ## Destroying a step -/

theorem samePlaces_reroot (now : Nat) (d : Step) {ss : List Step} {db : Database}
    (h : ∀ s ∈ ss, ∀ r ∈ db.steps.rows, r.id = s.id → s.place = r.place) :
    SamePlaces db (reroot now d ss db).2 := by
  induction ss generalizing db with
  | nil => exact .refl db
  | cons s ss ih =>
    have htail : ∀ x ∈ ss, ∀ r ∈ db.steps.rows, r.id = x.id → x.place = r.place := fun x hx =>
      h x (List.mem_cons_of_mem _ hx)
    unfold reroot
    cases s.ancestry with
    | none => exact .refl db
    | some a =>
      dsimp only
      rw [saveStep]
      split
      · rw [Option.getD_some]
        have hstore : SamePlaces db (db.storeStep (some now) { s with ancestry := some (rerooted d a) }) :=
          .storeStep _ (h s List.mem_cons_self)
        refine hstore.trans (ih fun x hx r' hr' hid => ?_)
        obtain ⟨r, hr, hplace⟩ := hstore.exists_row hr'
        have hrid : r.id = r'.id := congrArg Prod.fst hplace
        rw [← hplace]
        exact htail x hx r hr (hrid.trans hid)
      · exact ih htail

theorem samePlaces_beforeDestroy (now p : Nat) (d : Step) (db : Database) :
    SamePlaces db (beforeDestroy now p d db).2 := by
  unfold beforeDestroy
  split
  · refine samePlaces_reroot now d fun s hs r hr hid => ?_
    have hs' := (mem_projectSteps.mp (List.mem_of_mem_filter hs)).1
    rw [Table.eq_of_key hr hs' hid]
  · exact .refl db

theorem samePlaces_adoptChildren (now p : Nat) (d : Step) (db : Database) :
    SamePlaces db ((forgetStep (beforeDestroy now p d db).2 d).adoptChildren now d) := by
  refine (samePlaces_beforeDestroy now p d db).trans (.trans (.of_eq (steps_forgetStep _ d)) ?_)
  refine .of_map (rows_adoptChildren _ now d) fun s _ => ?_
  unfold adopted
  split <;> rfl

theorem rows_destroyStep_adoptChildren (db : Database) (now : Nat) (d : Step) :
    (db.destroyStep now d).steps.rows = (db.adoptChildren now d).steps.rows.filter (·.id ≠ d.id) := by
  rw [destroyStep]
  dsimp only
  rw [Table.rows_filter, steps_destroyDependents]

/-- The loop moves a step down by one, or not at all. -/
theorem place_renumber (now p n : Nat) (start : Int) (db : Database) {t' : Step}
    (ht : t' ∈ (renumber now p n start db).steps.rows) :
    ∃ t ∈ db.steps.rows, t.id = t'.id ∧ t.projectId = t'.projectId ∧
      (t'.position = t.position ∨ t.projectId = some p ∧ start ≤ t.position ∧ t.position < start + n ∧
        t'.position = t.position - 1) := by
  induction n generalizing start db with
  | zero => exact ⟨t', ht, rfl, rfl, Or.inl rfl⟩
  | succ n ih =>
    obtain ⟨t₁, ht₁, hid₁, hproj₁, hpos₁⟩ := ih (start + 1) (moveDown now p start db) ht
    -- the iteration at `start` itself
    have hone : ∃ t ∈ db.steps.rows, t.id = t₁.id ∧ t.projectId = t₁.projectId ∧
        (t₁.position = t.position ∨ t.projectId = some p ∧ t.position = start ∧
          t₁.position = start - 1) := by
      unfold moveDown at ht₁
      split at ht₁
      · exact ⟨t₁, ht₁, rfl, rfl, Or.inl rfl⟩
      · rename_i s hfind
        have hs := mem_projectSteps.mp (mem_orderedSteps.mp (List.mem_of_find?_eq_some hfind))
        have hstart : s.position = start := by simpa using List.find?_some hfind
        rw [rows_storeStep] at ht₁
        obtain ⟨r, hr, rfl⟩ := List.mem_map.mp ht₁
        by_cases hrs : r.id = s.id
        · rw [if_pos hrs]
          exact ⟨s, hs.1, rfl, rfl, Or.inr ⟨hs.2, hstart, rfl⟩⟩
        · rw [if_neg hrs]
          exact ⟨r, hr, rfl, rfl, Or.inl rfl⟩
    obtain ⟨t, ht, hid, hproj, hpos⟩ := hone
    refine ⟨t, ht, hid.trans hid₁, hproj.trans hproj₁, ?_⟩
    rcases hpos with hpos | ⟨hp, hpos, hmoved⟩
    · rcases hpos₁ with hpos₁ | ⟨hp₁, hlow, hhigh, hmoved⟩
      · exact Or.inl (hpos₁.trans hpos)
      · exact Or.inr ⟨hproj.trans hp₁, by omega, by push_cast; omega, by omega⟩
    · -- a step that moved below `start` is not met again
      rcases hpos₁ with hpos₁ | ⟨-, hlow, -, -⟩
      · exact Or.inr ⟨hp, by omega, by push_cast; omega, by omega⟩
      · omega

theorem place_afterDestroy (u : User) (now : Nat) (project : Project) (d : Step) (db : Database) {t' : Step}
    (ht : t' ∈ (afterDestroy u now project d db).steps.rows) :
    ∃ t ∈ db.steps.rows, t.id = t'.id ∧ t.projectId = t'.projectId ∧
      (t'.position = t.position ∨ t.projectId = some project.id ∧ d.position < t.position ∧
        t.position ≤ (db.projectSteps project.id).length ∧ t'.position = t.position - 1) := by
  rw [steps_afterDestroy] at ht
  unfold closeGap at ht
  split at ht
  · obtain ⟨t, ht, hid, hproj, hpos⟩ := place_renumber now project.id _ _ db ht
    refine ⟨t, ht, hid, hproj, ?_⟩
    rcases hpos with hpos | ⟨hp, hlow, hhigh, hmoved⟩
    · exact Or.inl hpos
    · exact Or.inr ⟨hp, by omega, by omega, hmoved⟩
  · exact ⟨t', ht, rfl, rfl, Or.inl rfl⟩

/-- After `destroy` every step is where it was, or one place lower, when it stood behind the step that
is gone and the loop reached it. -/
theorem place_destroy (u : User) (now p : Nat) (key : StepKey) (db : Database) {t' : Step}
    (ht : t' ∈ (destroy u now p key db).2.steps.rows) :
    ∃ t ∈ db.steps.rows, t.id = t'.id ∧ t.projectId = t'.projectId ∧
      (t'.position = t.position ∨
        ∃ d, db.findStep key = some d ∧ Ability.destroyStep db u d = some true ∧ rootGuard db p d = false ∧
          (beforeDestroy now p d db).1 = true ∧ t.id ≠ d.id ∧ t.projectId = some p ∧
          d.position < t.position ∧ t.position ≤ ((db.projectSteps p).filter (·.id ≠ d.id)).length ∧
          t'.position = t.position - 1) := by
  rcases destroy_cases u now p key db with
    heq | ⟨project, d, hproject, hstep, hauth, hguard, ⟨-, heq⟩ | ⟨hdone, heq⟩⟩
  · rw [heq] at ht
    exact ⟨t', ht, rfl, rfl, Or.inl rfl⟩
  · rw [heq] at ht
    obtain ⟨t, ht, hid, hproj, hpos⟩ := (samePlaces_beforeDestroy now p d db).exists_step ht
    exact ⟨t, ht, hid, hproj, Or.inl hpos⟩
  · have hp : project.id = p := (Table.find?_eq_some.mp hproject).2
    rw [heq] at ht
    have hbefore := samePlaces_adoptChildren now p d db
    generalize hadopt : (forgetStep (beforeDestroy now p d db).2 d).adoptChildren now d = db₁ at hbefore
    generalize hgone : (forgetStep (beforeDestroy now p d db).2 d).destroyStep now d = db₂ at ht
    have hrows : db₂.steps.rows = db₁.steps.rows.filter (·.id ≠ d.id) := by
      rw [← hgone, ← hadopt]
      exact rows_destroyStep_adoptChildren _ now d
    -- the loop counts the steps of the project without the one that is gone
    have hcount : (db₂.projectSteps p).length = ((db.projectSteps p).filter (·.id ≠ d.id)).length := by
      rw [projectSteps, hrows, List.filter_filter, projectSteps, List.filter_filter]
      have hlength := hbefore.length_filter fun x => decide (x.2.1 = some p) && decide (x.1 ≠ d.id)
      refine hlength.trans (congrArg List.length (List.filter_congr fun s _ => ?_))
      exact Bool.and_comm _ _
    obtain ⟨t₂, ht₂, hid₂, hproj₂, hpos₂⟩ := place_afterDestroy u now project d db₂ ht
    rw [hp, hcount] at hpos₂
    rw [hrows, List.mem_filter, decide_eq_true_eq] at ht₂
    obtain ⟨t, ht, hid, hproj, hpos⟩ := hbefore.exists_step ht₂.1
    refine ⟨t, ht, hid.trans hid₂, hproj.trans hproj₂, ?_⟩
    rcases hpos₂ with hpos₂ | ⟨hurl, hlow, hhigh, hmoved⟩
    · exact Or.inl (hpos₂.trans hpos)
    · refine Or.inr ⟨d, hstep, hauth, hguard, hdone, fun e => ht₂.2 (hid.symm.trans e), hproj.trans hurl, ?_⟩
      omega

/-! ## The other actions -/

theorem samePlaces_afterCreate (u : User) (now : Nat) (html : Bool) (project : Project) (s : Step)
    (params : List StepAttr) (db : Database) :
    SamePlaces db (afterCreate u now html project s params db) := by
  refine .of_map (rows_afterCreate u now html project s params db) fun r _ => ?_
  unfold Step.updated
  split
  · split <;> rfl
  · rfl

/-- `create` leaves the steps where they are and puts its own at the position it has computed. -/
theorem place_create (u : User) (now : Nat) (html : Bool) (p : Nat) (params : List StepAttr) (db : Database)
    {t' : Step} (ht : t' ∈ (create u now html p params db).2.steps.rows) :
    (∃ t ∈ db.steps.rows, t.id = t'.id ∧ t.projectId = t'.projectId ∧ t'.position = t.position) ∨
      ((create u now html p params db).1 = .ok ∧ t'.id = db.steps.next ∧ t'.projectId = some p ∧
        t'.position = createPosition db p (createParams db p params)) := by
  rcases create_cases u now html p params db with ⟨-, heq⟩ | ⟨project, s, -, hbuild, -, -, heq⟩
  · rw [heq] at ht
    exact Or.inl ⟨t', ht, rfl, rfl, rfl⟩
  · obtain ⟨hproj, hid⟩ := buildStep_ids hbuild
    rw [heq] at ht ⊢
    dsimp only at ht ⊢
    obtain ⟨t, ht, hid', hproj', hpos⟩ := (samePlaces_afterCreate _ _ _ _ _ _ _).exists_step ht
    rw [insertStep, Table.rows_insert, List.mem_append, List.mem_singleton] at ht
    rcases ht with ht | rfl
    · exact Or.inl ⟨t, ht, hid', hproj', hpos⟩
    · exact Or.inr ⟨rfl, hid'.symm, hproj'.symm.trans hproj, hpos⟩

/-- `sort` puts a step behind the index of its last mention. -/
theorem place_sortFrom (index : Nat) (ids : List Nat) (db : Database) {t' : Step}
    (ht : t' ∈ (sortFrom index ids db).steps.rows) :
    ∃ t ∈ db.steps.rows, t.id = t'.id ∧ t.projectId = t'.projectId ∧
      (t.id ∉ ids ∧ t'.position = t.position ∨ ∃ j : Nat, ids[j]? = some t.id ∧ t.id ∉ ids.drop (j + 1) ∧
        t'.position = index + j + 1) := by
  induction ids generalizing index db with
  | nil => exact ⟨t', ht, rfl, rfl, Or.inl ⟨List.not_mem_nil, rfl⟩⟩
  | cons i ids ih =>
    obtain ⟨t₁, ht₁, hid₁, hproj₁, hpos₁⟩ := ih (index + 1) _ ht
    obtain ⟨t, ht, rfl⟩ := List.mem_map.mp ht₁
    have hrow : (if Keyed.key t = i then { t with position := (index : Int) + 1 } else t).id = t.id ∧
        (if Keyed.key t = i then { t with position := (index : Int) + 1 } else t).projectId = t.projectId := by
      split <;> exact ⟨rfl, rfl⟩
    rw [hrow.1] at hid₁ hpos₁
    rw [hrow.2] at hproj₁
    refine ⟨t, ht, hid₁, hproj₁, ?_⟩
    rcases hpos₁ with ⟨hnot, hpos⟩ | ⟨j, hj, hlast, hpos⟩
    · by_cases hi : t.id = i
      · rw [if_pos (show Keyed.key t = i from hi)] at hpos
        exact Or.inr ⟨0, by rw [hi]; rfl, hnot, by simpa using hpos⟩
      · rw [if_neg (show ¬ Keyed.key t = i from hi)] at hpos
        exact Or.inl ⟨fun hm => hnot ((List.mem_cons.mp hm).resolve_left hi), hpos⟩
    · exact Or.inr ⟨j + 1, hj, hlast, by push_cast at hpos ⊢; omega⟩

theorem place_sort (p : Nat) (ids : List Nat) (db : Database) {t' : Step}
    (ht : t' ∈ (sort p ids db).2.steps.rows) :
    ∃ t ∈ db.steps.rows, t.id = t'.id ∧ t.projectId = t'.projectId ∧
      (t'.position = t.position ∨ (db.projects.find? p).isSome = true ∧ ∃ j : Nat, ids[j]? = some t.id ∧
        t.id ∉ ids.drop (j + 1) ∧ t'.position = j + 1) := by
  unfold sort at ht
  split at ht
  · exact ⟨t', ht, rfl, rfl, Or.inl rfl⟩
  · rename_i hproject
    obtain ⟨t, ht, hid, hproj, hpos⟩ := place_sortFrom 0 ids db ht
    refine ⟨t, ht, hid, hproj, ?_⟩
    rcases hpos with ⟨-, hpos⟩ | ⟨j, hj, hlast, hpos⟩
    · exact Or.inl hpos
    · exact Or.inr ⟨by rw [hproject]; rfl, j, hj, hlast, by simpa using hpos⟩

/-- `update_ancestry` puts a step where one of its entries says. -/
theorem place_updateAncestry (p : Nat) (entries : List MapEntry) (db : Database) {t' : Step}
    (ht : t' ∈ (updateAncestry p entries db).2.steps.rows) :
    ∃ t ∈ db.steps.rows, t.id = t'.id ∧ t.projectId = t'.projectId ∧
      (t'.position = t.position ∨ (db.projects.find? p).isSome = true ∧ ∃ e ∈ entries,
        t.id = (toI e.key).toNat ∧ t'.position = e.position) := by
  unfold updateAncestry at ht
  split at ht
  · exact ⟨t', ht, rfl, rfl, Or.inl rfl⟩
  · rename_i hproject
    rw [rows_foldl_updateEntry] at ht
    obtain ⟨t, hrow, rfl⟩ := List.mem_map.mp ht
    refine ⟨t, hrow, (foldl_remapped_id _ _).symm, (foldl_remapped_projectId _ _).symm, ?_⟩
    rcases position_foldl_remapped entries t with hpos | ⟨e, he, hid, hpos⟩
    · exact Or.inl hpos
    · exact Or.inr ⟨by rw [hproject]; rfl, e, he, hid, hpos⟩

end StepsController
