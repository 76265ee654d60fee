import BuildInProgress.StepMap

/-!
# What the actions do to the step rows

One description for each action of `StepsController` that writes steps: the rows after the action as
a map over the rows before it.  The bookkeeping around a save (questions, edits, collections,
activities, publication) touches no step.
-/

open Text Ancestry

namespace Database

/-- Storing rows of the table one after the other, each as `g` changes it. -/
theorem rows_foldl_storeStep (stamp : Option Nat) {g : Step → Step} (hg : ∀ s, (g s).id = s.id)
    (l : List Step) (db : Database) (hn : (l.map Step.id).Nodup) (hl : ∀ s ∈ l, s ∈ db.steps.rows) :
    (l.foldl (fun db s => db.storeStep stamp (g s)) db).steps.rows =
      db.steps.rows.map fun s => if s ∈ l then (g s).stamped stamp else s := by
  induction l generalizing db with
  | nil => simp
  | cons x l ih =>
    rw [List.map_cons, List.nodup_cons] at hn
    have hx : x ∈ db.steps.rows := hl x List.mem_cons_self
    have hne : ∀ s ∈ l, s.id ≠ x.id := fun s hs h => hn.1 (h ▸ List.mem_map_of_mem hs)
    have hrows := db.rows_storeStep stamp (g x)
    have hkeep : ∀ s ∈ l, s ∈ (db.storeStep stamp (g x)).steps.rows := by
      intro s hs
      rw [hrows]
      exact List.mem_map.mpr ⟨s, hl s (List.mem_cons_of_mem _ hs), if_neg (by rw [hg]; exact hne s hs)⟩
    rw [List.foldl_cons, ih _ hn.2 hkeep, hrows, List.map_map]
    apply List.map_congr_left
    intro s hs
    by_cases h : s.id = x.id
    · -- the row just stored, which is not stored again
      have hsx : s = x := Table.eq_of_key hs hx h
      subst hsx
      have hnot : (g s).stamped stamp ∉ l := fun hm => hne _ hm (hg s)
      rw [Function.comp, if_pos (hg s).symm, if_neg hnot, if_pos List.mem_cons_self]
    · have hrow : (if s.id = (g x).id then (g x).stamped stamp else s) = s :=
        if_neg (by rw [hg]; exact h)
      have hiff : s ∈ x :: l ↔ s ∈ l := by
        rw [List.mem_cons]
        exact ⟨fun hm => hm.resolve_left fun e => h (e ▸ rfl), Or.inr⟩
      rw [Function.comp, hrow]
      by_cases hm : s ∈ l
      · rw [if_pos hm, if_pos (hiff.mpr hm)]
      · rw [if_neg hm, if_neg fun h' => hm (hiff.mp h')]

/-- A record is saved over a row that has the same value of `g`. -/
theorem map_storeStep {β : Type} {g : Step → β} (hg : ∀ s q t, g { s with position := q, updatedAt := t } = g s)
    {db : Database} {s : Step} (stamp : Option Nat) (h : ∀ r ∈ db.steps.rows, r.id = s.id → g r = g s) :
    (db.storeStep stamp s).steps.rows.map g = db.steps.rows.map g := by
  rw [rows_storeStep, List.map_map]
  apply List.map_congr_left
  intro r hr
  rw [Function.comp]
  by_cases hid : r.id = s.id
  · rw [if_pos hid, h r hr hid]
    exact hg s s.position _
  · rw [if_neg hid]

/-- A row after the destruction of the step `d`, if it is not the row of `d`. -/
def adopted (now : Nat) (d s : Step) : Step :=
  if d.isDescendant s then
    { s with ancestry := some (adopt d.id s.ancestry), updatedAt := now }
  else s

theorem rows_adoptChildren (db : Database) (now : Nat) (d : Step) :
    (db.adoptChildren now d).steps.rows = db.steps.rows.map (adopted now d) := by
  have hrows := rows_foldl_storeStep (some now)
    (g := fun s => { s with ancestry := some (adopt d.id s.ancestry) }) (fun _ => rfl)
    (db.steps.rows.filter d.isDescendant) db
    (db.steps.nodup.sublist (List.filter_sublist.map _)) (fun s hs => List.mem_of_mem_filter hs)
  rw [adoptChildren, hrows]
  apply List.map_congr_left
  intro s hs
  rw [adopted]
  by_cases h : d.isDescendant s = true
  · rw [if_pos (List.mem_filter.mpr ⟨hs, h⟩), if_pos h]
    rfl
  · rw [if_neg fun hm => h (List.mem_filter.mp hm).2, if_neg h]

@[simp] theorem steps_destroyImage (db : Database) (i : Nat) :
    (db.destroyImage i).steps = db.steps := by
  have h : ∀ (l : List Nat) (db : Database), (l.foldl destroyImageVideo db).steps = db.steps := by
    intro l
    induction l with
    | nil => intro db; rfl
    | cons j l ih =>
      intro db
      rw [List.foldl_cons, ih, destroyImageVideo]
      split <;> rfl
  exact h _ db

@[simp] theorem steps_destroyDependents (db : Database) (i : Nat) :
    (db.destroyDependents i).steps = db.steps := by
  have h : ∀ (l : List Image) (db : Database),
      (l.foldl (fun db m => db.destroyImage m.id) db).steps = db.steps := by
    intro l
    induction l with
    | nil => intro db; rfl
    | cons m l ih =>
      intro db
      rw [List.foldl_cons, ih, steps_destroyImage]
  unfold destroyDependents
  dsimp only
  split
  · exact h _ _
  · exact h _ _

theorem rows_destroyStep (db : Database) (now : Nat) (d : Step) :
    (db.destroyStep now d).steps.rows =
      (db.steps.rows.map (adopted now d)).filter (·.id ≠ d.id) := by
  rw [destroyStep]
  dsimp only
  rw [Table.rows_filter, steps_destroyDependents, rows_adoptChildren]

/-- The step actions publish a project only for some privacies. -/
theorem steps_publish (db : Database) (gate : Bool) (now u i : Nat) (step : Option Nat) :
    (if gate then db.setPublished now u i step else db).steps = db.steps := by
  split
  · exact (SameRecords.setPublished _ _ _ _ _).steps
  · rfl

end Database

namespace StepsController

/-! ## Closing the gap in the positions -/

/-- Closing the gap changes positions and times only. -/
theorem map_renumber {β : Type} {g : Step → β} (hg : ∀ s q t, g { s with position := q, updatedAt := t } = g s)
    (now p n : Nat) (start : Int) (db : Database) :
    (renumber now p n start db).steps.rows.map g = db.steps.rows.map g := by
  induction n generalizing start db with
  | zero => rfl
  | succ n ih =>
    rw [renumber, ih]
    unfold moveDown
    split
    · rfl
    · rename_i s hfind
      have hs := (Database.mem_projectSteps.mp (Database.mem_orderedSteps.mp (List.mem_of_find?_eq_some hfind))).1
      refine Database.map_storeStep hg (some now) fun r hr hid => ?_
      rw [Table.eq_of_key hr hs hid]
      exact (hg s _ s.updatedAt).symm

/-- A row after the positions `start, …, start + n - 1` of the project have moved down by one. -/
def shifted (now p : Nat) (start : Int) (n : Nat) (s : Step) : Step :=
  if s.projectId = some p ∧ start ≤ s.position ∧ s.position < start + n then
    { s with position := s.position - 1, updatedAt := now }
  else s

theorem shifted_id (now p : Nat) (start : Int) (n : Nat) (s : Step) :
    (shifted now p start n s).id = s.id := by
  unfold shifted
  split <;> rfl

theorem shifted_projectId (now p : Nat) (start : Int) (n : Nat) (s : Step) :
    (shifted now p start n s).projectId = s.projectId := by
  unfold shifted
  split <;> rfl

theorem shifted_name (now p : Nat) (start : Int) (n : Nat) (s : Step) :
    (shifted now p start n s).name = s.name := by
  unfold shifted
  split <;> rfl

theorem shifted_ancestry (now p : Nat) (start : Int) (n : Nat) (s : Step) :
    (shifted now p start n s).ancestry = s.ancestry := by
  unfold shifted
  split <;> rfl

/-- One iteration of the loop. -/
theorem rows_moveDown (now p : Nat) (start : Int) (db : Database)
    (hn : ((db.projectSteps p).map Step.position).Nodup) :
    (moveDown now p start db).steps.rows = db.steps.rows.map (shifted now p start 1) := by
  have hshift : ∀ s, shifted now p start 1 s =
      if s.projectId = some p ∧ s.position = start then
        { s with position := s.position - 1, updatedAt := now } else s := by
    intro s
    rw [shifted]
    congr 1
    rw [eq_iff_iff]
    refine and_congr_right fun _ => ⟨fun h => ?_, fun h => ?_⟩ <;> push_cast at * <;> omega
  rw [moveDown]
  cases hf : (db.orderedSteps p).find? (·.position = start) with
  | none =>
    symm
    apply List.map_eq_self_of_forall
    intro s hs
    rw [hshift, if_neg]
    rintro ⟨hp, hpos⟩
    have hmem := Database.mem_orderedSteps.mpr (Database.mem_projectSteps.mpr ⟨hs, hp⟩)
    have hnone := List.find?_eq_none.mp hf s hmem
    simp [hpos] at hnone
  | some t =>
    have ht := Database.mem_orderedSteps.mp (List.mem_of_find?_eq_some hf)
    have htp : t.position = start := by simpa using List.find?_some hf
    obtain ⟨htrow, htproj⟩ := Database.mem_projectSteps.mp ht
    dsimp only
    rw [Database.rows_storeStep]
    apply List.map_congr_left
    intro s hs
    rw [hshift]
    by_cases h : s.id = t.id
    -- only the step that was found has the position
    · have hst : s = t := Table.eq_of_key hs htrow h
      subst hst
      rw [if_pos rfl, if_pos ⟨htproj, htp⟩, htp]
      rfl
    · have hnot : ¬ (s.projectId = some p ∧ s.position = start) := by
        rintro ⟨hp, hpos⟩
        have hmem := Database.mem_projectSteps.mpr ⟨hs, hp⟩
        exact h (congrArg Step.id (List.inj_on_of_nodup_map hn hmem ht (hpos.trans htp.symm)))
      rw [if_neg hnot]
      exact if_neg h

theorem shifted_of_ne {now p : Nat} {start : Int} {n : Nat} {s : Step} (h : s.projectId ≠ some p) :
    shifted now p start n s = s := if_neg fun hc => h hc.1

theorem position_shifted {now p : Nat} {start : Int} {n : Nat} {s : Step} (h : s.projectId = some p) :
    (shifted now p start n s).position =
      if start ≤ s.position ∧ s.position < start + n then s.position - 1 else s.position := by
  unfold shifted
  by_cases hc : start ≤ s.position ∧ s.position < start + n
  · rw [if_pos ⟨h, hc⟩, if_pos hc]
  · rw [if_neg fun h' => hc h'.2, if_neg hc]

/-- Moving one position down and then the ones above it is moving them all. -/
theorem shifted_shifted (now p : Nat) (start : Int) (n : Nat) (s : Step) :
    shifted now p (start + 1) n (shifted now p start 1 s) = shifted now p start (n + 1) s := by
  by_cases hp : s.projectId = some p
  · by_cases h : s.position = start
    · have hone : shifted now p start 1 s = { s with position := s.position - 1, updatedAt := now } :=
        if_pos ⟨hp, by omega, by push_cast; omega⟩
      have hall : shifted now p start (n + 1) s =
          { s with position := s.position - 1, updatedAt := now } :=
        if_pos ⟨hp, by omega, by push_cast; omega⟩
      rw [hone, hall, shifted]
      exact if_neg fun hc => by
        have h2 := hc.2.1
        dsimp only at h2
        omega
    · have hone : shifted now p start 1 s = s := if_neg fun hc => by
        have h1 := hc.2.1
        have h2 := hc.2.2
        push_cast at h2
        omega
      rw [hone, shifted, shifted]
      have hiff : (s.projectId = some p ∧ start + 1 ≤ s.position ∧ s.position < start + 1 + n) ↔
          s.projectId = some p ∧ start ≤ s.position ∧ s.position < start + (n + 1 : Nat) := by
        refine and_congr_right fun _ => ⟨fun hc => ?_, fun hc => ?_⟩ <;> push_cast at * <;> omega
      by_cases hc : s.projectId = some p ∧ start + 1 ≤ s.position ∧ s.position < start + 1 + n
      · rw [if_pos hc, if_pos (hiff.mp hc)]
      · rw [if_neg hc, if_neg fun h' => hc (hiff.mpr h')]
  · rw [shifted_of_ne hp, shifted_of_ne hp, shifted_of_ne hp]

/-- A table whose step rows are shifted has the steps of the project shifted. -/
theorem projectSteps_of_shifted {db db' : Database} {now p : Nat} {start : Int} {n : Nat}
    (h : db'.steps.rows = db.steps.rows.map (shifted now p start n)) :
    db'.projectSteps p = (db.projectSteps p).map (shifted now p start n) := by
  rw [Database.projectSteps, h, List.filter_map, Database.projectSteps]
  congr 1
  apply List.filter_congr
  intro s _
  simp [shifted_projectId]

/-- The loop moves every position from `start` on down by one, when `start - 1` is free. -/
theorem rows_renumber (now p n : Nat) (start : Int) (db : Database)
    (hn : ((db.projectSteps p).map Step.position).Nodup)
    (hfree : ∀ s ∈ db.projectSteps p, s.position ≠ start - 1) :
    (renumber now p n start db).steps.rows = db.steps.rows.map (shifted now p start n) := by
  induction n generalizing start db with
  | zero =>
    symm
    apply List.map_eq_self_of_forall
    intro s _
    exact if_neg fun hc => by
      have h1 := hc.2.1
      have h2 := hc.2.2
      push_cast at h2
      omega
  | succ n ih =>
    rw [renumber]
    have hstep := rows_moveDown now p start db hn
    have hsteps := projectSteps_of_shifted hstep
    rw [ih (start + 1), hstep, List.map_map]
    · apply List.map_congr_left
      intro s _
      exact shifted_shifted now p start n s
    · -- positions stay distinct: the one that moves goes to a free place
      rw [hsteps, List.map_map]
      apply List.Nodup.map_on _ (List.Nodup.of_map _ hn)
      intro s hs t ht heq
      have hpos : s.position = t.position := by
        rw [Function.comp, Function.comp,
          position_shifted (Database.mem_projectSteps.mp hs).2,
          position_shifted (Database.mem_projectSteps.mp ht).2] at heq
        have h1 := hfree s hs
        have h2 := hfree t ht
        push_cast at heq
        split at heq <;> split at heq <;> omega
      exact List.inj_on_of_nodup_map hn hs ht hpos
    -- the place before the next one is free again: its step has just moved
    · intro s hs heq
      rw [hsteps] at hs
      obtain ⟨t, ht, rfl⟩ := List.mem_map.mp hs
      rw [position_shifted (Database.mem_projectSteps.mp ht).2] at heq
      push_cast at heq
      split at heq <;> omega

/-! ## Creating a step -/

theorem steps_saveDecision (db : Database) (q : Nat) (decision : Option Text) :
    (saveDecision db q decision).steps = db.steps := by
  unfold saveDecision
  split
  · rfl
  · split <;> rfl

@[simp] theorem steps_saveQuestion (db : Database) (i : Nat) (params : List StepAttr) :
    (saveQuestion db i params).steps = db.steps := by
  unfold saveQuestion
  split
  · rfl
  · split
    · rfl
    · split
      · rw [steps_saveDecision]
      · rfl

theorem SameRecords.createQuestionActivity (db : Database) (u i : Nat) :
    Database.SameRecords db (createQuestionActivity db u i) := by
  unfold StepsController.createQuestionActivity
  split
  · exact Database.SameRecords.refl db
  · exact Database.SameRecords.createActivity _ _ _ _ _ _

theorem rows_afterCreate (u : User) (now : Nat) (html : Bool) (project : Project) (s : Step)
    (params : List StepAttr) (db : Database) :
    (afterCreate u now html project s params db).steps.rows =
      db.steps.rows.map fun r =>
        if r.id = s.id then
          r.updated (some now) fun s => { s with publishedOn := some s.createdAt }
        else r := by
  have hmedia : ∀ db : Database,
      (if html then claimMedia db project.id s.id else db).steps = db.steps := by
    intro db
    split <;> rfl
  unfold afterCreate
  dsimp only
  rw [hmedia, (SameRecords.createQuestionActivity _ _ _).steps,
    Database.rows_updateStep _ _ _ (by intro _; rfl), (Database.SameRecords.touchProject _ _ _).steps,
    (Database.SameRecords.setBuilt _ _ _).steps, Database.steps_publish]
  change (saveQuestion db s.id params).steps.rows.map _ = _
  rw [steps_saveQuestion]

/-- Either `create` leaves the database alone, or it saves the step it has built. -/
theorem create_cases (u : User) (now : Nat) (html : Bool) (p : Nat) (params : List StepAttr)
    (db : Database) :
    ((create u now html p params db).1 ≠ .ok ∧ (create u now html p params db).2 = db) ∨
      ∃ project s, db.projects.find? p = some project ∧
        buildStep db now p (createParams db p params) = some s ∧
        Ability.createStep db u s = some true ∧ s.validNew = true ∧
        create u now html p params db =
          (.ok, afterCreate u now html project
            { s with position := createPosition db p (createParams db p params) }
            (createParams db p params)
            (insertStep db
              { s with position := createPosition db p (createParams db p params) })) := by
  rw [create]
  cases hproj : db.projects.find? p with
  | none => exact Or.inl ⟨by simp, rfl⟩
  | some project =>
    dsimp only
    cases hbuild : buildStep db now p (createParams db p params) with
    | none => exact Or.inl ⟨by simp, rfl⟩
    | some s =>
      dsimp only
      cases hauth : Ability.createStep db u s with
      | none => exact Or.inl ⟨by simp [authorize], rfl⟩
      | some b =>
        cases b with
        | false => exact Or.inl ⟨by simp [authorize], rfl⟩
        | true =>
          by_cases hv : s.validNew = true
          · refine Or.inr ⟨project, s, rfl, rfl, hauth, hv, ?_⟩
            exact if_pos hv
          · have hnot : ({ s with
                position := createPosition db p (createParams db p params) } : Step).validNew ≠ true := hv
            refine Or.inl ⟨?_, ?_⟩
            · rw [authorize, if_neg hnot]
              simp
            · rw [authorize, if_neg hnot]

/-- A create is asked for nothing else. -/
theorem create_ok {u : User} {p : Nat} {params : List StepAttr} {db : Database} {project : Project} {s : Step}
    (hproject : db.projects.find? p = some project) (hbuild : buildStep db now p (createParams db p params) = some s)
    (hauth : Ability.createStep db u s = some true) (hvalid : s.validNew = true) (html : Bool) :
    (create u now html p params db).1 = .ok := by
  have hvalid' : ({ s with
      position := createPosition db p (createParams db p params) } : Step).validNew = true := hvalid
  rw [create, hproject]
  dsimp only
  rw [hbuild]
  dsimp only
  rw [hauth, authorize, if_pos hvalid']

/-! ## Updating a step -/

/-- What `update` writes before it assigns the parameters. -/
def beforeUpdate (now p : Nat) (s : Step) (params : List StepAttr) (db : Database) : Database :=
  (removeQuestion (saveImages (touchCollections db now p) s.id) s.id params).touchProject now p

/-- `update` is turned away, or stops at an attribute or a validation, or saves the step. -/
theorem update_cases (u : User) (now p : Nat) (id : Int) (params : List StepAttr) (db : Database) :
    (update u now p id params db).2 = db ∨
      ∃ project s, db.projects.find? p = some project ∧ findByPosition db p id = some s ∧
        Ability.updateStep db u s = some true ∧
        ((update u now p id params db).2 = beforeUpdate now p s params db ∨
          ∃ s', StepAttr.assignAll (beforeUpdate now p s params db) s params = some s' ∧
            s'.valid = true ∧
            update u now p id params db =
              afterUpdate u now project s' params (emptiedQuestion db s.id params)
                ((beforeUpdate now p s params db).storeRow (some now) s')) := by
  rw [update]
  cases hproj : db.projects.find? p with
  | none => exact Or.inl rfl
  | some project =>
    dsimp only
    cases hpos : findByPosition db p id with
    | none => exact Or.inl rfl
    | some s =>
      dsimp only
      rcases authorize_cases (Ability.updateStep db u s) db _ with ⟨hauth, heq⟩ | ⟨-, heq⟩
      · rw [heq]
        refine Or.inr ⟨project, s, rfl, rfl, hauth, ?_⟩
        rw [← beforeUpdate]
        generalize beforeUpdate now p s params db = db'
        cases hassign : StepAttr.assignAll db' s params with
        | none => exact Or.inl rfl
        | some s' =>
          dsimp only
          by_cases hv : s'.valid = true
          · rw [if_pos hv]
            exact Or.inr ⟨s', rfl, hv, rfl⟩
          · rw [if_neg hv]
            exact Or.inl rfl
      · exact Or.inl heq

/-- A completed update has saved the step. -/
theorem update_ok {u : User} {now p : Nat} {id : Int} {params : List StepAttr} {db : Database}
    (hok : (update u now p id params db).1 = .ok) :
    ∃ project s s', db.projects.find? p = some project ∧ findByPosition db p id = some s ∧
      StepAttr.assignAll (beforeUpdate now p s params db) s params = some s' ∧ update u now p id params db =
        afterUpdate u now project s' params (emptiedQuestion db s.id params)
          ((beforeUpdate now p s params db).storeRow (some now) s') := by
  rw [update] at hok ⊢
  cases hproj : db.projects.find? p with
  | none =>
    rw [hproj] at hok
    cases hok
  | some project =>
    rw [hproj] at hok
    dsimp only at hok ⊢
    cases hpos : findByPosition db p id with
    | none =>
      rw [hpos] at hok
      cases hok
    | some s =>
      rw [hpos] at hok
      dsimp only at hok ⊢
      cases hauth : Ability.updateStep db u s with
      | none =>
        rw [hauth] at hok
        cases hok
      | some allowed =>
        cases allowed with
        | false =>
          rw [hauth] at hok
          cases hok
        | true =>
          rw [hauth, authorize, ← beforeUpdate] at hok
          rw [authorize, ← beforeUpdate]
          cases hassign : StepAttr.assignAll (beforeUpdate now p s params db) s params with
          | none =>
            rw [hassign] at hok
            cases hok
          | some s' =>
            rw [hassign] at hok
            dsimp only at hok
            by_cases hv : s'.valid = true
            · refine ⟨project, s, s', rfl, rfl, hassign, ?_⟩
              dsimp only
              rw [if_pos hv]
            · rw [if_neg hv] at hok
              cases hok

/-! ## Destroying a step -/

/-- What `destroy` writes before the step goes, and whether it got through. -/
def beforeDestroy (now p : Nat) (d : Step) (db : Database) : Bool × Database :=
  if d.ancestry = some ['0'] then reroot now d ((db.projectSteps p).filter (·.id ≠ d.id)) db
  else (true, db)

/-- Whether `destroy` comes to the step. -/
def proceeds (u : User) (now p : Nat) (key : StepKey) (db : Database) : Bool :=
  match db.projects.find? p, db.findStep key with
  | some _, some d =>
    Ability.destroyStep db u d == some true && !rootGuard db p d && (beforeDestroy now p d db).1
  | _, _ => false

/-- `destroy` is turned away, or comes to the step and may still raise at a nil ancestry. -/
theorem destroy_spec (u : User) (now p : Nat) (key : StepKey) (db : Database) :
    (proceeds u now p key db = false ∧ (destroy u now p key db).1 ≠ .ok ∧ (destroy u now p key db).2 = db) ∨
      ∃ project d, db.projects.find? p = some project ∧ db.findStep key = some d ∧
        Ability.destroyStep db u d = some true ∧ rootGuard db p d = false ∧
        proceeds u now p key db = (beforeDestroy now p d db).1 ∧
        destroy u now p key db = if (beforeDestroy now p d db).1 then
          (.ok, afterDestroy u now project d ((forgetStep (beforeDestroy now p d db).2 d).destroyStep now d))
        else (.error, (beforeDestroy now p d db).2) := by
  unfold proceeds destroy
  cases hproject : db.projects.find? p with
  | none => exact Or.inl ⟨rfl, nofun, rfl⟩
  | some project =>
    cases hstep : db.findStep key with
    | none => exact Or.inl ⟨rfl, nofun, rfl⟩
    | some d =>
      dsimp only
      rw [← beforeDestroy]
      cases hallowed : Ability.destroyStep db u d with
      | none => exact Or.inl ⟨rfl, nofun, rfl⟩
      | some allowed =>
        cases allowed with
        | false => exact Or.inl ⟨rfl, nofun, rfl⟩
        | true =>
          rw [authorize, beq_self_eq_true, Bool.true_and]
          cases hguard : rootGuard db p d with
          | true => exact Or.inl ⟨rfl, nofun, rfl⟩
          | false => exact Or.inr ⟨project, d, rfl, rfl, hallowed, hguard, Bool.true_and _, if_neg Bool.false_ne_true⟩

theorem destroy_cases (u : User) (now p : Nat) (key : StepKey) (db : Database) :
    (destroy u now p key db).2 = db ∨
      ∃ project d, db.projects.find? p = some project ∧ db.findStep key = some d ∧
        Ability.destroyStep db u d = some true ∧ rootGuard db p d = false ∧
        (((beforeDestroy now p d db).1 = false ∧
            (destroy u now p key db).2 = (beforeDestroy now p d db).2) ∨
          ((beforeDestroy now p d db).1 = true ∧
            (destroy u now p key db).2 = afterDestroy u now project d
              ((forgetStep (beforeDestroy now p d db).2 d).destroyStep now d))) := by
  rcases destroy_spec u now p key db with ⟨-, -, heq⟩ | ⟨project, d, hproject, hstep, hallowed, hguard, -, heq⟩
  · exact Or.inl heq
  · refine Or.inr ⟨project, d, hproject, hstep, hallowed, hguard, ?_⟩
    rw [heq]
    cases (beforeDestroy now p d db).1 with
    | false => exact Or.inl ⟨rfl, rfl⟩
    | true => exact Or.inr ⟨rfl, rfl⟩

theorem destroy_proceeds (u : User) (now p : Nat) (key : StepKey) (db : Database) :
    (proceeds u now p key db = false ∧ ((destroy u now p key db).2 = db ∨
        ∃ d, (destroy u now p key db).2 = (beforeDestroy now p d db).2)) ∨
      (proceeds u now p key db = true ∧ ∃ project d, db.projects.find? p = some project ∧
        db.findStep key = some d ∧ (destroy u now p key db).2 = afterDestroy u now project d
          ((forgetStep (beforeDestroy now p d db).2 d).destroyStep now d)) := by
  rcases destroy_spec u now p key db with ⟨hno, -, heq⟩ | ⟨project, d, hproject, hstep, -, -, hproceeds, heq⟩
  · exact Or.inl ⟨hno, Or.inl heq⟩
  · rw [hproceeds, heq]
    cases (beforeDestroy now p d db).1 with
    | false => exact Or.inl ⟨rfl, Or.inr ⟨d, rfl⟩⟩
    | true => exact Or.inr ⟨rfl, project, d, hproject, hstep, rfl⟩

/-- A completed deletion of a step. -/
theorem destroy_ok {u : User} {now p : Nat} {key : StepKey} {db : Database} (hok : (destroy u now p key db).1 = .ok) :
    ∃ project d, db.projects.find? p = some project ∧ db.findStep key = some d ∧
      Ability.destroyStep db u d = some true ∧ rootGuard db p d = false ∧ (beforeDestroy now p d db).1 = true ∧
      (destroy u now p key db).2 = afterDestroy u now project d
        ((forgetStep (beforeDestroy now p d db).2 d).destroyStep now d) := by
  rcases destroy_spec u now p key db with ⟨-, hno, -⟩ | ⟨project, d, hproject, hstep, hallowed, hguard, -, heq⟩
  · exact absurd hok hno
  · rw [heq] at hok ⊢
    cases hdone : (beforeDestroy now p d db).1 with
    | false =>
      rw [hdone] at hok
      cases hok
    | true => exact ⟨project, d, hproject, hstep, hallowed, hguard, hdone, rfl⟩

/-- The loop of `destroy`: it runs when a step may stand behind the one that is gone. -/
def closeGap (now p : Nat) (d : Step) (db : Database) : Database :=
  if d.position < ((db.projectSteps p).length : Int) then
    renumber now p (((db.projectSteps p).length : Int) - d.position).toNat (d.position + 1) db
  else db

theorem afterDestroy_eq (u : User) (now : Nat) (project : Project) (d : Step) (db : Database) :
    afterDestroy u now project d db =
      Database.setBuilt (if project.isPublic then
        (closeGap now project.id d db).setPublished now u.id project.id none else closeGap now project.id d db)
        now project.id := rfl

theorem steps_afterDestroy (u : User) (now : Nat) (project : Project) (d : Step) (db : Database) :
    (afterDestroy u now project d db).steps = (closeGap now project.id d db).steps := by
  rw [afterDestroy_eq, (Database.SameRecords.setBuilt _ _ _).steps, Database.steps_publish]

theorem map_closeGap {β : Type} {g : Step → β} (hg : ∀ s q t, g { s with position := q, updatedAt := t } = g s)
    (now p : Nat) (d : Step) (db : Database) :
    (closeGap now p d db).steps.rows.map g = db.steps.rows.map g := by
  unfold closeGap
  split
  · exact map_renumber hg now p _ _ db
  · rfl

theorem map_afterDestroy {β : Type} {g : Step → β}
    (hg : ∀ s q t, g { s with position := q, updatedAt := t } = g s) (u : User) (now : Nat) (project : Project)
    (d : Step) (db : Database) :
    (afterDestroy u now project d db).steps.rows.map g = db.steps.rows.map g := by
  rw [steps_afterDestroy, map_closeGap hg]

theorem rows_afterDestroy (u : User) (now : Nat) (project : Project) (d : Step) (db : Database)
    (hn : ((db.projectSteps project.id).map Step.position).Nodup)
    (hfree : ∀ s ∈ db.projectSteps project.id, s.position ≠ d.position) :
    (afterDestroy u now project d db).steps.rows =
      db.steps.rows.map (shifted now project.id (d.position + 1)
        (((db.projectSteps project.id).length : Int) - d.position).toNat) := by
  rw [steps_afterDestroy]
  unfold closeGap
  split
  · exact rows_renumber now project.id _ _ db hn (fun s hs => by
      rw [Int.add_sub_cancel]
      exact hfree s hs)
  · rename_i hlt
    symm
    apply List.map_eq_self_of_forall
    intro s _
    exact if_neg fun hc => by
      have h1 := hc.2.1
      have h2 := hc.2.2
      omega

@[simp] theorem steps_forgetStep (db : Database) (d : Step) : (forgetStep db d).steps = db.steps := by
  unfold forgetStep
  dsimp only
  cases db.stepQuestion d.id <;> rfl

end StepsController
