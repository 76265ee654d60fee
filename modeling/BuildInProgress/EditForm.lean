import BuildInProgress.StepPlaces
import BuildInProgress.StepRuns

/-!
# The edit form of a step

The form of a step is submitted to the position the step had when the form was rendered.  Meanwhile
other users may create, destroy, sort and rearrange steps.  The form reaches its own step, or none, as
long as no such request puts another step of the project at that position.
-/

open Text Ancestry

namespace Database

/-! ## What belongs to one step -/

/-- Only the step `i` is written, with its question, the decision about it and its images. -/
def WritesStep (i : Nat) (db db' : Database) : Prop :=
  ∀ t, t ≠ i → db'.steps.find? t = db.steps.find? t ∧ db'.stepImages t = db.stepImages t ∧
    db'.stepQuestion t = db.stepQuestion t ∧
    ∀ q, db.stepQuestion t = some q → db'.questionDecision q.id = db.questionDecision q.id

namespace WritesStep

variable {i : Nat} {db db' db'' : Database}

theorem refl (i : Nat) (db : Database) : WritesStep i db db := fun _ _ => ⟨rfl, rfl, rfl, fun _ _ => rfl⟩

theorem trans (h : WritesStep i db db') (h' : WritesStep i db' db'') : WritesStep i db db'' := by
  intro t ht
  obtain ⟨hstep, himages, hquestion, hdecision⟩ := h t ht
  obtain ⟨hstep', himages', hquestion', hdecision'⟩ := h' t ht
  refine ⟨hstep'.trans hstep, himages'.trans himages, hquestion'.trans hquestion, fun q hq => ?_⟩
  exact (hdecision' q (hquestion.trans hq)).trans (hdecision q hq)

theorem of_touches {names : List TableName} (h : Touches names db db')
    (hn : TableName.steps ∉ names ∧ TableName.images ∉ names ∧ TableName.questions ∉ names ∧
      TableName.decisions ∉ names) : WritesStep i db db' := by
  have hsteps : db'.steps = db.steps := h .steps hn.1
  have himages : db'.images = db.images := h .images hn.2.1
  have hquestions : db'.questions = db.questions := h .questions hn.2.2.1
  have hdecisions : db'.decisions = db.decisions := h .decisions hn.2.2.2
  intro t _
  rw [hsteps, stepImages, himages, stepQuestion, hquestions]
  exact ⟨rfl, rfl, rfl, fun q _ => by rw [questionDecision, hdecisions]; rfl⟩

end WritesStep

variable {db : Database} {i : Nat}

theorem writesStep_putStep (db : Database) (s : Step) : WritesStep s.id db (db.putStep s) := by
  intro t ht
  refine ⟨?_, rfl, rfl, fun _ _ => rfl⟩
  rw [putStep, Table.find?_modify]
  cases hf : db.steps.find? t with
  | none => rfl
  | some r =>
    have hid : r.id = t := (Table.find?_eq_some.mp hf).2
    exact congrArg some (if_neg fun (e : r.id = s.id) => ht (hid.symm.trans e))

/-- Questions of different steps are different. -/
theorem question_ne {t : Nat} {q r : Question} (hq : db.stepQuestion t = some q)
    (hr : db.stepQuestion i = some r) (h : t ≠ i) : q.id ≠ r.id := by
  intro heq
  have hqs : q.stepId = t := by simpa using List.find?_some hq
  have hrs : r.stepId = i := by simpa using List.find?_some hr
  have hqr := Table.eq_of_key (List.mem_of_find?_eq_some hq) (List.mem_of_find?_eq_some hr) heq
  exact h (hqs.symm.trans ((congrArg Question.stepId hqr).trans hrs))

/-- A decision goes that belongs to the question of the step. -/
theorem writesStep_checkDecision (db : Database) (i : Nat) : WritesStep i db (db.checkDecision i) := by
  unfold checkDecision
  split
  · exact .refl i db
  · rename_i r hr
    split
    · exact .refl i db
    · rename_i d hd
      split
      · intro t ht
        refine ⟨rfl, rfl, rfl, fun q hq => List.find?_filter_unseen fun x hx hx' => ?_⟩
        have hxq : x.questionId = q.id := by simpa using hx'
        have hdr : d.questionId = r.id := by simpa using List.find?_some hd
        have hne := question_ne hq hr ht
        rw [decide_eq_true_eq]
        intro hid
        have hxd := Table.eq_of_key hx (List.mem_of_find?_eq_some hd) hid
        exact hne (hxq.symm.trans ((congrArg Decision.questionId hxd).trans hdr))
      · exact .refl i db

theorem writesStep_storeRow (db : Database) (stamp : Option Nat) (s : Step) :
    WritesStep s.id db (db.storeRow stamp s) := writesStep_putStep db (s.stamped stamp)

theorem writesStep_destroyQuestion {r : Question} (hr : db.stepQuestion i = some r) :
    WritesStep i db (db.destroyQuestion r.id) := by
  intro t ht
  refine ⟨rfl, rfl, List.find?_filter_unseen fun x hx hx' => ?_,
    fun q hq => List.find?_filter_unseen fun x hx hx' => ?_⟩
  · have hxt : x.stepId = t := by simpa using hx'
    have hri : r.stepId = i := by simpa using List.find?_some hr
    rw [decide_eq_true_eq]
    intro hid
    have hxr := Table.eq_of_key hx (List.mem_of_find?_eq_some hr) hid
    exact ht (hxt.symm.trans ((congrArg Question.stepId hxr).trans hri))
  · have hxq : x.questionId = q.id := by simpa using hx'
    rw [decide_eq_true_eq]
    exact fun hid => question_ne hq hr ht (hxq.symm.trans hid)

end Database

/-! ## Submitting the form -/

namespace StepsController

open Database

variable {db : Database} {i : Nat}

/-- The decision that is saved belongs to no question of another step. -/
theorem writesStep_saveDecision {q : Nat} (h : ∀ t, t ≠ i → ∀ q', db.stepQuestion t = some q' → q'.id ≠ q)
    (decision : Option Text) : WritesStep i db (saveDecision db q decision) := by
  unfold saveDecision
  split
  · exact .refl i db
  · rename_i d
    split
    · rename_i x hx
      have hxq : x.questionId = q := by simpa using List.find?_some hx
      intro t ht
      refine ⟨rfl, rfl, rfl, fun q' hq' => ?_⟩
      have hne : ∀ y ∈ db.decisions.rows, y.id = x.id → y.questionId ≠ q'.id := by
        intro y hy hid heq
        rw [Table.eq_of_key hy (List.mem_of_find?_eq_some hx) hid, hxq] at heq
        exact h t ht q' hq' heq.symm
      rw [questionDecision, questionDecision]
      dsimp only
      split
      · refine List.find?_filter_unseen fun y hy hyq => ?_
        rw [decide_eq_true_eq] at hyq ⊢
        exact fun hid => hne y hy hid hyq
      · refine List.find?_map_unseen fun y hy => ?_
        by_cases hid : Keyed.key y = x.id
        · rw [if_pos hid]
          exact Or.inr ⟨decide_eq_false (hne y hy hid), decide_eq_false (hne y hy hid)⟩
        · exact Or.inl (if_neg hid)
    · intro t ht
      refine ⟨rfl, rfl, rfl, fun q' hq' => List.find?_concat_unseen ?_⟩
      exact decide_eq_false fun heq => h t ht q' hq' heq.symm

theorem writesStep_saveQuestion (db : Database) (i : Nat) (params : List StepAttr) :
    WritesStep i db (saveQuestion db i params) := by
  unfold saveQuestion
  split
  · exact .refl i db
  · rename_i q hq
    split
    · exact .refl i db
    · split
      · rename_i r hr
        have hri : r.stepId = i := by simpa using List.find?_some hr
        -- the question that is rewritten is one of the step
        have hquestion : WritesStep i db { db with
            questions := db.questions.modify r.id (fun r =>
              { r with description := q.description, answered := q.answered.getD r.answered }) (fun _ => rfl) } := by
          intro t ht
          refine ⟨rfl, rfl, List.find?_map_unseen fun x hx => ?_, fun _ _ => rfl⟩
          by_cases hid : Keyed.key x = r.id
          · have hxr := Table.eq_of_key hx (List.mem_of_find?_eq_some hr) hid
            have hxi : x.stepId = i := (congrArg Question.stepId hxr).trans hri
            rw [if_pos hid]
            exact Or.inr ⟨by simpa [hxi] using ht.symm, by simpa [hxi] using ht.symm⟩
          · exact Or.inl (if_neg hid)
        refine hquestion.trans (writesStep_saveDecision (fun t ht q' hq' => ?_) _)
        rw [(hquestion t ht).2.2.1] at hq'
        exact question_ne hq' hr ht
      · intro t ht
        refine ⟨rfl, rfl, List.find?_concat_unseen (by simpa using ht.symm), fun q' hq' => ?_⟩
        have hb : q'.id < db.questions.next := (db.questions.bound q' (List.mem_of_find?_eq_some hq')).2
        rw [questionDecision, questionDecision]
        cases q.decision with
        | none => rfl
        | some d =>
          dsimp only
          refine List.find?_concat_unseen ?_
          rw [decide_eq_false_iff_not]
          dsimp only
          omega

theorem writesStep_updateQuestion (db : Database) (i : Nat) (params : List StepAttr) :
    WritesStep i db (updateQuestion db i params) :=
  (writesStep_saveQuestion db i params).trans (writesStep_checkDecision _ i)

theorem writesStep_removeQuestion (db : Database) (i : Nat) (params : List StepAttr) :
    WritesStep i db (removeQuestion db i params) := by
  unfold removeQuestion
  split
  · rename_i q r _ hr
    split
    · exact writesStep_destroyQuestion hr
    · exact .refl i db
  · exact .refl i db

theorem writesStep_saveImages (db : Database) (i : Nat) : WritesStep i db (saveImages db i) := by
  intro t ht
  refine ⟨rfl, ?_, rfl, fun _ _ => rfl⟩
  rw [stepImages, saveImages, Table.rows_map, List.filter_map, stepImages]
  have hstep : ∀ m : Image, (if m.stepId = some (i : Int) then { m with saved := some true } else m).stepId =
      m.stepId := by
    intro m
    split <;> rfl
  rw [List.filter_congr fun m _ => by rw [Function.comp, hstep]]
  refine List.map_eq_self_of_forall fun m hm => if_neg fun hmi => ?_
  rw [List.mem_filter, decide_eq_true_eq, hmi, Option.some.injEq] at hm
  omega

theorem writesStep_beforeUpdate (now p : Nat) (s : Step) (params : List StepAttr) (db : Database) :
    WritesStep s.id db (beforeUpdate now p s params db) := by
  have hcollections : WritesStep s.id db (touchCollections db now p) :=
    .of_touches (touches_touchCollections db now p) (by decide)
  have hquestion := (hcollections.trans (writesStep_saveImages _ s.id)).trans
    (writesStep_removeQuestion _ s.id params)
  exact hquestion.trans (.of_touches (touches_touchProject _ now p) (by decide))

theorem writesStep_afterUpdate (u : User) (now : Nat) (project : Project) (s : Step) (params : List StepAttr)
    (gone : Option Question) (db : Database) :
    WritesStep s.id db (afterUpdate u now project s params gone db).2 := by
  have hlabel : WritesStep s.id db (relabel now s params db) := by
    have hquestion := writesStep_updateQuestion db s.id params
    unfold relabel
    split
    · exact hquestion.trans (writesStep_putStep _ { s with labelColor := none, updatedAt := now })
    · exact hquestion
  rcases afterUpdate_cases db u now project s params gone with ⟨-, heq⟩ | ⟨e, -, heq⟩
  · rw [heq]
    exact hlabel
  · rw [heq]
    exact hlabel.trans (.of_touches (touches_endEdit _ u now project s e gone) (by decide))

/-- The form is written to the step that stands at the position now. -/
theorem writesStep_update (u : User) (now p : Nat) (k : Int) (params : List StepAttr) (db : Database) {i : Nat}
    (h : ∀ s, findByPosition db p k = some s → s.id = i) :
    WritesStep i db (update u now p k params db).2 := by
  rcases update_cases u now p k params db with heq | ⟨project, s, -, hfind, -, heq | ⟨s', hassign, -, heq⟩⟩
  · rw [heq]
    exact .refl i db
  · rw [heq, ← h s hfind]
    exact writesStep_beforeUpdate now p s params db
  · have hid : s'.id = s.id := (StepAttr.assignAll_ids hassign).1
    rw [heq, ← h s hfind]
    refine (writesStep_beforeUpdate now p s params db).trans ?_
    rw [← hid]
    exact (writesStep_storeRow _ _ s').trans (writesStep_afterUpdate u now project s' params _ _)

end StepsController

/-! ## Between the form and its submission -/

/-- A request of another user that comes in between. -/
inductive StepWrite where
  | create (u : User) (now : Nat) (html : Bool) (p : Nat) (params : List StepAttr)
  | destroy (u : User) (now p : Nat) (key : StepKey)
  | sort (p : Nat) (ids : List Nat)
  | updateAncestry (p : Nat) (entries : List MapEntry)

namespace StepWrite

open StepsController Database

def perform (db : Database) : StepWrite → Database
  | create u now html p params => (StepsController.create u now html p params db).2
  | destroy u now p key => (StepsController.destroy u now p key db).2
  | sort p ids => (StepsController.sort p ids db).2
  | updateAncestry p entries => (StepsController.updateAncestry p entries db).2

/-- The request puts no step of project `p` but `i` at position `k`: a new step goes elsewhere, no
other step moves down from `k + 1`, and no list or map names another step for `k`. -/
def Spares (p : Nat) (k : Int) (i : Nat) (db : Database) : StepWrite → Prop
  | create u now html q params =>
    (StepsController.create u now html q params db).1 = .ok → q = p →
      createPosition db q (createParams db q params) ≠ k
  | destroy u now q key =>
    q = p → ∀ d ∈ db.findStep key, Ability.destroyStep db u d = some true → rootGuard db q d = false →
      (beforeDestroy now q d db).1 = true → d.position ≤ k →
      k < ((db.projectSteps p).filter (·.id ≠ d.id)).length →
      ∀ t ∈ db.projectSteps p, t.position = k + 1 → t.id = i ∨ t.id = d.id
  | sort q ids =>
    (db.projects.find? q).isSome = true → ∀ t ∈ db.projectSteps p, ∀ n < ids.length,
      ids[n]? = some t.id → t.id ∉ ids.drop (n + 1) → (n : Int) + 1 = k → t.id = i
  | updateAncestry q entries =>
    (db.projects.find? q).isSome = true → ∀ t ∈ db.projectSteps p, ∀ e ∈ entries,
      t.id = (toI e.key).toNat → e.position = k → t.id = i

/-- No other step of the project stands at the position. -/
def Alone (p : Nat) (k : Int) (i : Nat) (db : Database) : Prop :=
  ∀ t ∈ db.projectSteps p, t.position = k → t.id = i

theorem alone_perform {p : Nat} {k : Int} {i : Nat} (db : Database) (r : StepWrite) (h : Alone p k i db)
    (hr : Spares p k i db r) : Alone p k i (r.perform db) := by
  intro t' ht' hk
  obtain ⟨hrow, hproj'⟩ := mem_projectSteps.mp ht'
  -- a row comes to the position `k` only by a request that names it
  cases r with
  | create u now html q params =>
    rcases place_create u now html q params db hrow with ⟨t, ht, hid, hproj, hpos⟩ | ⟨hok, -, hq, hpos⟩
    · rw [← hid]
      exact h t (mem_projectSteps.mpr ⟨ht, hproj.trans hproj'⟩) (hpos.symm.trans hk)
    · have hqp : q = p := Option.some.inj (hq.symm.trans hproj')
      exact absurd (hpos.symm.trans hk) (hr hok hqp)
  | destroy u now q key =>
    obtain ⟨t, ht, hid, hproj, hpos⟩ := place_destroy u now q key db hrow
    have htp := mem_projectSteps.mpr ⟨ht, hproj.trans hproj'⟩
    rw [← hid]
    rcases hpos with hpos | ⟨d, hd, hauth, hguard, hdone, hne, hq, hlow, hhigh, hmoved⟩
    · exact h t htp (hpos.symm.trans hk)
    · have hqp : q = p := Option.some.inj (hq.symm.trans (hproj.trans hproj'))
      subst hqp
      -- the row has moved up from the position below
      have hor := hr rfl d hd hauth hguard hdone (by omega) (by omega) t htp (by omega)
      exact hor.resolve_right hne
  | sort q ids =>
    obtain ⟨t, ht, hid, hproj, hpos⟩ := place_sort q ids db hrow
    have htp := mem_projectSteps.mpr ⟨ht, hproj.trans hproj'⟩
    rw [← hid]
    rcases hpos with hpos | ⟨hq, n, hn, hlast, hpos⟩
    · exact h t htp (hpos.symm.trans hk)
    · exact hr hq t htp n (List.getElem?_eq_some_iff.mp hn).1 hn hlast (hpos.symm.trans hk)
  | updateAncestry q entries =>
    obtain ⟨t, ht, hid, hproj, hpos⟩ := place_updateAncestry q entries db hrow
    have htp := mem_projectSteps.mpr ⟨ht, hproj.trans hproj'⟩
    rw [← hid]
    rcases hpos with hpos | ⟨hq, e, he, hte, hpos⟩
    · exact h t htp (hpos.symm.trans hk)
    · exact hr hq t htp e he hte (hpos.symm.trans hk)

theorem alone_run {p : Nat} {k : Int} {i : Nat} {db : Database} {rs : List StepWrite} (h : Alone p k i db)
    (hrs : Run.Along perform (Spares p k i) db rs) : Alone p k i (Run.after perform db rs) :=
  Run.invariant alone_perform h hrs

/-- The form of the step that stands alone at position `k` of project `p` is rendered, other requests
come in that spare the position, and the form is submitted. -/
theorem form_reaches_its_step {db : Database} (u : User) (now p : Nat) {k : Int} {s : Step}
    (hs : findByPosition db p k = some s) (halone : Alone p k s.id db) {rs : List StepWrite}
    (hrs : Run.Along perform (Spares p k s.id) (edit u now p k db).2 rs) (later : Nat)
    (params : List StepAttr) :
    WritesStep s.id (Run.after perform (edit u now p k db).2 rs)
      (update u later p k params (Run.after perform (edit u now p k db).2 rs)).2 := by
  have hedit : (edit u now p k db).2.steps = db.steps := by
    unfold edit
    rw [hs]
    split
    · rfl
    · rcases authorize_cases (Ability.updateStep db u s) db _ with ⟨-, heq⟩ | ⟨-, heq⟩
      · dsimp only
        rw [heq]
        split
        · rfl
        · split <;> rfl
      · dsimp only
        rw [heq]
  have hstart : Alone p k s.id (edit u now p k db).2 := by
    rw [Alone, projectSteps, hedit]
    exact halone
  have hend := alone_run hstart hrs
  refine writesStep_update u later p k params _ fun t ht => ?_
  exact hend t (List.mem_of_find?_eq_some ht) (by simpa using List.find?_some ht)

end StepWrite

/-- A project of two authors with three steps, each below the one before. -/
def Database.threeSteps : Database :=
  { oneProject "Lamp".toList none with
    projectsUsers := [(1, 1), (1, 2)]
    steps := .ofRows [
      { StepsController.blankStep 11 1 0 with name := ['a'], ancestry := some ['0'] },
      { StepsController.blankStep 12 1 0 with name := ['b'], ancestry := some "11".toList, position := 1 },
      { StepsController.blankStep 13 1 0 with name := ['c'], ancestry := some "11/12".toList, position := 2 }] 14
      (by decide) }

namespace StepWrite

open StepsController Database

/-- Another author adds a step at the end and destroys the last step before it. -/
def besideTheForm : List StepWrite :=
  [.create bob 6 true 1 [.name ['d'], .parentId (some (.ofId 13))], .destroy bob 7 1 (.ofId 13)]

theorem form_reaches_its_step_besides :
    (findByPosition threeSteps 1 1).map Step.id = some 12 ∧
      WritesStep 12 (Run.after perform (edit ada 5 1 1 threeSteps).2 besideTheForm)
        (update ada 8 1 1 [.name ['x']] (Run.after perform (edit ada 5 1 1 threeSteps).2 besideTheForm)).2 := by
  have hs : findByPosition threeSteps 1 1 = some { blankStep 12 1 0 with
      name := ['b'], ancestry := some "11".toList, position := 1 } := by decide +kernel
  have halone : Alone 1 1 12 threeSteps := by
    have hall : ∀ t ∈ threeSteps.projectSteps 1, t.position = 1 → t.id = 12 := by decide +kernel
    exact hall
  have hrs : Run.Along perform (Spares 1 1 12) (edit ada 5 1 1 threeSteps).2 besideTheForm := by
    refine ⟨fun _ _ => by decide +kernel, ?_, trivial⟩
    intro _ d hd _ _ _ hlow
    have hpos : ∀ d ∈ (perform (edit ada 5 1 1 threeSteps).2
        (.create bob 6 true 1 [.name ['d'], .parentId (some (.ofId 13))])).findStep (.ofId 13), ¬ d.position ≤ 1 := by
      decide +kernel
    exact absurd hlow (hpos d hd)
  exact ⟨by rw [hs]; rfl, form_reaches_its_step ada 5 1 hs halone hrs 8 _⟩

/-- The step is destroyed, the next one takes its place, and the form is written to that one. -/
theorem form_reaches_another_step :
    ¬ ∀ (db : Database) (u : User) (now p : Nat) (k : Int) (s : Step), (edit u now p k db).1 = .ok →
      findByPosition db p k = some s → ∀ (rs : List StepWrite) (later : Nat) (params : List StepAttr),
      WritesStep s.id (Run.after perform (edit u now p k db).2 rs)
        (update u later p k params (Run.after perform (edit u now p k db).2 rs)).2 := by
  intro hall
  have hwrites := hall threeSteps ada 5 1 1
    { blankStep 12 1 0 with name := ['b'], ancestry := some "11".toList, position := 1 } (by decide +kernel)
    (by decide +kernel) [.destroy bob 6 1 (.ofId 12)] 7 [.name ['x']] 13 (by decide)
  exact absurd (congrArg (Option.map Step.name) hwrites.1) (by decide +kernel)

end StepWrite
