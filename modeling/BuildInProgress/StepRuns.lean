import BuildInProgress.NewStep
import BuildInProgress.Lib.Run

/-!
# Runs of step requests

The requests that build up the steps of a project: creates from a client without the process map,
creates from the web form, saves of a rearranged map and destroys.  A project that starts without
steps keeps the shape of `StepTree` along every run in which no web form leaves a gap behind.
-/

open Text Ancestry StepsController

namespace StepAttr

/-- The attributes that say nothing about the place of a step. -/
def plain : StepAttr → Bool
  | position _ => false
  | parentId _ => false
  | ancestry _ => false
  | _ => true

/-- The name of a step after one more attribute. -/
def nameAfter (n : Text) : StepAttr → Text
  | name v => v
  | _ => n

/-- The name a form submits; the last one counts. -/
def nameOf (fields : List StepAttr) : Text := fields.foldl nameAfter []

/-- What a step form submits: parent, fields and, from the web form, a position. -/
def formParams (parent : Option StepKey) (fields : List StepAttr) (index : Option Int) : List StepAttr :=
  parentId parent :: (fields ++ (index.map position).toList)

end StepAttr

/-- A completed request on the steps of a project. -/
inductive StepRequest where
  /-- `create` without a position -/
  | create (u : User) (now : Nat) (html : Bool) (parent : Option StepKey) (fields : List StepAttr)
  /-- the web form: `saveOrdering` with the New Step item, then `create` with its position -/
  | submitForm (u : User) (now : Nat) (parent : Option Nat) (fields : List StepAttr)
  /-- items dropped on others, then `update_ancestry` with the rearranged map -/
  | saveMap (drops : List (Nat × Nat))
  | destroy (u : User) (now : Nat) (key : StepKey)
  deriving DecidableEq, Repr

namespace StepRequest

/-- The map the web form of a new step shows, if the steps can be drawn. -/
def formMap (p : Nat) (db : Database) (parent : Option Nat) : Option Dom :=
  (drawList (db.orderedSteps p)).map (loadProcessMap · parent)

/-- The map of the project after some drops. -/
def droppedMap (p : Nat) (db : Database) (drops : List (Nat × Nat)) : Option Dom :=
  (drawList (db.orderedSteps p)).map fun d =>
    drops.foldl (fun d e => d.drop (toS e.1) (toS e.2)) d

/-- The database after a request on project `p`.  A page whose map cannot be drawn sends nothing. -/
def perform (p : Nat) (db : Database) : StepRequest → Database
  | create u now html parent fields =>
    (StepsController.create u now html p (StepAttr.formParams parent fields none) db).2
  | submitForm u now parent fields =>
    match formMap p db parent with
    | none => db
    | some d =>
      let db := (updateAncestry p (createStepMapArray d) db).2
      let params := StepAttr.formParams (parent.map .ofId) fields (some (d.position "newStep".toList))
      (StepsController.create u now true p params db).2
  | saveMap drops =>
    match droppedMap p db drops with
    | none => db
    | some d => (updateAncestry p (createStepMapArray d) db).2
  | destroy u now key => (StepsController.destroy u now p key db).2

/-- The parent of a new step is a step of the project, and only the first step has none. -/
def ParentOk (p : Nat) (db : Database) (parent : Option StepKey) : Prop :=
  match parent with
  | none => db.projectSteps p = []
  | some key => ∃ s ∈ db.projectSteps p, (s.id : Int) = key.toI

/-- What `Step.find` takes for the parent is a step of the project in front of the place of the new step. -/
def FindsParent (p : Nat) (db : Database) (parent : Option StepKey) (place : Int) : Prop :=
  ∀ key ∈ parent, ∃ q ∈ db.projectSteps p, db.findStep key = some q ∧ q.position < place

/-- The form leaves no gap: the step is accepted, or the New Step item is the last one. -/
def FormOk (p : Nat) (db : Database) (u : User) (parent : Option Nat) (fields : List StepAttr) :
    Prop :=
  (db.author p u.id = true ∧ blank (StepAttr.nameOf fields) = false) ∨
    ∀ d ∈ formMap p db parent, d.position "newStep".toList = (db.projectSteps p).length

/-- The fields a create submits besides parent and position. -/
def PlainFields (fields : List StepAttr) : Prop := ∀ a ∈ fields, a.plain = true

/-- Creates below a step of the project, saves of the map, destroys of a step below the root. -/
def OffRoot (p : Nat) (db : Database) : StepRequest → Prop
  | create _ _ _ parent fields => ParentOk p db parent ∧ PlainFields fields
  | submitForm _ _ parent fields => ParentOk p db (parent.map .ofId) ∧ PlainFields fields
  | saveMap _ => True
  | destroy _ _ key => ∃ s ∈ db.projectSteps p, (s.id : Int) = key.toI ∧ s.topLevel = false

/-- The same with destroys of any step of the project. -/
def OnProject (p : Nat) (db : Database) : StepRequest → Prop
  | create _ _ _ parent fields => ParentOk p db parent ∧ PlainFields fields
  | submitForm _ _ parent fields => ParentOk p db (parent.map .ofId) ∧ PlainFields fields
  | saveMap _ => True
  | destroy _ _ key => ∃ s ∈ db.projectSteps p, (s.id : Int) = key.toI

/-- No web form leaves a gap. -/
def LeavesNoGap (p : Nat) (db : Database) : StepRequest → Prop
  | submitForm u _ parent fields => FormOk p db u parent fields
  | _ => True

/-- The map shows the name of every step of the project. -/
def NamesShown (p : Nat) (db : Database) : Prop := ∀ s ∈ db.orderedSteps p, s.plainName = true

/-- The map that the request has been made on shows all the names. -/
def ShowsNames (p : Nat) (db : Database) : StepRequest → Prop
  | submitForm _ _ _ _ => NamesShown p db
  | saveMap _ => NamesShown p db
  | _ => True

/-- `Step.find` finds the parent of a new step in the project, and in front of the New Step item of the web form, and
what the user may destroy is a step of the project below the root. -/
def FindsSteps (p : Nat) (db : Database) : StepRequest → Prop
  | create _ _ _ parent _ => FindsParent p db parent (db.projectSteps p).length
  | submitForm _ _ parent _ => ∀ d ∈ formMap p db parent,
      FindsParent p (updateAncestry p (createStepMapArray d) db).2 (parent.map .ofId) (d.position "newStep".toList)
  | saveMap _ => True
  | destroy u _ key => ∀ d ∈ db.findStep key, Ability.destroyStep db u d = some true → rootGuard db p d = false →
      d ∈ db.projectSteps p ∧ d.topLevel = false

instance (p : Nat) (db : Database) : ∀ parent, Decidable (ParentOk p db parent)
  | none => inferInstanceAs (Decidable (db.projectSteps p = []))
  | some key => inferInstanceAs (Decidable (∃ s ∈ db.projectSteps p, (s.id : Int) = key.toI))

instance (p : Nat) (db : Database) (parent : Option StepKey) (place : Int) :
    Decidable (FindsParent p db parent place) := inferInstanceAs (Decidable (∀ key ∈ parent, ∃ q ∈ _, _))

instance (fields : List StepAttr) : Decidable (PlainFields fields) :=
  inferInstanceAs (Decidable (∀ a ∈ fields, a.plain = true))

instance (p : Nat) (db : Database) (u : User) (parent : Option Nat) (fields : List StepAttr) :
    Decidable (FormOk p db u parent fields) :=
  inferInstanceAs (Decidable (_ ∨ ∀ d ∈ formMap p db parent, _))

instance (p : Nat) (db : Database) : ∀ r, Decidable (OffRoot p db r)
  | create _ _ _ _ _ => inferInstanceAs (Decidable (_ ∧ _))
  | submitForm _ _ _ _ => inferInstanceAs (Decidable (_ ∧ _))
  | saveMap _ => .isTrue trivial
  | destroy _ _ key =>
    inferInstanceAs (Decidable (∃ s ∈ db.projectSteps p, (s.id : Int) = key.toI ∧ s.topLevel = false))

instance (p : Nat) (db : Database) : ∀ r, Decidable (OnProject p db r)
  | create _ _ _ _ _ => inferInstanceAs (Decidable (_ ∧ _))
  | submitForm _ _ _ _ => inferInstanceAs (Decidable (_ ∧ _))
  | saveMap _ => .isTrue trivial
  | destroy _ _ key => inferInstanceAs (Decidable (∃ s ∈ db.projectSteps p, (s.id : Int) = key.toI))

instance (p : Nat) (db : Database) : ∀ r, Decidable (LeavesNoGap p db r)
  | create _ _ _ _ _ => .isTrue trivial
  | submitForm _ _ _ _ => inferInstanceAs (Decidable (FormOk _ _ _ _ _))
  | saveMap _ => .isTrue trivial
  | destroy _ _ _ => .isTrue trivial

instance (p : Nat) (db : Database) : Decidable (NamesShown p db) :=
  inferInstanceAs (Decidable (∀ s ∈ db.orderedSteps p, _))

instance (p : Nat) (db : Database) : ∀ r, Decidable (ShowsNames p db r)
  | create _ _ _ _ _ => .isTrue trivial
  | submitForm _ _ _ _ => inferInstanceAs (Decidable (NamesShown p db))
  | saveMap _ => inferInstanceAs (Decidable (NamesShown p db))
  | destroy _ _ _ => .isTrue trivial

instance (p : Nat) (db : Database) : ∀ r, Decidable (FindsSteps p db r)
  | create _ _ _ _ _ => inferInstanceAs (Decidable (FindsParent _ _ _ _))
  | submitForm _ _ parent _ => inferInstanceAs (Decidable (∀ d ∈ formMap p db parent, FindsParent _ _ _ _))
  | saveMap _ => .isTrue trivial
  | destroy u _ key => inferInstanceAs (Decidable (∀ d ∈ db.findStep key, Ability.destroyStep db u d = some true → _))

end StepRequest

/-! ## Creating a step from a form -/

namespace StepAttr

variable {fields : List StepAttr}

theorem plain_clearEmptyPin {a : StepAttr} (h : a.plain = true) : a.clearEmptyPin.plain = true := by
  unfold clearEmptyPin
  split
  · rfl
  · exact h

theorem nameOf_clearEmptyPin (fields : List StepAttr) :
    nameOf (fields.map clearEmptyPin) = nameOf fields := by
  unfold nameOf
  rw [List.foldl_map]
  congr 1
  funext n a
  cases a with
  | pin v =>
    unfold clearEmptyPin
    split <;> rfl
  | _ => rfl

/-- Plain fields never fail to be assigned; of the place and the name they set only the name. -/
theorem assignAll_plain (db : Database) (h : ∀ a ∈ fields, a.plain = true) (s : Step) :
    ∃ s', assignAll db s fields = some s' ∧ s'.ancestry = s.ancestry ∧
      s'.name = fields.foldl nameAfter s.name := by
  induction fields generalizing s with
  | nil => exact ⟨s, rfl, rfl, rfl⟩
  | cons a fields ih =>
    have hone : ∃ s', assign db s a = some s' ∧ s'.ancestry = s.ancestry ∧
        s'.name = nameAfter s.name a := by
      have ha := h a List.mem_cons_self
      cases a with
      | position v => cases ha
      | parentId v => cases ha
      | ancestry v => cases ha
      | _ => exact ⟨_, rfl, rfl, rfl⟩
    obtain ⟨s₁, h₁, hanc₁, hname₁⟩ := hone
    obtain ⟨s', hs', hanc, hname⟩ := ih (fun b hb => h b (List.mem_cons_of_mem _ hb)) s₁
    refine ⟨s', ?_, hanc.trans hanc₁, ?_⟩
    · rw [assignAll, List.foldlM_cons, h₁]
      exact hs'
    · rw [hname, hname₁]
      rfl

theorem findSome?_plain {β : Type} {f : StepAttr → Option β}
    (hf : ∀ a : StepAttr, a.plain = true → f a = none) (h : ∀ a ∈ fields, a.plain = true) :
    fields.findSome? f = none := by
  rw [List.findSome?_eq_none_iff]
  exact fun a ha => hf a (h a ha)

theorem parentOf_formParams (parent : Option StepKey) (h : ∀ a ∈ fields, a.plain = true)
    (index : Option Int) : parentOf (formParams parent fields index) = parent := by
  rw [parentOf, formParams, List.findSome?_cons]
  cases parent with
  | some q => rfl
  | none =>
    dsimp only
    rw [List.findSome?_append, findSome?_plain (fun a ha => by cases a <;> first | rfl | cases ha) h]
    cases index <;> rfl

theorem positionOf_formParams (parent : Option StepKey) (h : ∀ a ∈ fields, a.plain = true)
    (index : Option Int) : positionOf (formParams parent fields index) = index := by
  rw [positionOf, formParams, List.findSome?_cons]
  dsimp only
  rw [List.findSome?_append, findSome?_plain (fun a ha => by cases a <;> first | rfl | cases ha) h]
  cases index <;> rfl

end StepAttr

namespace StepsController

variable {fields : List StepAttr}

/-- The parameters as `create` goes on with them. -/
theorem createParams_formParams (db : Database) (p : Nat) {parent : Option StepKey}
    (hparent : StepRequest.ParentOk p db parent) (hf : StepRequest.PlainFields fields)
    (index : Option Int) :
    createParams db p (StepAttr.formParams parent fields index) =
      StepAttr.formParams parent (fields.map StepAttr.clearEmptyPin) index := by
  have hclear : (StepAttr.formParams parent fields index).map StepAttr.clearEmptyPin =
      StepAttr.formParams parent (fields.map StepAttr.clearEmptyPin) index := by
    cases index <;> simp [StepAttr.formParams, StepAttr.clearEmptyPin]
  rw [createParams, StepAttr.parentOf_formParams parent hf]
  cases parent with
  | some key =>
    obtain ⟨s, hs, hid⟩ := hparent
    have hfind : db.stepById key.toI = some s := Database.stepById_of_mem (Database.mem_projectSteps.mp hs).1 hid
    rw [Option.bind_some, hfind, if_pos (Option.isSome_some), hclear]
  | none =>
    -- there is no step yet, so the parent stays empty
    have hlast : lastStepId db p = none := by
      rw [lastStepId, show db.projectSteps p = [] from hparent]
      rfl
    have hset : StepAttr.setParent none (StepAttr.formParams none fields index) =
        StepAttr.formParams none fields index := by
      rw [StepAttr.setParent, if_pos (by simp [StepAttr.hasParent, StepAttr.formParams])]
      apply List.map_eq_self_of_forall
      intro a ha
      rw [StepAttr.formParams, List.mem_cons, List.mem_append] at ha
      rcases ha with rfl | ha | ha
      · rfl
      · have hplain := hf a ha
        cases a <;> first | rfl | cases hplain
      · cases index with
        | none => simp at ha
        | some k =>
          rw [Option.map_some, Option.toList_some, List.mem_singleton] at ha
          rw [ha]
    rw [Option.bind_none, hlast, Option.map_none, if_neg (by simp), hset, hclear]

/-- The ancestry that the step handed to `parent_id=` hands down. -/
def parentAncestry (db : Database) (parent : Option StepKey) : Option Text :=
  (parent.bind db.findStep).map Step.childAncestry

/-- What `create` builds from a form. -/
theorem buildStep_formParams (db : Database) (now p : Nat) {parent : Option StepKey}
    (hparent : StepRequest.ParentOk p db parent) (hf : StepRequest.PlainFields fields)
    (index : Option Int) :
    ∃ s, buildStep db now p (createParams db p (StepAttr.formParams parent fields index)) = some s ∧
      s.id = db.steps.next ∧ s.projectId = some p ∧ s.ancestry = parentAncestry db parent ∧
      s.name = StepAttr.nameOf fields := by
  rw [createParams_formParams db p hparent hf, buildStep, StepAttr.formParams, StepAttr.assignAll,
    List.foldlM_cons]
  -- the parent comes first
  have hone : ∃ s₀, StepAttr.assign db (blankStep db.steps.next p now) (.parentId parent) = some s₀ ∧
      s₀.ancestry = parentAncestry db parent ∧ s₀.name = [] := by
    cases parent with
    | none => exact ⟨_, rfl, rfl, rfl⟩
    | some key =>
      obtain ⟨s, hs, hid⟩ := hparent
      obtain ⟨hsome, hblank⟩ :=
        Database.isSome_findStep (Database.stepById_of_mem (Database.mem_projectSteps.mp hs).1 hid)
      obtain ⟨t, hfind⟩ := Option.isSome_iff_exists.mp hsome
      refine ⟨{ blankStep db.steps.next p now with ancestry := some t.childAncestry }, ?_, ?_, rfl⟩
      · rw [StepAttr.assign, hblank, if_neg Bool.false_ne_true, hfind]
      · rw [parentAncestry, Option.bind_some, hfind]
        rfl
  obtain ⟨s₀, h₀, hanc₀, hname₀⟩ := hone
  have hplain : ∀ a ∈ fields.map StepAttr.clearEmptyPin, a.plain = true := by
    intro a ha
    obtain ⟨b, hb, rfl⟩ := List.mem_map.mp ha
    exact StepAttr.plain_clearEmptyPin (hf b hb)
  obtain ⟨s₁, h₁, hanc₁, hname₁⟩ := StepAttr.assignAll_plain db hplain s₀
  rw [hname₀] at hname₁
  have hname : s₁.name = StepAttr.nameOf fields := by
    rw [← StepAttr.nameOf_clearEmptyPin]
    exact hname₁
  rw [StepAttr.assignAll] at h₁
  rw [h₀, Option.bind_eq_bind, Option.bind_some, List.foldlM_append, h₁, Option.bind_eq_bind,
    Option.bind_some]
  cases index with
  | none => exact ⟨_, rfl, rfl, rfl, hanc₁.trans hanc₀, hname⟩
  | some k => exact ⟨_, rfl, rfl, rfl, hanc₁.trans hanc₀, hname⟩

/-- The new row stands last among the steps of the project. -/
theorem projectSteps_afterCreate (u : User) (now : Nat) (html : Bool) (project : Project) (params : List StepAttr)
    (db : Database) {p : Nat} {s : Step} (hid : s.id = db.steps.next) (hproj : s.projectId = some p) :
    (afterCreate u now html project s params (insertStep db s)).projectSteps p =
      db.projectSteps p ++ [s.updated (some now) fun s => { s with publishedOn := some s.createdAt }] := by
  rw [Database.projectSteps, rows_afterCreate, insertStep, Table.rows_insert, List.map_append, List.filter_append,
    Database.projectSteps]
  congr 2
  · apply List.map_eq_self_of_forall
    intro r hr
    have hb := (db.steps.bound r hr).2
    exact if_neg fun h => ne_of_lt hb (h.trans hid)
  · rw [List.map_singleton, if_pos hid.symm, ← hid, List.filter_cons_of_pos, List.filter_nil]
    unfold Step.updated
    split <;> exact decide_eq_true hproj

/-- A create from a form is refused and changes nothing, or it adds the step it has built. -/
theorem create_formParams (u : User) (now : Nat) (html : Bool) (p : Nat) (db : Database)
    {parent : Option StepKey} (hparent : StepRequest.ParentOk p db parent)
    (hf : StepRequest.PlainFields fields) (index : Option Int) :
    let db' := (create u now html p (StepAttr.formParams parent fields index) db).2
    (db' = db ∧ ¬ (db.projects.find? p ≠ none ∧ db.author p u.id = true ∧
      blank (StepAttr.nameOf fields) = false ∧ validFormat (parentAncestry db parent) = true)) ∨
    ∃ x, db'.projectSteps p = db.projectSteps p ++ [x] ∧ x.id = db.steps.next ∧
      x.ancestry = parentAncestry db parent ∧ x.name = StepAttr.nameOf fields ∧
      blank (StepAttr.nameOf fields) = false ∧
      x.position = index.getD (db.projectSteps p).length := by
  obtain ⟨s, hs, hid, hproj, hanc, hname⟩ := buildStep_formParams db now p hparent hf index
  have hposition : createPosition db p (createParams db p (StepAttr.formParams parent fields index)) =
      index.getD (db.projectSteps p).length := by
    rw [createParams_formParams db p hparent hf, createPosition, StepAttr.positionOf_formParams]
    intro a ha
    obtain ⟨b, hb, rfl⟩ := List.mem_map.mp ha
    exact StepAttr.plain_clearEmptyPin (hf b hb)
  dsimp only
  rcases create_cases u now html p (StepAttr.formParams parent fields index) db with
    ⟨hno, hsame⟩ | ⟨project, s', hproject, hs', hauth, hvalid, hcreate⟩
  · refine Or.inl ⟨hsame, ?_⟩
    -- everything `create` asks for is there, so it would have gone through
    intro ⟨hp, hauthor, hblank, hfmt⟩
    obtain ⟨project, hproject⟩ := Option.ne_none_iff_exists'.mp hp
    have hid' : project.id = p := (Table.find?_eq_some.mp hproject).2
    have hauth : Ability.createStep db u s = some true := by
      rw [Ability.createStep, hproj, Ability.authorOf, Option.bind_some, hproject, Option.map_some,
        hid', hauthor]
    have hvalid : s.validNew = true := by
      rw [Step.validNew, hname, hanc, hblank, hfmt]
      rfl
    exact hno (create_ok hproject hs hauth hvalid html)
  · right
    rw [hs, Option.some.injEq] at hs'
    subst hs'
    rw [Step.validNew, Bool.and_eq_true, Bool.not_eq_true', hname] at hvalid
    -- the row as inserted, and after `published_on` has been set
    refine ⟨({ s with position := index.getD (db.projectSteps p).length } : Step).updated (some now)
      fun s => { s with publishedOn := some s.createdAt }, ?_, ?_, ?_, ?_, hvalid.1, ?_⟩
    · rw [hcreate, hposition]
      exact projectSteps_afterCreate u now html project _ db hid hproj
    · rw [Step.updated_id _ (by intro _; rfl)]
      exact hid
    all_goals
      unfold Step.updated
      split
    · exact hanc
    · exact hanc
    · exact hname
    · exact hname
    · rfl
    · rfl

end StepsController

/-! ## What each request makes of the tree -/

namespace Database

/-- `db'` differs from `db` at most in the steps and the decisions. -/
def SameButSteps (db db' : Database) : Prop :=
  ∃ steps decisions, db' = { db with steps, decisions }

namespace SameButSteps

theorem refl (db : Database) : SameButSteps db db := ⟨db.steps, db.decisions, rfl⟩

theorem trans {a b c : Database} (h : SameButSteps a b) (h' : SameButSteps b c) : SameButSteps a c := by
  obtain ⟨ss, ds, rfl⟩ := h
  obtain ⟨ss', ds', rfl⟩ := h'
  exact ⟨ss', ds', rfl⟩

theorem users {db db' : Database} (h : SameButSteps db db') : db'.users = db.users := by
  obtain ⟨ss, ds, rfl⟩ := h
  rfl

theorem edits {db db' : Database} (h : SameButSteps db db') : db'.edits = db.edits := by
  obtain ⟨ss, ds, rfl⟩ := h
  rfl

theorem storeRow (db : Database) (stamp : Option Nat) (s : Step) : SameButSteps db (db.storeRow stamp s) :=
  ⟨_, _, rfl⟩

theorem storeStep (db : Database) (stamp : Option Nat) (s : Step) :
    SameButSteps db (db.storeStep stamp s) := by
  unfold Database.storeStep checkDecision
  split
  · exact ⟨_, _, rfl⟩
  · split
    · exact ⟨_, _, rfl⟩
    · split <;> exact ⟨_, _, rfl⟩

theorem updateStep (db : Database) (stamp : Option Nat) (i : Nat) (f : Step → Step) :
    SameButSteps db (db.updateStep stamp i f) := by
  unfold Database.updateStep
  split
  · exact refl db
  · unfold saveStep
    split
    · exact storeStep _ _ _
    · exact refl db

theorem foldl_updateEntry (es : List MapEntry) (db : Database) :
    SameButSteps db (es.foldl StepsController.updateEntry db) := by
  induction es generalizing db with
  | nil => exact refl db
  | cons e es ih => exact ((updateStep _ _ _ _).trans (updateStep _ _ _ _)).trans (ih _)

end SameButSteps

end Database

namespace StepTree

variable {db : Database} {p : Nat} {free : Int}

/-- Below a step of the tree a new step gets a well-formed ancestry, and the step as its parent. -/
theorem parentAncestry (h : StepTree free (db.projectSteps p)) {q : Step} {key : StepKey}
    (hq : q ∈ db.projectSteps p) (hfind : db.findStep key = some q) :
    StepsController.parentAncestry db (some key) = some q.childAncestry ∧
      validFormat (some q.childAncestry) = true := by
  have hchild : ChildOf q { q with ancestry := some q.childAncestry } :=
    ChildOf.of_childAncestry rfl (h.column hq)
  obtain ⟨l, hl⟩ := hchild.path
  rw [Option.some.injEq] at hl
  refine ⟨by rw [StepsController.parentAncestry, Option.bind_some, hfind]; rfl, ?_⟩
  rw [hl]
  exact pattern_render (by simp)

variable {fields : List StepAttr} {parent : Option StepKey}

/-- A create that goes through puts the new step into the free place behind its parent. -/
theorem create (h : StepTree free (db.projectSteps p)) (hparent : StepRequest.ParentOk p db parent)
    (h0 : 0 ≤ free) (hle : free ≤ (db.projectSteps p).length)
    (hfinds : StepRequest.FindsParent p db parent free) {x : Step}
    (hid : x.id = db.steps.next) (hanc : x.ancestry = StepsController.parentAncestry db parent)
    (hname : blank x.name = false) (hpos : x.position = free) :
    StepTree ((db.projectSteps p).length + 1) (db.projectSteps p ++ [x]) := by
  have hfirst : parent = none → free = 0 := fun hp => by
    subst hp
    rw [show db.projectSteps p = [] from hparent] at hle
    simp at hle
    omega
  refine h.concat ?_ (by rw [hid]; exact db.steps.next_pos) hname hpos h0 hle ?_ ?_
  · intro t ht heq
    have hb : t.id < db.steps.next := (db.steps.bound t (Database.mem_projectSteps.mp ht).1).2
    omega
  · intro hz
    cases parent with
    | none => simp [Step.topLevel, hanc, StepsController.parentAncestry]
    | some key =>
      obtain ⟨t, ht, -, hlt⟩ := hfinds key rfl
      have hr := (h.range t ht).1
      omega
  · intro hz
    cases parent with
    | none => exact absurd (hfirst rfl) hz
    | some key =>
      obtain ⟨t, ht, hfind, hlt⟩ := hfinds key rfl
      refine ⟨t, ht, hlt, ChildOf.of_childAncestry ?_ (h.column ht)⟩
      rw [hanc, (h.parentAncestry ht hfind).1]

/-- The steps of the project after `d` is destroyed and the positions above it have moved down. -/
theorem projectSteps_afterDestroy (h : StepTree (db.projectSteps p).length (db.projectSteps p))
    {db' : Database} {g : Step → Step} {d : Step} (hd : d ∈ db.projectSteps p)
    (hrows : db'.projectSteps p = ((db.projectSteps p).filter (·.id ≠ d.id)).map g)
    (hg : ∀ s ∈ db.projectSteps p, (g s).position = s.position) (u : User) (now : Nat)
    {project : Project} (hproject : project.id = p) :
    (afterDestroy u now project d db').projectSteps p =
      ((db.projectSteps p).filter (·.id ≠ d.id)).map fun s =>
        shifted now p (d.position + 1) (((db.projectSteps p).length : Int) - 1 - d.position).toNat
          (g s) := by
  subst hproject
  have hlen : ((db'.projectSteps project.id).length : Int) =
      ((db.projectSteps project.id).length : Int) - 1 := by
    rw [hrows, List.length_map]
    exact h.length_filter_ne hd
  have hposs : (db'.projectSteps project.id).map Step.position =
      ((db.projectSteps project.id).filter (·.id ≠ d.id)).map Step.position := by
    rw [hrows, List.map_map]
    apply List.map_congr_left
    intro s hs
    exact hg s (List.mem_of_mem_filter hs)
  have hrowsd := rows_afterDestroy u now project d db'
    (by rw [hposs]; exact h.positions.sublist (List.filter_sublist.map _)) (by
      intro s hs heq
      have hmem := List.mem_map_of_mem (f := Step.position) hs
      rw [hposs] at hmem
      obtain ⟨t, ht, hpos⟩ := List.mem_map.mp hmem
      rw [List.mem_filter, decide_eq_true_eq] at ht
      have htd := h.eq_of_position ht.1 hd (by omega)
      exact ht.2 (congrArg Step.id htd))
  rw [projectSteps_of_shifted hrowsd, hrows, List.map_map, ← hlen, hrows]
  rfl

/-- Where a step stands after the positions above `d` have moved down. -/
theorem position_afterDestroy (h : StepTree (db.projectSteps p).length (db.projectSteps p)) {d s s' : Step}
    (hs : s ∈ db.projectSteps p) (hproj : s'.projectId = some p) (hpos : s'.position = s.position)
    (now : Nat) :
    (shifted now p (d.position + 1) (((db.projectSteps p).length : Int) - 1 - d.position).toNat
      s').position = if d.position < s.position then s.position - 1 else s.position := by
  have hr := h.range s hs
  rw [position_shifted hproj, hpos]
  split <;> split <;> omega

theorem adopted_rest (now : Nat) (d s : Step) :
    (Database.adopted now d s).id = s.id ∧ (Database.adopted now d s).name = s.name ∧
      (Database.adopted now d s).position = s.position ∧
      (Database.adopted now d s).projectId = s.projectId := by
  unfold Database.adopted
  split <;> exact ⟨rfl, rfl, rfl, rfl⟩

theorem projectSteps_destroyStep (db : Database) (p now : Nat) (d : Step) :
    ((forgetStep db d).destroyStep now d).projectSteps p =
      ((db.projectSteps p).filter (·.id ≠ d.id)).map (Database.adopted now d) := by
  rw [Database.projectSteps, Database.rows_destroyStep, steps_forgetStep, List.filter_map,
    List.filter_map, List.filter_filter, Database.projectSteps, List.filter_filter]
  congr 1
  apply List.filter_congr
  intro s _
  rw [Bool.and_comm]
  simp only [Function.comp, adopted_rest]

/-- The gem takes a step below the root out of every path. -/
theorem erased_adopted (h : StepTree (db.projectSteps p).length (db.projectSteps p)) {d s : Step}
    (hd : d ∈ db.projectSteps p) (hd0 : d.position ≠ 0) (hs : s ∈ db.projectSteps p) (now : Nat) :
    s.Erased d.id (Database.adopted now d s) := by
  obtain ⟨ld, hne, hld, -⟩ := h.path hd hd0
  by_cases hs0 : s.position = 0
  · have ht := h.root s hs hs0
    rw [Database.adopted, if_neg (by simp [not_isDescendant_root hne hld ht])]
    exact .of_topLevel ht (h.pos d hd)
  · refine .of_path (adopted_rest now d s).1 ?_ ?_
    · rw [Bool.eq_false_iff]
      exact fun ht => hs0 ((h.topLevel_iff_position hs).mp ht)
    · intro l hl
      have hiff := h.isDescendant_iff hd hd0 hne hld hs hs0 hl
      rw [Database.adopted]
      by_cases hm : d.id ∈ l
      · rw [if_pos (hiff.mpr hm), hl, adopt_render]
      · rw [if_neg fun hdesc => hm (hiff.mp hdesc), hl, filter_ne_of_notMem hm]

/-- The rest of `destroy`, once the rows of the project are those of `f` and the gem has taken `d` out of
every path. -/
theorem afterDestroy_destroyStep (h : StepTree (db.projectSteps p).length (db.projectSteps p)) {d : Step}
    (hd : d ∈ db.projectSteps p)
    (hone : d.position = 0 → ∀ s ∈ db.projectSteps p, ∀ t ∈ db.projectSteps p, ChildOf d s → ChildOf d t → s = t)
    {db' : Database} {f : Step → Step} (hdb : db'.projectSteps p = (db.projectSteps p).map f)
    (hf : ∀ s, (f s).id = s.id ∧ (f s).name = s.name ∧ (f s).position = s.position ∧
      (f s).projectId = s.projectId) (u : User) (now : Nat) {project : Project} (hproject : project.id = p)
    (herased : ∀ s ∈ db.projectSteps p, s ≠ d → s.Erased d.id (Database.adopted now d (f s))) :
    let db'' := afterDestroy u now project d ((forgetStep db' d).destroyStep now d)
    StepTree (db''.projectSteps p).length (db''.projectSteps p) := by
  have hrows : ((forgetStep db' d).destroyStep now d).projectSteps p =
      ((db.projectSteps p).filter (·.id ≠ d.id)).map fun s => Database.adopted now d (f s) := by
    rw [projectSteps_destroyStep, hdb, List.filter_map, List.map_map]
    congr 1
    apply List.filter_congr
    intro s _
    simp [(hf s).1]
  dsimp only
  rw [h.projectSteps_afterDestroy hd hrows
    (fun s _ => (adopted_rest now d (f s)).2.2.1.trans (hf s).2.2.1) u now hproject]
  have htree := h.remove hd hone
    (g := fun s => shifted now p (d.position + 1)
      (((db.projectSteps p).length : Int) - 1 - d.position).toNat (Database.adopted now d (f s)))
    (fun s hs hsd => (herased s hs hsd).congr (shifted_id ..) (shifted_ancestry ..))
    (fun s _ _ => by rw [shifted_name, (adopted_rest now d (f s)).2.1, (hf s).2.1])
    (fun s hs _ => h.position_afterDestroy hs
      (((adopted_rest now d (f s)).2.2.2.trans (hf s).2.2.2).trans (Database.mem_projectSteps.mp hs).2)
      ((adopted_rest now d (f s)).2.2.1.trans (hf s).2.2.1) now)
  rw [List.length_map, h.length_filter_ne hd]
  exact htree

/-- A destroy off the root hands the children of the step to its parent. -/
theorem destroy (h : StepTree (db.projectSteps p).length (db.projectSteps p)) {d : Step} {key : StepKey}
    (hfind : db.findStep key = some d) (hd : d ∈ db.projectSteps p) (hd0 : d.topLevel = false) (u : User) (now : Nat) :
    StepTree (((StepsController.destroy u now p key db).2).projectSteps p).length
      (((StepsController.destroy u now p key db).2).projectSteps p) := by
  have hpos0 : d.position ≠ 0 := fun h0 => by
    rw [h.root d hd h0] at hd0
    cases hd0
  have hnot0 : d.ancestry ≠ some ['0'] := fun ha => by
    rw [topLevel_iff.mpr (Or.inr (Or.inr ha))] at hd0
    cases hd0
  have hguard : rootGuard db p d = false := by simp [rootGuard, hnot0]
  rw [StepsController.destroy]
  cases hproject : db.projects.find? p with
  | none => exact h
  | some project =>
    dsimp only
    rw [hfind]
    dsimp only
    rcases authorize_cases (Ability.destroyStep db u d) db _ with ⟨-, heq⟩ | ⟨-, heq⟩
    · rw [heq, hguard, if_neg (by simp), if_neg hnot0, if_pos rfl]
      exact h.afterDestroy_destroyStep hd (fun h0 => absurd h0 hpos0) (f := id) (by simp)
        (fun s => ⟨rfl, rfl, rfl, rfl⟩) u now (Table.find?_eq_some.mp hproject).2
        (fun s hs _ => h.erased_adopted hd hpos0 hs now)
    · rw [heq]
      exact h

end StepTree

/-- Drops rearrange the steps below the root and lose none. -/
theorem foldl_drop {r : Nat} {k : Forest Nat} (hn : (Forest.node r k .nil).labels.Nodup)
    (drops : List (Nat × Nat)) :
    ∃ k', drops.foldl (fun d e => d.drop (toS e.1) (toS e.2))
        (Dom.org ((Forest.node r k .nil).map toS)) = Dom.org ((Forest.node r k' .nil).map toS) ∧
      (Forest.node r k' .nil).labels.Perm (Forest.node r k .nil).labels := by
  induction drops generalizing k with
  | nil => exact ⟨k, rfl, List.Perm.refl _⟩
  | cons e drops ih =>
    obtain ⟨k₁, hk₁⟩ := Forest.drop_node_nil r k e.1 e.2
    have hperm := Forest.labels_drop_perm hn e.1 e.2
    rw [hk₁] at hperm
    obtain ⟨k', hfold, hperm'⟩ := ih (hperm.nodup_iff.mpr hn)
    refine ⟨k', ?_, hperm'.trans hperm⟩
    have hlabels : ((Forest.node r k .nil).map toS).labels.Nodup := by
      rw [Forest.labels_map]
      exact hn.map toS_injective
    rw [List.foldl_cons, Dom.drop_org hlabels, Forest.map_drop toS_injective, hk₁, hfold]

namespace StepTree

variable {db : Database} {p : Nat}

theorem updateAncestry_eq (p : Nat) (es : List MapEntry) (db : Database) :
    (updateAncestry p es db).2 = db ∨
      (db.projects.find? p ≠ none ∧ (updateAncestry p es db).2 = es.foldl updateEntry db) := by
  rw [updateAncestry]
  cases hp : db.projects.find? p with
  | none => exact Or.inl rfl
  | some project => exact Or.inr ⟨by simp, rfl⟩

theorem drawList_nil (h : db.projectSteps p = []) :
    drawList (db.orderedSteps p) = some (.ul ['0'] .nil .nil) := by
  have hord : db.orderedSteps p = [] := by
    rw [Database.orderedSteps, h]
    rfl
  rw [hord]
  rfl

theorem perform_saveMap (h : StepTree (db.projectSteps p).length (db.projectSteps p))
    (hnames : StepRequest.NamesShown p db) (drops : List (Nat × Nat)) :
    let db' := StepRequest.perform p db (.saveMap drops)
    StepTree (db'.projectSteps p).length (db'.projectSteps p) := by
  dsimp only
  rw [StepRequest.perform, StepRequest.droppedMap]
  by_cases hne : db.projectSteps p = []
  · -- nothing is drawn and nothing is written
    have hdrops : drops.foldl (fun d e => d.drop (toS e.1) (toS e.2)) (.ul ['0'] .nil .nil) =
        Dom.ul ['0'] .nil .nil := by
      induction drops with
      | nil => rfl
      | cons e drops ih =>
        rw [List.foldl_cons, Dom.drop, if_neg (by simp [Dom.lis]), ih]
    rw [drawList_nil hne, Option.map_some, hdrops]
    rcases updateAncestry_eq p (createStepMapArray (.ul ['0'] .nil .nil)) db with heq | ⟨-, heq⟩
    · dsimp only
      rw [heq]
      exact h
    · dsimp only
      rw [heq]
      exact h
  · obtain ⟨r, k, -, hdraw, hperm, hr⟩ := h.draw hne
    obtain ⟨k', hfold, hperm'⟩ := foldl_drop (hperm.nodup_iff.mpr h.ids) drops
    rw [drawList_eq_nestList hnames, hdraw, Option.map_some, hfold]
    dsimp only
    rcases updateAncestry_eq p (createStepMapArray (.org ((Forest.node r k' .nil).map toS))) db with
      heq | ⟨-, heq⟩
    · rw [heq]
      exact h
    · rw [heq]
      have hsave := h.save (hperm'.trans hperm) hr
      rw [projectSteps_foldl_updateEntry] at hsave ⊢
      rw [List.length_map]
      exact hsave

variable {fields : List StepAttr}

theorem perform_create (h : StepTree (db.projectSteps p).length (db.projectSteps p)) {parent : Option StepKey}
    (hparent : StepRequest.ParentOk p db parent) (hf : StepRequest.PlainFields fields)
    (hfinds : StepRequest.FindsParent p db parent (db.projectSteps p).length) (u : User) (now : Nat) (html : Bool) :
    let db' := StepRequest.perform p db (.create u now html parent fields)
    StepTree (db'.projectSteps p).length (db'.projectSteps p) := by
  dsimp only
  rw [StepRequest.perform]
  rcases create_formParams u now html p db hparent hf none with
    ⟨heq, -⟩ | ⟨x, heq, hid, hanc, hname, hblank, hpos⟩
  · rw [heq]
    exact h
  · rw [heq, List.length_append, List.length_singleton]
    exact h.create hparent (Int.natCast_nonneg _) (le_refl _) hfinds hid hanc (by rw [hname]; exact hblank) hpos

/-- The map of the web form, and the steps once `saveOrdering` has written it. -/
theorem formMap (h : StepTree (db.projectSteps p).length (db.projectSteps p)) (hnames : StepRequest.NamesShown p db)
    {parent : Option Nat} (hparent : StepRequest.ParentOk p db (parent.map .ofId)) :
    ∃ (d : Dom) (gap : Nat), StepRequest.formMap p db parent = some d ∧
      d.position "newStep".toList = gap ∧ gap ≤ (db.projectSteps p).length ∧
      let db' := (createStepMapArray d).foldl updateEntry db
      StepTree gap (db'.projectSteps p) ∧ StepRequest.ParentOk p db' (parent.map .ofId) ∧
      (∀ q ∈ db'.projectSteps p, parent = some q.id → q.position < gap) ∧
      (∀ s ∈ db.projectSteps p, ∃ l, (s.id, l) ∈ (drawnForest (db.orderedSteps p)).paths [] ∧
        ((createStepMapArray d).foldl remapped s).ancestry = some (Dom.ancestryText l)) ∧
      ∀ e ∈ createStepMapArray d, (toI e.key).toNat < db.steps.next := by
  cases parent with
  | none =>
    -- without a parent the project is empty, and so is the map
    have hnil : db.projectSteps p = [] := hparent
    have hmap : ∀ es : List MapEntry, (es.foldl updateEntry db).projectSteps p = [] := by
      intro es
      rw [projectSteps_foldl_updateEntry, hnil]
      rfl
    refine ⟨loadProcessMap (.ul ['0'] .nil .nil) none, 0, ?_, rfl, Nat.zero_le _, ?_, hmap _, ?_, ?_, ?_⟩
    · rw [StepRequest.formMap, drawList_nil hnil]
      rfl
    · rw [hmap]
      rw [hnil] at h
      exact h
    · intro q _ hq
      cases hq
    · rw [hnil]
      intro s hs
      cases hs
    · have hzero : ∀ e ∈ createStepMapArray (loadProcessMap (.ul ['0'] .nil .nil) none),
          (toI e.key).toNat = 0 := by decide
      intro e he
      rw [hzero e he]
      exact db.steps.next_pos
  | some q =>
    obtain ⟨t, ht, hid⟩ := hparent
    rw [StepKey.ofId, StepKey.toI, toI_toS, Int.natCast_inj] at hid
    subst hid
    -- the New Step item is put below the parent that was chosen
    obtain ⟨r, k, hforest, hdraw, hperm, hr⟩ := h.draw (List.ne_nil_of_mem ht)
    obtain ⟨gap, hle, hpos, htree, hlt, hpaths, hkeys⟩ := h.saveOrdering hperm hr (List.mem_map_of_mem ht)
    refine ⟨_, gap, by rw [StepRequest.formMap, drawList_eq_nestList hnames, hdraw, Option.map_some], hpos, hle, htree,
      ?_, ?_, ?_, hkeys⟩
    · unfold StepRequest.ParentOk
      rw [Option.map_some]
      dsimp only
      rw [projectSteps_foldl_updateEntry, StepKey.ofId, StepKey.toI, toI_toS]
      exact ⟨_, List.mem_map_of_mem ht, congrArg Int.ofNat (foldl_remapped_id _ t)⟩
    · intro s hs hq
      rw [Option.some.injEq] at hq
      exact hlt s hs hq.symm
    · rw [hforest]
      exact hpaths

/-- The place of the New Step item is filled by the step, unless the create is refused; then the place
has to be the last one. -/
theorem perform_submitForm (h : StepTree (db.projectSteps p).length (db.projectSteps p))
    (hnames : StepRequest.NamesShown p db) {parent : Option Nat} (hparent : StepRequest.ParentOk p db (parent.map .ofId))
    (hf : StepRequest.PlainFields fields) (u : User) (now : Nat) (hok : StepRequest.FormOk p db u parent fields)
    (hfinds : StepRequest.FindsSteps p db (.submitForm u now parent fields)) :
    let db' := StepRequest.perform p db (.submitForm u now parent fields)
    StepTree (db'.projectSteps p).length (db'.projectSteps p) := by
  dsimp only
  rw [StepRequest.perform]
  by_cases hproject : db.projects.find? p = none
  · -- without the project both requests end at the filter
    cases StepRequest.formMap p db parent with
    | none => exact h
    | some d =>
      dsimp only
      rw [updateAncestry, hproject]
      dsimp only
      rw [StepsController.create, hproject]
      exact h
  · obtain ⟨d, gap, hmap, hpos, hle, htree, hparent', -, -, -⟩ := h.formMap hnames hparent
    have hfinds := hfinds d hmap
    have hwrite : (updateAncestry p (createStepMapArray d) db).2 =
        (createStepMapArray d).foldl updateEntry db := by
      obtain ⟨project, hp⟩ := Option.ne_none_iff_exists'.mp hproject
      rw [updateAncestry, hp]
    rw [hmap]
    dsimp only
    rw [hwrite, hpos] at hfinds ⊢
    generalize hdb : (createStepMapArray d).foldl updateEntry db = db' at htree hparent' hfinds
    have hlen : (db'.projectSteps p).length = (db.projectSteps p).length := by
      rw [← hdb, projectSteps_foldl_updateEntry, List.length_map]
    have hsame : Database.SameButSteps db db' :=
      hdb ▸ Database.SameButSteps.foldl_updateEntry (createStepMapArray d) db
    rcases create_formParams u now true p db' hparent' hf (some (gap : Int)) with
      ⟨heq, hno⟩ | ⟨x, heq, hid, hanc, hname, hblank, hxpos⟩
    · rw [heq]
      rcases hok with ⟨hauthor, hblank⟩ | hlast
      · -- nothing `create` asks for is missing
        refine absurd ⟨?_, ?_, hblank, ?_⟩ hno
        · obtain ⟨ss, ds, rfl⟩ := hsame
          exact hproject
        · obtain ⟨ss, ds, rfl⟩ := hsame
          exact hauthor
        · cases parent with
          | none => rfl
          | some i =>
            obtain ⟨q, hq, hfind, -⟩ := hfinds _ rfl
            obtain ⟨heq, hformat⟩ := htree.parentAncestry hq hfind
            rw [Option.map_some, heq]
            exact hformat
      · have hgap : (gap : Int) = (db.projectSteps p).length := by
          rw [← hpos]
          exact hlast d (by rw [hmap]; rfl)
        rw [hlen, ← hgap]
        exact htree
    · rw [heq, List.length_append, List.length_singleton]
      refine htree.create hparent' (Int.natCast_nonneg _) (by rw [hlen]; exact_mod_cast hle) hfinds hid
        hanc (by rw [hname]; exact hblank) hxpos

end StepTree

/-! ## The shape of the steps -/

/-- The steps of a project are numbered without a gap from the root on, every other step comes after
the step it names as its parent, and below the root it carries the ancestry of its parent and the
parent's id. -/
structure TreeShaped (db : Database) (p : Nat) : Prop where
  unbroken : db.broken p = false
  positions : (db.orderedSteps p).map Step.position =
    (List.range (db.projectSteps p).length).map Int.ofNat
  root : ∀ s ∈ db.projectSteps p, s.topLevel = true ↔ s.position = 0
  parent : ∀ s ∈ db.projectSteps p, s.topLevel = false →
    ∃ q ∈ db.projectSteps p, q.position < s.position ∧ s.ancestry.map getParent = some (toS q.id)
  child : ∀ q ∈ db.projectSteps p, q.topLevel = false → ∀ c ∈ db.projectSteps p,
    c.ancestry.map getParent = some (toS q.id) →
      c.ancestry = q.ancestry.map fun a => a ++ '/' :: toS q.id

namespace Database

variable {db : Database} {p : Nat}

theorem map_position (h : ((db.projectSteps p).map Step.position).Perm
      ((List.range (db.projectSteps p).length).map Int.ofNat)) :
    (db.orderedSteps p).map Step.position =
      (List.range (db.projectSteps p).length).map Int.ofNat := by
  apply map_orderedSteps_eq id
  · intro s _
    rfl
  · exact h
  · rw [List.pairwise_map]
    exact List.pairwise_lt_range.imp fun hlt => Int.ofNat_lt.mpr hlt

theorem unbroken (h : ((db.projectSteps p).map Step.position).Perm
      ((List.range (db.projectSteps p).length).map Int.ofNat)) :
    db.broken p = false := by
  have hnod : ((List.range (db.projectSteps p).length).map Int.ofNat).Nodup :=
    List.nodup_range.map fun _ _ => Int.ofNat.inj
  have hzero : (((List.range (db.projectSteps p).length).map Int.ofNat).filter (· = 0)).length ≤ 1 := by
    have hcount := List.nodup_iff_count_le_one.mp hnod 0
    rw [List.count_eq_length_filter] at hcount
    refine le_trans (le_of_eq ?_) hcount
    congr 1
  unfold broken
  rw [map_position h]
  dsimp only
  split
  · rfl
  · simp only [List.length_map, List.length_range, bne_self_eq_false, Bool.false_or,
      decide_eq_false_iff_not]
    omega

end Database

namespace StepTree

variable {db : Database} {p : Nat}

theorem treeShaped (h : StepTree (db.projectSteps p).length (db.projectSteps p)) :
    TreeShaped db p where
  unbroken := Database.unbroken h.perm_positions
  positions := Database.map_position h.perm_positions
  root := fun s hs => h.topLevel_iff_position hs
  parent := by
    intro s hs ht
    have hp : s.position ≠ 0 := fun h0 => by
      rw [h.root s hs h0] at ht
      cases ht
    obtain ⟨q, hq, hlt, hc⟩ := h.child s hs hp
    exact ⟨q, hq, hlt, hc.getParent_eq⟩
  child := by
    intro q hq hq0 c hc hpar
    obtain ⟨a, ha, hpa⟩ := Option.map_eq_some_iff.mp hpar
    have hcp : c.position ≠ 0 := fun h0 => by
      have ht := h.root c hc h0
      rw [Step.not_topLevel ha hpa (h.pos q hq)] at ht
      cases ht
    obtain ⟨r, hr, -, hchild⟩ := h.child c hc hcp
    -- the parent is the step the last component names
    have hrq : r = q := h.eq_of_id hr hq (by
      have hpr := hchild.getParent_eq
      rw [hpar, Option.some.injEq, toS_inj] at hpr
      exact hpr.symm)
    subst hrq
    rcases hchild with ⟨l, hl, hra, hca⟩ | ⟨ht, -⟩
    · rw [hca, hra, Option.map_some, render_concat hl]
    · rw [ht] at hq0
      cases hq0

/-- Each request keeps the tree, so a run does. -/
theorem after_run (h : StepTree (db.projectSteps p).length (db.projectSteps p)) {rs : List StepRequest}
    (hrs : Run.Along (StepRequest.perform p) (StepRequest.OffRoot p) db rs)
    (hgap : Run.Along (StepRequest.perform p) (StepRequest.LeavesNoGap p) db rs)
    (hnames : Run.Along (StepRequest.perform p) (StepRequest.ShowsNames p) db rs)
    (hfinds : Run.Along (StepRequest.perform p) (StepRequest.FindsSteps p) db rs) :
    let db' := Run.after (StepRequest.perform p) db rs
    StepTree (db'.projectSteps p).length (db'.projectSteps p) := by
  refine Run.invariant (P := fun db r => StepRequest.OffRoot p db r ∧ StepRequest.LeavesNoGap p db r ∧
      StepRequest.ShowsNames p db r ∧ StepRequest.FindsSteps p db r)
    (I := fun db => StepTree (db.projectSteps p).length (db.projectSteps p)) ?_ h
    (hrs.and (hgap.and (hnames.and hfinds)))
  intro db r h ⟨hoff, hno, hnames, hfinds⟩
  cases r with
  | create u now html parent fields => exact h.perform_create hoff.1 hoff.2 hfinds u now html
  | submitForm u now parent fields => exact h.perform_submitForm hnames hoff.1 hoff.2 u now hno hfinds
  | saveMap drops => exact h.perform_saveMap hnames drops
  | destroy u now key =>
    rcases destroy_spec u now p key db with ⟨-, -, hsame⟩ | ⟨-, d, -, hfind, hallowed, hguard, -, -⟩
    · have hsame : StepRequest.perform p db (.destroy u now key) = db := hsame
      rw [hsame]
      exact h
    · obtain ⟨hd, hd0⟩ := hfinds d hfind hallowed hguard
      exact h.destroy hfind hd hd0 u now

end StepTree

/-- Along every run from a project without steps, of creates, saves of the map and destroys off the root in which no
web form leaves a gap, the maps show the names of all steps and no id is taken for the position of a wrong step, the
steps keep the shape of a tree. -/
theorem steps_tree_shaped (db : Database) (p : Nat) (hempty : db.projectSteps p = [])
    (rs : List StepRequest)
    (hrs : Run.Along (StepRequest.perform p) (StepRequest.OffRoot p) db rs)
    (hgap : Run.Along (StepRequest.perform p) (StepRequest.LeavesNoGap p) db rs)
    (hnames : Run.Along (StepRequest.perform p) (StepRequest.ShowsNames p) db rs)
    (hfinds : Run.Along (StepRequest.perform p) (StepRequest.FindsSteps p) db rs) :
    TreeShaped (Run.after (StepRequest.perform p) db rs) p := by
  have hstart : StepTree (db.projectSteps p).length (db.projectSteps p) := by
    rw [hempty]
    exact StepTree.empty
  exact (hstart.after_run hrs hgap hnames hfinds).treeShaped

/-- A project of two collaborators, without steps. -/
def Database.twoAuthors : Database :=
  { oneProject "Lamp".toList none with
    users := Database.adaAndBob
    projectsUsers := [(1, 1), (1, 2)] }

/-- The sample project without steps; its first step gets the id 11, behind those of steps that are gone. -/
def Database.stepless : Database :=
  { oneProject "Lamp".toList none with steps := .ofRows [] 11 (by decide) }

/-- Step 11, steps 12 and 14 below it and step 13 below 12. -/
def fourSteps : List StepRequest :=
  [.create ada 0 false none [.name "Saw".toList],
    .create ada 1 false (some (.ofId 11)) [.name "Sand".toList],
    .create ada 2 false (some (.ofId 12)) [.name "Glue".toList],
    .create ada 3 false (some (.ofId 11)) [.name "Paint".toList]]

theorem steps_tree_shaped_mixed_run :
    let rs := fourSteps ++ [.submitForm ada 4 (some 12) [.name "Drill".toList], .saveMap [(14, 15)],
      .destroy ada 6 (.ofId 12)]
    let db := Run.after (StepRequest.perform 1) .stepless rs
    (db.orderedSteps 1).map (fun s => (s.id, s.ancestry)) =
      [(11, some ['0']), (13, some "11".toList), (15, some "11".toList), (14, some "11/15".toList)] ∧
    TreeShaped db 1 :=
  ⟨by decide +kernel,
    steps_tree_shaped .stepless 1 rfl _ (by decide +kernel) (by decide +kernel) (by decide +kernel) (by decide +kernel)⟩

/-- A web form with a blank name below step 12: the map is saved with the New Step item in front of
step 14, the create is refused, and position 3 stays empty. -/
theorem refused_form_leaves_gap :
    let db := Database.stepless
    let rs := fourSteps ++ [.submitForm ada 4 (some 12) [.name []]]
    db.projectSteps 1 = [] ∧
    Run.Along (StepRequest.perform 1) (StepRequest.OffRoot 1) db rs ∧
    (Run.after (StepRequest.perform 1) db rs).broken 1 = true ∧
    ¬ TreeShaped (Run.after (StepRequest.perform 1) db rs) 1 := by
  refine ⟨rfl, by decide +kernel, by decide +kernel, ?_⟩
  intro h
  exact absurd h.unbroken (by decide +kernel)
