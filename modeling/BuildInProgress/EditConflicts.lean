import BuildInProgress.EditingSessions
import BuildInProgress.Lib.Announcing
import BuildInProgress.Lib.Interleaving
import BuildInProgress.Lib.Rows

/-!
# Editing conflicts

Nobody is kept from editing a step that somebody else is editing.  `edit_redirect`, which the browser asks before it
opens the form, names the others of the step that it finds, and so does the form, which is rendered after `edit` has
written that its user is editing.
-/

open Text

namespace Database

/-- `step.edits` -/
def stepEdits (db : Database) (s : Nat) : List Edit := db.edits.rows.filter (·.stepId = some s)

/-- The edits of the step belong to different users, whose accounts are there. -/
structure Attributed (db : Database) (s : Nat) : Prop where
  user : ∀ e ∈ db.stepEdits s, ∃ u ∈ db.users.rows, e.userId = some u.id
  single : ∀ e ∈ db.stepEdits s, ∀ e' ∈ db.stepEdits s, e.userId = e'.userId → e = e'

/-- The user with the id `i` is editing the step. -/
def Editing (db : Database) (s i : Nat) : Prop := ∃ e ∈ db.editsOf i s, e.startedEditingAt.isSome = true

theorem mem_stepEdits {db : Database} {s : Nat} {e : Edit} :
    e ∈ db.stepEdits s ↔ e ∈ db.edits.rows ∧ e.stepId = some s := by
  rw [stepEdits, List.mem_filter, decide_eq_true_iff]

theorem mem_stepEdits_of_editsOf {db : Database} {s i : Nat} {e : Edit} (he : e ∈ db.editsOf i s) :
    e ∈ db.stepEdits s := mem_stepEdits.mpr ⟨(mem_editsOf.mp he).1, (mem_editsOf.mp he).2.2⟩

theorem Attributed.editsOf_eq {db : Database} {s : Nat} (h : db.Attributed s) (i : Nat) :
    ∃ o : Option Edit, db.editsOf i s = o.toList := by
  cases hedits : db.editsOf i s with
  | nil => exact ⟨none, rfl⟩
  | cons e l =>
    have hnodup : (e :: l).Nodup := by
      rw [← hedits]
      exact (List.Nodup.of_map _ db.edits.nodup).filter _
    have hmem : ∀ x ∈ e :: l, x ∈ db.editsOf i s := fun x hx => hedits ▸ hx
    refine ⟨some e, ?_⟩
    rw [Option.toList_some, List.cons.injEq, and_iff_right rfl, List.eq_nil_iff_forall_not_mem]
    intro x hx
    have hx' := hmem x (List.mem_cons_of_mem e hx)
    have he' := hmem e List.mem_cons_self
    have heq : x = e := h.single x (mem_stepEdits_of_editsOf hx') e (mem_stepEdits_of_editsOf he')
      ((mem_editsOf.mp hx').2.1.trans (mem_editsOf.mp he').2.1.symm)
    exact (List.nodup_cons.mp hnodup).1 (heq ▸ hx)

end Database

/-! ## One request -/

namespace EditingRequest

open Database StepsController

/-- What the request writes as the time since when its user is editing. -/
def time : EditingRequest → Option Nat
  | edit _ now _ _ => some now
  | _ => none

/-- The account of the user is there. -/
def HasAccount (db : Database) (r : EditingRequest) : Prop := r.user ∈ db.users.rows

instance (db : Database) (r : EditingRequest) : Decidable (r.HasAccount db) := inferInstanceAs (Decidable (_ ∈ _))

variable {db : Database} {r : EditingRequest}

/-- The edit was there before, with its time, or its own user makes the request. -/
def Kept (db : Database) (r : EditingRequest) (e' : Edit) : Prop :=
  ∃ e ∈ db.edits.rows, e'.id = e.id ∧ e'.userId = e.userId ∧ e'.stepId = e.stepId ∧
    (e'.startedEditingAt = e.startedEditingAt ∨ e.userId = some r.user.id ∧ e'.startedEditingAt = r.time)

theorem Kept.of_mem {e : Edit} (he : e ∈ db.edits.rows) : Kept db r e := ⟨e, he, rfl, rfl, rfl, Or.inl rfl⟩

theorem Kept.modify {e' own : Edit} {t : Nat} (f : Edit → Edit) (hf : ∀ e, Keyed.key (f e) = Keyed.key e)
    (hown : db.editOf r.user.id t = some own)
    (hkeep : ∀ e, (f e).id = e.id ∧ (f e).userId = e.userId ∧ (f e).stepId = e.stepId ∧
      (f e).startedEditingAt = r.time)
    (he' : e' ∈ (db.edits.modify own.id f hf).rows) : Kept db r e' := by
  rw [Table.rows_modify, List.mem_map] at he'
  obtain ⟨e, he, rfl⟩ := he'
  obtain ⟨hrow, huser, -⟩ := mem_editsOf.mp (mem_of_editOf hown)
  by_cases hid : Keyed.key e = own.id
  · rw [if_pos hid]
    obtain ⟨hid', huser', hstep, htime⟩ := hkeep e
    have heq : e = own := Table.eq_of_key he hrow hid
    exact ⟨e, he, hid', huser', hstep, Or.inr ⟨heq ▸ huser, htime⟩⟩
  · rw [if_neg hid]
    exact .of_mem he

/-- Where an edit comes from: it was there before, or it is the first one of the user on the step. -/
theorem mem_edits_perform {e' : Edit} (he' : e' ∈ (r.perform db).edits.rows) :
    Kept db r e' ∨ e'.id = db.edits.next ∧ e'.userId = some r.user.id ∧ e'.startedEditingAt = r.time ∧
      ∃ t, e'.stepId = some t ∧ db.editOf r.user.id t = none := by
  cases r with
  | edit v now p id =>
    rcases edit_cases v now p id db with ⟨-, heq⟩ | ⟨t, -, -, ⟨e, he, heq⟩ | ⟨he, heq⟩⟩
    · rw [perform, handle, heq] at he'
      exact Or.inl (.of_mem he')
    · rw [perform, handle, heq] at he'
      exact Or.inl (.modify _ (key_started now) he (fun _ => ⟨rfl, rfl, rfl, rfl⟩) he')
    · rw [perform, handle, heq] at he'
      split at he'
      · rw [createEdit, Table.rows_insert, List.mem_append, List.mem_singleton] at he'
        rcases he' with hold | rfl
        · exact Or.inl (.of_mem hold)
        · exact Or.inr ⟨rfl, rfl, rfl, t.id, rfl, he⟩
      · exact Or.inl (.of_mem he')
  | update v now p id params =>
    left
    rcases edits_update v now p id params db with ⟨-, hedits⟩ | ⟨t, e, -, he, hedits⟩
    · rw [perform, handle, hedits] at he'
      exact .of_mem he'
    · rw [perform, handle, hedits] at he'
      exact .modify (fun e => { e with startedEditingAt := none, projectId := some (e.projectId.getD p) })
        (fun _ => rfl) he (fun _ => ⟨rfl, rfl, rfl, rfl⟩) he'
  | reset v p t =>
    left
    rw [perform, handle, resetStartedEditing_eq] at he'
    split at he'
    · cases he : db.editOf v.id t with
      | none =>
        rw [he] at he'
        exact .of_mem he'
      | some e =>
        rw [he, Option.elim_some, leaveEdit] at he'
        split at he'
        · exact .of_mem (List.mem_of_mem_filter he')
        · exact .modify _ key_left he (fun _ => ⟨rfl, rfl, rfl, rfl⟩) he'
    · exact .of_mem he'

theorem attributed_perform {s : Nat} (h : db.Attributed s) (hr : r.HasAccount db) : (r.perform db).Attributed s where
  user e' he' := by
    rw [users_perform]
    obtain ⟨hrow, hstep⟩ := mem_stepEdits.mp he'
    rcases mem_edits_perform hrow with ⟨e, he, -, huser, hstep', -⟩ | ⟨-, huser, -⟩
    · rw [huser]
      exact h.user e (mem_stepEdits.mpr ⟨he, hstep' ▸ hstep⟩)
    · exact ⟨r.user, hr, huser⟩
  single e₁' he₁' e₂' he₂' hsame := by
    obtain ⟨hrow₁, hstep₁⟩ := mem_stepEdits.mp he₁'
    obtain ⟨hrow₂, hstep₂⟩ := mem_stepEdits.mp he₂'
    -- there is none of the user on the step yet when there is a first one
    have hfirst : ∀ e e' : Edit, e ∈ db.edits.rows → e.stepId = some s → e.userId = e'.userId → e'.stepId = some s →
        e'.userId = some r.user.id → (∃ t, e'.stepId = some t ∧ db.editOf r.user.id t = none) → False := by
      rintro e e' he hstep heq hs hu ⟨t, ht, hnone⟩
      rw [hs, Option.some.injEq] at ht
      rw [editOf_eq_head?, List.head?_eq_none_iff, ← ht] at hnone
      have hmem : e ∈ db.editsOf r.user.id s := mem_editsOf.mpr ⟨he, heq.trans hu, hstep⟩
      rw [hnone] at hmem
      cases hmem
    refine Table.eq_of_key hrow₁ hrow₂ ?_
    show e₁'.id = e₂'.id
    rcases mem_edits_perform hrow₁ with ⟨e₁, he₁, hid₁, huser₁, hs₁, -⟩ | ⟨hid₁, huser₁, -, hnew₁⟩ <;>
      rcases mem_edits_perform hrow₂ with ⟨e₂, he₂, hid₂, huser₂, hs₂, -⟩ | ⟨hid₂, huser₂, -, hnew₂⟩
    · have heq : e₁ = e₂ := h.single e₁ (mem_stepEdits.mpr ⟨he₁, hs₁ ▸ hstep₁⟩) e₂
        (mem_stepEdits.mpr ⟨he₂, hs₂ ▸ hstep₂⟩) (huser₁.symm.trans (hsame.trans huser₂))
      rw [hid₁, hid₂, heq]
    · exact (hfirst e₁ e₂' he₁ (hs₁ ▸ hstep₁) (huser₁.symm.trans hsame) hstep₂ huser₂ hnew₂).elim
    · exact (hfirst e₂ e₁' he₂ (hs₂ ▸ hstep₂) (huser₂.symm.trans hsame.symm) hstep₁ huser₁ hnew₁).elim
    · rw [hid₁, hid₂]

/-- A completed request of an author starts or ends the session of its user on its step, and no other. -/
theorem editing_perform {s i : Nat} (h : db.Attributed s) (hok : r.Completes db) (hauthor : r.ByAuthor db) :
    (r.Concerns db i s → ((r.perform db).Editing s i ↔ r.isEdit = true)) ∧
      (¬ r.Concerns db i s → ((r.perform db).Editing s i ↔ db.Editing s i)) := by
  obtain ⟨o, ho⟩ := h.editsOf_eq i
  obtain ⟨o', ho', hconcerns, hother⟩ := editsOf_perform hok hauthor ho
  have hediting : (r.perform db).Editing s i ↔ o'.any (·.startedEditingAt.isSome) = true := by
    rw [Editing, ho', Option.any_eq_true]
    simp only [Option.mem_toList]
  rw [hediting]
  refine ⟨fun hc => by rw [hconcerns hc], fun hc => ?_⟩
  rw [hother hc, Editing, ho, Option.any_eq_true]
  simp only [Option.mem_toList]

end EditingRequest

/-! ## The warning on the form -/

namespace StepsController

/-- The authors that the form of the step names to its viewer, when all of their accounts are there. -/
def warning (db : Database) (viewer : User) (s : Nat) : List User :=
  if (db.editingAuthors s).length > 1 then (db.editingAuthors s).filter (·.id ≠ viewer.id) else []

end StepsController

namespace Database

variable {db : Database} {s : Nat}

theorem mem_editingAuthors_iff {user : User} :
    user ∈ db.editingAuthors s ↔ user ∈ db.users.rows ∧ db.Editing s user.id := by
  constructor
  · intro hmem
    obtain ⟨e, he, heu⟩ := List.mem_filterMap.mp hmem
    obtain ⟨i, -, hfind⟩ := Option.bind_eq_some_iff.mp heu
    have huser : user ∈ db.users.rows := (Table.find?_eq_some.mp hfind).1
    exact ⟨huser, (mem_editingAuthors huser).mp hmem⟩
  · rintro ⟨huser, hediting⟩
    exact (mem_editingAuthors huser).mpr hediting

theorem Attributed.exists_user (h : db.Attributed s) {i : Nat} (hediting : db.Editing s i) :
    ∃ user ∈ db.editingAuthors s, user.id = i := by
  obtain ⟨e, he, hstarted⟩ := hediting
  obtain ⟨user, huser, hid⟩ := h.user e (mem_stepEdits_of_editsOf he)
  have hid : user.id = i := Option.some.inj (hid.symm.trans (mem_editsOf.mp he).2.1)
  exact ⟨user, (mem_editingAuthors huser).mpr ⟨e, hid ▸ he, hstarted⟩, hid⟩

theorem warning_subset {viewer user : User} (huser : user ∈ StepsController.warning db viewer s) :
    user ∈ db.users.rows := by
  rw [StepsController.warning] at huser
  split at huser
  · exact (mem_editingAuthors_iff.mp (List.mem_of_mem_filter huser)).1
  · cases huser

theorem mem_warning {viewer user : User} (hviewer : viewer ∈ db.editingAuthors s) :
    user ∈ StepsController.warning db viewer s ↔ user ∈ db.editingAuthors s ∧ user.id ≠ viewer.id := by
  rw [StepsController.warning]
  split
  · rw [List.mem_filter, decide_eq_true_iff]
  · rename_i hlen
    refine iff_of_false List.not_mem_nil ?_
    rintro ⟨hmem, hne⟩
    -- the list has the viewer and somebody else
    have hsub : [viewer, user] ⊆ db.editingAuthors s := by
      intro x hx
      rcases List.mem_pair.mp hx with rfl | rfl
      · exact hviewer
      · exact hmem
    have hpair : [viewer, user].Nodup := by
      rw [List.nodup_cons, List.mem_singleton]
      exact ⟨fun heq => hne (congrArg User.id heq.symm), List.nodup_singleton user⟩
    exact hlen (List.subperm_of_subset hpair hsub).length_le

end Database

/-! ## Requests for the form of one step that interleave -/

/-- A form that is open in a browser, with the authors it names. -/
structure StepForm where
  viewer : Nat
  step : Nat
  warning : List User

/-- The database and the open forms. -/
structure FormServer where
  db : Database
  forms : List StepForm

/-- Where a request goes on at its next turn. -/
inductive FormPoint where
  | received (r : EditingRequest)
  /-- `edit` has written that its user is editing, and its page is rendered next. -/
  | rendering (viewer : User) (step : Nat)

namespace FormPoint

/-- The user leaves the form of the step. -/
def closeForms (forms : List StepForm) (u s : Nat) : List StepForm :=
  forms.filter fun f => ¬ (f.viewer = u ∧ f.step = s)

/-- One turn.  A request leaves the form of its step that its user has open. -/
def access (_ : Unit) (point : FormPoint) (x : FormServer) : FormServer × Option FormPoint :=
  match point with
  | received r =>
    let db := r.perform x.db
    match r.stepOf x.db with
    | none => (⟨db, x.forms⟩, none)
    | some s => (⟨db, closeForms x.forms r.user.id s⟩, if r.isEdit then some (rendering r.user s) else none)
  | rendering viewer s =>
    (⟨x.db, x.forms ++ [⟨viewer.id, s, StepsController.warning x.db viewer s⟩]⟩, none)

theorem access_of_stepOf {x : FormServer} {r : EditingRequest} {s : Nat} (h : r.stepOf x.db = some s) :
    access () (received r) x = (⟨r.perform x.db, closeForms x.forms r.user.id s⟩,
      if r.isEdit then some (rendering r.user s) else none) := by
  rw [access, h]

theorem access_of_stepOf_none {x : FormServer} {r : EditingRequest} (h : r.stepOf x.db = none) :
    access () (received r) x = (⟨r.perform x.db, x.forms⟩, none) := by
  rw [access, h]

/-- What is asked of a request: it comes to its end, and its user is an author with an account. -/
def ByAuthor (_ : Unit) (point : FormPoint) (x : FormServer) : Prop :=
  match point with
  | received r => r.Completes x.db ∧ r.ByAuthor x.db ∧ r.HasAccount x.db
  | rendering _ _ => True

instance (t : Unit) (point : FormPoint) (x : FormServer) : Decidable (point.ByAuthor t x) := by
  unfold ByAuthor
  split <;> infer_instance

end FormPoint

section Warning

open Database EditingRequest FormPoint Interleaving

variable {s : Nat}

/-- The page that names the other authors to `i` is not rendered yet. -/
def Looking (s : Nat) (pending : List FormPoint) (i : Nat) : Prop :=
  ∃ viewer, rendering viewer s ∈ pending ∧ viewer.id = i

/-- `i` has the form of the step open, which names `j`. -/
def Seen (s : Nat) (forms : List StepForm) (i j : Nat) : Prop :=
  ∃ f ∈ forms, f.viewer = i ∧ f.step = s ∧ ∃ u ∈ f.warning, u.id = j

/-- Of two authors who are editing the step one has been told of the other, or will be. -/
structure Warned (s : Nat) (x : System FormServer FormPoint) : Prop where
  attributed : x.shared.db.Attributed s
  viewers : ∀ viewer t, rendering viewer t ∈ x.pending → viewer ∈ x.shared.db.users.rows
  named : ∀ f ∈ x.shared.forms, ∀ u ∈ f.warning, u ∈ x.shared.db.users.rows
  aware : Announcing.Aware (x.shared.db.Editing s) (Looking s x.pending) (Seen s x.shared.forms)

theorem seen_closeForms {forms : List StepForm} {u t i j : Nat} (hother : ¬ (i = u ∧ s = t)) (h : Seen s forms i j) :
    Seen s (closeForms forms u t) i j := by
  obtain ⟨f, hf, rfl, rfl, hnames⟩ := h
  exact ⟨f, List.mem_filter.mpr ⟨hf, decide_eq_true hother⟩, rfl, rfl, hnames⟩

theorem warned_received {x : System FormServer FormPoint} (h : Warned s x) {k : Nat} {r : EditingRequest}
    (hk : x.pending[k]? = some (received r)) (hr : (received r).ByAuthor () x.shared) :
    Warned s (step received access x (.turn k ())) := by
  obtain ⟨hok, hauthor, haccount⟩ := hr
  have hediting := fun i => editing_perform (i := i) h.attributed hok hauthor
  have hattributed := attributed_perform h.attributed haccount
  have husers := users_perform x.shared.db r
  -- the pages that are to be rendered still are, and only one of the user may be new
  have hkeep : ∀ (o : Option FormPoint) (i : Nat), Looking s x.pending i → Looking s (resume k x.pending o) i := by
    rintro o i ⟨viewer, hmem, hid⟩
    exact ⟨viewer, mem_resume_of_ne hk hmem (by simp), hid⟩
  have hviewers : ∀ (o : Option FormPoint), (∀ viewer t, o = some (rendering viewer t) → viewer = r.user) →
      ∀ viewer t, rendering viewer t ∈ resume k x.pending o → viewer ∈ (r.perform x.shared.db).users.rows := by
    intro o ho viewer t hmem
    rw [husers]
    rcases mem_resume hmem with hold | hnew
    · exact h.viewers viewer t hold
    · rw [ho viewer t hnew]
      exact haccount
  rw [step_turn hk]
  cases hstep : r.stepOf x.shared.db with
  | none =>
    rw [access_of_stepOf_none hstep]
    refine ⟨hattributed, hviewers none fun _ _ hnew => (by cases hnew), fun f hf u hu => husers ▸ h.named f hf u hu, ?_⟩
    refine h.aware.mono (fun i => ((hediting i).2 ?_).mp) (hkeep none) fun _ _ => id
    rw [Concerns, hstep]
    simp
  | some t =>
    rw [access_of_stepOf hstep]
    refine ⟨hattributed, hviewers _ ?_, fun f hf u hu => husers ▸ h.named f (List.mem_of_mem_filter hf) u hu, ?_⟩
    · intro viewer t' hnew
      split at hnew
      · cases hnew
        rfl
      · cases hnew
    · by_cases hts : t = s
      · rw [hts] at hstep ⊢
        refine h.aware.move (a := r.user.id) (fun i hne => ((hediting i).2 ?_).mp) ?_ (hkeep _)
          fun i j hne => seen_closeForms fun hc => hne hc.1
        · exact fun hc => hne hc.1.symm
        · intro hown
          have hedit := ((hediting r.user.id).1 ⟨rfl, hstep⟩).mp hown
          refine ⟨r.user, ?_, rfl⟩
          rw [if_pos hedit]
          exact mem_resume_some hk
      · refine h.aware.mono (fun i => ((hediting i).2 ?_).mp) (hkeep _)
          fun i j => seen_closeForms fun hc => hts hc.2.symm
        rintro ⟨-, hc⟩
        rw [hstep, Option.some.injEq] at hc
        exact hts hc

theorem warned_rendering {x : System FormServer FormPoint} (h : Warned s x) {k : Nat} {viewer : User} {t : Nat}
    (hk : x.pending[k]? = some (rendering viewer t)) : Warned s (step received access x (.turn k ())) := by
  have hviewer := h.viewers viewer t (List.mem_of_getElem? hk)
  have hold : ∀ i j, Seen s x.shared.forms i j →
      Seen s (x.shared.forms ++ [⟨viewer.id, t, StepsController.warning x.shared.db viewer t⟩]) i j := by
    rintro i j ⟨f, hf, hnames⟩
    exact ⟨f, List.mem_append_left _ hf, hnames⟩
  have hkeep : ∀ i, ¬ (i = viewer.id ∧ s = t) → Looking s x.pending i → Looking s (resume k x.pending none) i := by
    rintro i hother ⟨viewer', hmem, rfl⟩
    refine ⟨viewer', mem_resume_of_ne hk hmem fun heq => ?_, rfl⟩
    rw [rendering.injEq] at heq
    exact hother ⟨congrArg User.id heq.1, heq.2⟩
  rw [step_turn hk]
  refine ⟨h.attributed, ?_, ?_, ?_⟩
  · intro viewer' t' hmem
    have hmem : rendering viewer' t' ∈ resume k x.pending none := hmem
    rcases mem_resume hmem with hmem | hnew
    · exact h.viewers viewer' t' hmem
    · cases hnew
  · intro f hf u hu
    rcases List.mem_append.mp hf with hf | hf
    · exact h.named f hf u hu
    · rw [List.mem_singleton.mp hf] at hu
      exact warning_subset hu
  · by_cases hts : t = s
    · rw [hts] at hold hkeep ⊢
      refine h.aware.look (a := viewer.id) (fun i hne => hkeep i fun hc => hne hc.1) ?_ hold
      intro hown i hne hi
      obtain ⟨user, huser, rfl⟩ := h.attributed.exists_user hi
      refine ⟨_, List.mem_append_right _ List.mem_cons_self, rfl, rfl, user, ?_, rfl⟩
      exact (mem_warning (mem_editingAuthors_iff.mpr ⟨hviewer, hown⟩)).mpr ⟨huser, hne⟩
    · exact h.aware.mono (fun _ => id) (fun i => hkeep i fun hc => hts hc.2.symm) hold

theorem warned_step {x : System FormServer FormPoint} (h : Warned s x) (e : Event EditingRequest Unit)
    (he : Admits FormPoint.ByAuthor x e) : Warned s (step received access x e) := by
  cases e with
  | arrive r =>
    refine ⟨h.attributed, ?_, h.named, ?_⟩
    · intro viewer t hmem
      rcases List.mem_append.mp hmem with hold | hnew
      · exact h.viewers viewer t hold
      · simp at hnew
    · refine h.aware.mono (fun _ => id) ?_ fun _ _ => id
      rintro i ⟨viewer, hmem, hid⟩
      exact ⟨viewer, List.mem_append_left _ hmem, hid⟩
  | turn k t =>
    cases hk : x.pending[k]? with
    | none =>
      rw [step]
      simp only [hk]
      exact h
    | some point =>
      cases point with
      | received r => exact warned_received h hk (he _ hk)
      | rendering viewer t => exact warned_rendering h hk

/-- However the requests of authors interleave, of two who are editing a step at the same time one has a form open
that names the other, as soon as the forms they asked for are rendered. -/
theorem editors_are_warned {db : Database} (h : db.Attributed s)
    (hidle : ∀ e ∈ db.stepEdits s, e.startedEditingAt = none) {es : List (Event EditingRequest Unit)}
    (hes : Run.Along (step received access) (fun x (e : Event EditingRequest Unit) => Admits FormPoint.ByAuthor x e)
      ⟨⟨db, []⟩, []⟩ es) :
    let x := Run.after (step received access) ⟨⟨db, []⟩, []⟩ es
    (∀ viewer, rendering viewer s ∉ x.pending) → ∀ u ∈ x.shared.db.editingAuthors s,
      ∀ v ∈ x.shared.db.editingAuthors s, u ≠ v → ∃ f ∈ x.shared.forms, f.step = s ∧
        (f.viewer = u.id ∧ v ∈ f.warning ∨ f.viewer = v.id ∧ u ∈ f.warning) := by
  intro x hrendered u hu v hv hne
  have hnobody : ∀ i, ¬ db.Editing s i := by
    rintro i ⟨e, he, hstarted⟩
    rw [hidle e (mem_stepEdits_of_editsOf he)] at hstarted
    cases hstarted
  have hstart : Warned s ⟨⟨db, []⟩, []⟩ :=
    ⟨h, fun _ _ hmem => absurd hmem List.not_mem_nil, fun _ hf => absurd hf List.not_mem_nil,
      fun i _ _ hi => absurd hi (hnobody i)⟩
  have hwarned : Warned s x := Run.invariant (I := Warned s) (fun _ e hs he => warned_step hs e he) hstart hes
  obtain ⟨hurow, hu⟩ := mem_editingAuthors_iff.mp hu
  obtain ⟨hvrow, hv⟩ := mem_editingAuthors_iff.mp hv
  have hid : u.id ≠ v.id := fun heq => hne (Table.eq_of_key hurow hvrow heq)
  rcases hwarned.aware.sees (fun i ⟨viewer, hmem, _⟩ => hrendered viewer hmem) hid hu hv with hseen | hseen
  · obtain ⟨f, hf, hviewer, hstep, w, hw, hwid⟩ := hseen
    have hwv : w = v := Table.eq_of_key (hwarned.named f hf w hw) hvrow hwid
    exact ⟨f, hf, hstep, Or.inl ⟨hviewer, hwv ▸ hw⟩⟩
  · obtain ⟨f, hf, hviewer, hstep, w, hw, hwid⟩ := hseen
    have hwu : w = u := Table.eq_of_key (hwarned.named f hf w hw) hurow hwid
    exact ⟨f, hf, hstep, Or.inr ⟨hviewer, hwu ▸ hw⟩⟩

/-- Step 1 of the lamp, which ada has created. -/
def Database.newStep : Database := (StepsController.create ada 5 true 1 [.name ['A']] twoAuthors).2

/-- Both authors ask for the form before the page of either is rendered. -/
def bothEdit : List (Event EditingRequest Unit) :=
  [.arrive (.edit ada 6 1 0), .arrive (.edit bob 6 1 0), .turn 0 (), .turn 1 (), .turn 0 (), .turn 0 ()]

theorem editors_are_warned_both :
    let x := Run.after (step received access) ⟨⟨.newStep, []⟩, []⟩ bothEdit
    ∃ f ∈ x.shared.forms, f.step = 1 ∧
      (f.viewer = ada.id ∧ bob ∈ f.warning ∨ f.viewer = bob.id ∧ ada ∈ f.warning) := by
  have hrendered : (Run.after (step received access) ⟨⟨.newStep, []⟩, []⟩ bothEdit).pending.isEmpty = true := by
    decide +kernel
  refine @editors_are_warned 1 .newStep ⟨by decide +kernel, by decide +kernel⟩ (by decide +kernel) bothEdit
    (by decide +kernel) ?_ ada (by decide +kernel) bob (by decide +kernel) (by decide +kernel)
  intro viewer hmem
  rw [List.isEmpty_iff.mp hrendered] at hmem
  cases hmem

end Warning

/-! ## `edit_redirect` -/

/-- What `edit_redirect` answers. -/
inductive Redirection where
  | notFound
  | error
  /-- `window.location` becomes the form of the step at the position. -/
  | form (position : Int) (answered : Bool)
  /-- The names of the authors who are editing the step. -/
  | conflict (names : Text)
  deriving DecidableEq

namespace StepsController

/-- One turn of the loop: whether there is a conflict, and the names so far.  The edit with the time is looked up, and
an account that is gone has no name. -/
def addConflict (db : Database) (u : User) (s : Nat) (found : Bool × Text) (editDate : Option Nat) :
    Option (Bool × Text) :=
  match editDate with
  | none => some found
  | some t =>
    match ((db.stepEdits s).find? (·.startedEditingAt = some t)).bind fun e => e.userId.bind db.users.find? with
    | none => none
    | some user => some (if user.id = u.id then found else (true, found.2 ++ user.username))

/-- `GET /projects/:project_id/steps/edit_redirect` with the parameter `stepID`.  Its edits are those of the step that
`Step.find` finds, at this position if there is one, while the form is that of the step with this id. -/
def editRedirect (u : User) (p : Nat) (stepId : Text) (answered : Bool) (db : Database) : Redirection :=
  match db.projects.find? p with
  | none => .notFound
  | some _ =>
    match db.findStep (.text stepId) with
    | none => .notFound
    | some found =>
      match (db.orderedSteps p).find? fun s => (s.id : Int) = toI stepId with
      | none => .error
      | some step =>
        match ((db.stepEdits found.id).map (·.startedEditingAt)).foldlM (addConflict db u found.id) (false, []) with
        | none => .error
        | some (editingConflict, names) => if editingConflict then .conflict names else .form step.position answered

end StepsController

namespace Database

/-- No two edits of the step began at the same time. -/
def Apart (db : Database) (s : Nat) : Prop :=
  ∀ e ∈ db.stepEdits s, ∀ e' ∈ db.stepEdits s, e.startedEditingAt.isSome = true →
    e.startedEditingAt = e'.startedEditingAt → e = e'

/-- Those of the edits that somebody else is editing with, by their users. -/
def others (db : Database) (u : User) (es : List Edit) : List User :=
  ((es.filter (·.startedEditingAt.isSome)).filterMap fun e => e.userId.bind db.users.find?).filter (·.id ≠ u.id)

/-- The loop collects the names of the others. -/
theorem foldlM_addConflict {db : Database} {s : Nat} (h : db.Attributed s) (hapart : db.Apart s) (u : User)
    {es : List Edit} (hes : ∀ e ∈ es, e ∈ db.stepEdits s) (found : Bool × Text) :
    (es.map (·.startedEditingAt)).foldlM (StepsController.addConflict db u s) found =
      some (found.1 || !(db.others u es).isEmpty, found.2 ++ (db.others u es).flatMap User.username) := by
  induction es generalizing found with
  | nil => simp [others]
  | cons e es ih =>
    obtain ⟨he, hes⟩ := List.forall_mem_cons.mp hes
    rw [List.map_cons, List.foldlM_cons]
    cases hdate : e.startedEditingAt with
    | none =>
      have hothers : db.others u (e :: es) = db.others u es := by
        rw [others, List.filter_cons_of_neg (by simp [hdate]), others]
      rw [hothers]
      exact ih hes found
    | some t =>
      have hfind : (db.stepEdits s).find? (·.startedEditingAt = some t) = some e := by
        refine Rows.find?_eq_of_unique he (decide_eq_true hdate) fun e' he' ht => ?_
        have ht : e'.startedEditingAt = some t := of_decide_eq_true ht
        exact hapart e' he' e he (by rw [ht]; rfl) (ht.trans hdate.symm)
      obtain ⟨user, huser, hid⟩ := h.user e he
      have hname : (e.userId.bind db.users.find?) = some user := by
        rw [hid]
        exact Table.find?_of_mem huser
      have hturn : StepsController.addConflict db u s found (some t) =
          some (if user.id = u.id then found else (true, found.2 ++ user.username)) := by
        rw [StepsController.addConflict, hfind, Option.bind_some, hname]
      have hothers : db.others u (e :: es) = if user.id = u.id then db.others u es else user :: db.others u es := by
        rw [others, List.filter_cons_of_pos (by rw [hdate]; rfl), others]
        simp only [List.filterMap_cons, hname, List.filter_cons]
        by_cases hself : user.id = u.id
        · simp [hself]
        · simp [hself]
      rw [hturn, hothers]
      by_cases hself : user.id = u.id
      · rw [if_pos hself, if_pos hself]
        exact ih hes found
      · rw [if_neg hself, if_neg hself]
        refine (ih hes (true, found.2 ++ user.username)).trans ?_
        simp

theorem others_stepEdits (db : Database) (u : User) (s : Nat) :
    db.others u (db.stepEdits s) = (db.editingAuthors s).filter (·.id ≠ u.id) := rfl

theorem editRedirect_eq {db : Database} {found : Step} (h : db.Attributed found.id) (hapart : db.Apart found.id)
    {p : Nat} (hproject : (db.projects.find? p).isSome = true) {stepId : Text}
    (hfound : db.findStep (.text stepId) = some found) {step : Step} (hstep : step ∈ db.projectSteps p)
    (hid : (step.id : Int) = toI stepId) (u : User) (answered : Bool) :
    let others := (db.editingAuthors found.id).filter (·.id ≠ u.id)
    StepsController.editRedirect u p stepId answered db =
      if others = [] then .form step.position answered else .conflict (others.flatMap User.username) := by
  intro others
  obtain ⟨project, hproject⟩ := Option.isSome_iff_exists.mp hproject
  have hordered : (db.orderedSteps p).find? (fun s => (s.id : Int) = toI stepId) = some step := by
    refine Rows.find?_eq_of_unique (mem_orderedSteps.mpr hstep) (decide_eq_true hid) fun t ht hts => ?_
    have heq : t.id = step.id := Int.ofNat.inj ((of_decide_eq_true hts).trans hid.symm)
    exact Table.eq_of_key (mem_projectSteps.mp (mem_orderedSteps.mp ht)).1 (mem_projectSteps.mp hstep).1 heq
  have hloop := foldlM_addConflict h hapart u (fun _ he => he) (false, [])
  rw [others_stepEdits, Bool.false_or, List.nil_append] at hloop
  change _ = some (!others.isEmpty, others.flatMap User.username) at hloop
  rw [StepsController.editRedirect, hproject]
  dsimp only
  rw [hfound]
  dsimp only
  rw [hordered]
  dsimp only
  rw [hloop]
  dsimp only
  by_cases hnone : others = []
  · rw [if_pos hnone, hnone]
    rfl
  · rw [if_neg hnone, if_pos (by simpa using hnone)]

end Database

namespace EditingRequest

open Database

/-- Nobody's edit of the step began at the very time of the request. -/
def AtOwnMoment (s : Nat) (db : Database) (r : EditingRequest) : Prop :=
  ∀ e ∈ db.stepEdits s, e.startedEditingAt.isSome = true → e.startedEditingAt ≠ r.time

instance (s : Nat) (db : Database) (r : EditingRequest) : Decidable (r.AtOwnMoment s db) :=
  inferInstanceAs (Decidable (∀ e ∈ db.stepEdits s, _ → _))

theorem apart_perform {db : Database} {s : Nat} {r : EditingRequest} (h : db.Attributed s) (hapart : db.Apart s)
    (haccount : r.HasAccount db) (hmoment : r.AtOwnMoment s db) : (r.perform db).Apart s := by
  -- an edit has the time it had, or that of the request of its user
  have hcases : ∀ e' ∈ (r.perform db).stepEdits s,
      (∃ e ∈ db.stepEdits s, e'.id = e.id ∧ e'.startedEditingAt = e.startedEditingAt) ∨
        e'.userId = some r.user.id ∧ e'.startedEditingAt = r.time := by
    intro e' he'
    obtain ⟨hrow, hstep⟩ := mem_stepEdits.mp he'
    rcases mem_edits_perform hrow with ⟨e, he, hid, huser, hstep', htime | ⟨hown, htime⟩⟩ | ⟨-, huser, htime, -⟩
    · exact Or.inl ⟨e, mem_stepEdits.mpr ⟨he, hstep' ▸ hstep⟩, hid, htime⟩
    · exact Or.inr ⟨huser.trans hown, htime⟩
    · exact Or.inr ⟨huser, htime⟩
  have hsingle := (attributed_perform h haccount).single
  intro e₁' he₁' e₂' he₂' hstarted hsame
  rcases hcases e₁' he₁' with ⟨e₁, he₁, hid₁, htime₁⟩ | ⟨huser₁, htime₁⟩ <;>
    rcases hcases e₂' he₂' with ⟨e₂, he₂, hid₂, htime₂⟩ | ⟨huser₂, htime₂⟩
  · have heq : e₁ = e₂ := hapart e₁ he₁ e₂ he₂ (htime₁ ▸ hstarted) (htime₁.symm.trans (hsame.trans htime₂))
    exact Table.eq_of_key (mem_stepEdits.mp he₁').1 (mem_stepEdits.mp he₂').1 (hid₁.trans (heq ▸ hid₂.symm))
  · exact absurd (htime₁.symm.trans (hsame.trans htime₂)) (hmoment e₁ he₁ (htime₁ ▸ hstarted))
  · have hstarted₂ : e₂.startedEditingAt.isSome = true := by
      rw [← htime₂, ← hsame]
      exact hstarted
    exact absurd (htime₂.symm.trans (hsame.symm.trans htime₁)) (hmoment e₂ he₂ hstarted₂)
  · exact hsingle e₁' he₁' e₂' he₂' (huser₁.trans huser₂.symm)

end EditingRequest

namespace Database

variable {db : Database} {s : Nat}

theorem Attributed.nodup_editingAuthors (h : db.Attributed s) : (db.editingAuthors s).Nodup := by
  rw [editingAuthors, List.Nodup, List.pairwise_filterMap]
  have hrows : (db.edits.rows.filter (·.stepId = some s)).Nodup := (List.Nodup.of_map _ db.edits.nodup).filter _
  refine List.Pairwise.imp_of_mem ?_ (hrows.filter _)
  intro e e' he he' hne user huser user' huser' heq
  obtain ⟨i, hi, hfind⟩ := Option.bind_eq_some_iff.mp huser
  obtain ⟨i', hi', hfind'⟩ := Option.bind_eq_some_iff.mp huser'
  have hid : user.id = i := (Table.find?_eq_some.mp hfind).2
  have hid' : user'.id = i' := (Table.find?_eq_some.mp hfind').2
  have hsame : e.userId = e'.userId := by rw [hi, hi', ← hid, ← hid', heq]
  exact hne (h.single e (List.mem_of_mem_filter he) e' (List.mem_of_mem_filter he') hsame)

/-- After a run that began when nobody was editing the step, those are whose last request on it was for its form. -/
theorem Attributed.editing_after (h : db.Attributed s) (hidle : ∀ e ∈ db.stepEdits s, e.startedEditingAt = none)
    {rs : List EditingRequest}
    (hrs : Run.Along (fun db (r : EditingRequest) => r.perform db)
      (fun db (r : EditingRequest) => r.Completes db ∧ r.ByAuthor db) db rs) (i : Nat) :
    (Run.after (fun db (r : EditingRequest) => r.perform db) db rs).Editing s i ↔
      ∃ r, EditingRequest.lastOn i s db rs = some r ∧ r.isEdit = true := by
  obtain ⟨o, ho⟩ := h.editsOf_eq i
  obtain ⟨o', ho', hediting⟩ := EditingRequest.editsOf_after hrs ho
  have hnone : o.any (·.startedEditingAt.isSome) = false := by
    cases o with
    | none => rfl
    | some e =>
      have he : e ∈ db.editsOf i s := by
        rw [ho]
        exact List.mem_cons_self
      have hidle := hidle e (mem_stepEdits_of_editsOf he)
      rw [Option.any_some, hidle]
      rfl
  have hiff : (Run.after (fun db (r : EditingRequest) => r.perform db) db rs).Editing s i ↔
      o'.any (·.startedEditingAt.isSome) = true := by
    rw [Editing, ho', Option.any_eq_true]
    simp only [Option.mem_toList]
  rw [hiff, hediting, hnone]
  cases EditingRequest.lastOn i s db rs with
  | none => simp
  | some r => simp

end Database

section Redirect

open Database

/-- `edit_redirect` leads to the form of the step with the id of the request exactly when nobody else is editing the
step that the id finds, which is that step where none is at the position of this number.  Otherwise it names those who
are, each once: the users whose last request on the step found was for its form. -/
theorem redirect_names_editors {db : Database} {s : Nat} (h : db.Attributed s)
    (hidle : ∀ e ∈ db.stepEdits s, e.startedEditingAt = none) {rs : List EditingRequest}
    (hrs : Run.Along (fun db (r : EditingRequest) => r.perform db) (fun db (r : EditingRequest) =>
      r.Completes db ∧ r.ByAuthor db ∧ r.HasAccount db ∧ r.AtOwnMoment s db) db rs) (u : User) (answered : Bool) :
    let db' := Run.after (fun db (r : EditingRequest) => r.perform db) db rs
    let others := (db'.editingAuthors s).filter (·.id ≠ u.id)
    (∀ p stepId found step, (db'.projects.find? p).isSome = true → db'.findStep (.text stepId) = some found →
      found.id = s → step ∈ db'.projectSteps p → (step.id : Int) = toI stepId →
      StepsController.editRedirect u p stepId answered db' =
        if others = [] then .form step.position answered else .conflict (others.flatMap User.username)) ∧
    (∀ stepId, (s : Int) = toI stepId → (db'.steps.find? s).isSome = true →
      (∀ t ∈ db'.steps.rows, t.position ≠ toI stepId) →
      ∃ found, db'.findStep (.text stepId) = some found ∧ found.id = s) ∧
    others.Nodup ∧ ∀ v, v ∈ others ↔ v ∈ db.users.rows ∧ v.id ≠ u.id ∧
      ∃ r, EditingRequest.lastOn v.id s db rs = some r ∧ r.isEdit = true := by
  intro db' others
  have hkept : (db'.Attributed s ∧ db'.Apart s) ∧ db'.users = db.users := by
    refine Run.invariant (I := fun d => (d.Attributed s ∧ d.Apart s) ∧ d.users = db.users) ?_ ⟨⟨h, ?_⟩, rfl⟩ hrs
    · rintro d r ⟨⟨hd, hapart⟩, husers⟩ ⟨-, -, haccount, hmoment⟩
      exact ⟨⟨EditingRequest.attributed_perform hd haccount,
        EditingRequest.apart_perform hd hapart haccount hmoment⟩, (r.users_perform d).trans husers⟩
    · intro e he e' _ hstarted
      rw [hidle e he] at hstarted
      cases hstarted
  obtain ⟨⟨hattributed, hapart⟩, husers⟩ := hkept
  have hediting := h.editing_after hidle (hrs.imp fun _ _ hr => ⟨hr.1, hr.2.1⟩)
  refine ⟨?_, ?_, hattributed.nodup_editingAuthors.filter _, fun v => ?_⟩
  · intro p stepId found step hproject hfound hs hstep hid
    subst hs
    exact editRedirect_eq hattributed hapart hproject hfound hstep hid u answered
  · intro stepId hs hthere hnone
    obtain ⟨found, hfound⟩ := Option.isSome_iff_exists.mp hthere
    refine ⟨found, ?_, (Table.find?_eq_some.mp hfound).2⟩
    have hposition : db'.steps.rows.find? (fun t => decide (t.position = toI stepId)) = none := by
      rw [List.find?_eq_none]
      intro t ht
      simpa using hnone t ht
    rw [findStep, hposition, Option.none_or, ← hs, stepById_eq_find?, hfound]
  · rw [List.mem_filter, mem_editingAuthors_iff, husers, hediting, decide_eq_true_iff, and_assoc,
      and_comm (a := ∃ r, _)]

/-- Ada asks for the form that Bob has open. -/
theorem redirect_names_bob :
    StepsController.editRedirect ada 1 ['1'] false (Run.after (fun db (r : EditingRequest) => r.perform db) .newStep
      [.edit ada 6 1 0, .reset ada 1 1, .edit bob 7 1 0]) = .conflict bob.username :=
  ((@redirect_names_editors .newStep 1 ⟨by decide +kernel, by decide +kernel⟩ (by decide +kernel)
    [.edit ada 6 1 0, .reset ada 1 1, .edit bob 7 1 0] (by decide +kernel) ada false).1 1 ['1']
    ((StepsController.findByPosition .newStep 1 0).get (by decide +kernel))
    ((StepsController.findByPosition .newStep 1 0).get (by decide +kernel)) (by decide +kernel) (by decide +kernel)
    (by decide +kernel) (by decide +kernel) (by decide +kernel)).trans (by decide +kernel)

end Redirect
