import BuildInProgress.StepAuthorization

/-!
# Editing sessions

An edit says that a user has worked on a step, and since when they are editing it, if they are.  `edit`
starts a session, `update` ends it, and leaving the form sends `reset_started_editing`, which destroys an edit
that was made only for the session.
-/

open Text

namespace Database

/-- `Edit.where("user_id = ? AND step_id = ?", u, s)` -/
def editsOf (db : Database) (u s : Nat) : List Edit :=
  db.edits.rows.filter fun e => e.userId = some u ∧ e.stepId = some s

/-- `Step#editing_authors` -/
def editingAuthors (db : Database) (s : Nat) : List User :=
  ((db.edits.rows.filter (·.stepId = some s)).filter (·.startedEditingAt.isSome)).filterMap fun e =>
    e.userId.bind db.users.find?

end Database

/-- The requests of a session. -/
inductive EditingRequest where
  | edit (u : User) (now p : Nat) (id : Int)
  | update (u : User) (now p : Nat) (id : Int) (params : List StepAttr)
  | reset (u : User) (p s : Nat)

namespace EditingRequest

open StepsController

def handle (db : Database) : EditingRequest → Outcome × Database
  | edit u now p id => StepsController.edit u now p id db
  | update u now p id params => StepsController.update u now p id params db
  | reset u p s => resetStartedEditing p u.id s db

def perform (db : Database) (r : EditingRequest) : Database := (r.handle db).2

def user : EditingRequest → User
  | edit u _ _ _ => u
  | update u _ _ _ _ => u
  | reset u _ _ => u

/-- The step the request is about. -/
def stepOf (db : Database) : EditingRequest → Option Nat
  | edit _ _ p id => (findByPosition db p id).map Step.id
  | update _ _ p id _ => (findByPosition db p id).map Step.id
  | reset _ _ s => some s

def isEdit : EditingRequest → Bool
  | edit _ _ _ _ => true
  | _ => false

/-- The request is about step `s` and made by user `u`. -/
def Concerns (db : Database) (u s : Nat) (r : EditingRequest) : Prop := r.user.id = u ∧ r.stepOf db = some s

instance (db : Database) (u s : Nat) (r : EditingRequest) : Decidable (r.Concerns db u s) :=
  inferInstanceAs (Decidable (_ ∧ _))

/-- The last request of user `u` on step `s` in a run. -/
def lastOn (u s : Nat) : Database → List EditingRequest → Option EditingRequest
  | _, [] => none
  | db, r :: rs =>
    match lastOn u s (perform db r) rs with
    | some last => some last
    | none => if r.Concerns db u s then some r else none

/-- The request came to its end. -/
def Completes (db : Database) (r : EditingRequest) : Prop := (r.handle db).1 = .ok

instance (db : Database) (r : EditingRequest) : Decidable (r.Completes db) := inferInstanceAs (Decidable (_ = _))

/-- An author of the project edits. -/
def ByAuthor (db : Database) : EditingRequest → Prop
  | edit u _ p _ => db.author p u.id = true
  | update u _ p _ _ => db.author p u.id = true
  | reset _ _ _ => True

instance (db : Database) (r : EditingRequest) : Decidable (r.ByAuthor db) := by
  unfold ByAuthor
  split <;> infer_instance

end EditingRequest

/-! ## What a request does to the edits -/

namespace StepsController

open Database

theorem key_started (now : Nat) (e : Edit) : Keyed.key { e with startedEditingAt := some now } = Keyed.key e :=
  rfl

theorem key_left (e : Edit) : Keyed.key { e with startedEditingAt := none } = Keyed.key e := rfl

/-- The session of the edit `e` starts. -/
def startEdit (db : Database) (e : Edit) (now : Nat) : Database :=
  { db with edits := db.edits.modify e.id (fun e => { e with startedEditingAt := some now }) (key_started now) }

/-- The session of the edit `e` ends without a save. -/
def leaveEdit (db : Database) (e : Edit) : Database :=
  if e.temp = some true then { db with edits := db.edits.filter (·.id ≠ e.id) }
  else { db with edits := db.edits.modify e.id (fun e => { e with startedEditingAt := none }) key_left }

theorem edit_cases (u : User) (now p : Nat) (id : Int) (db : Database) :
    ((edit u now p id db).1 ≠ .ok ∧ (edit u now p id db).2 = db) ∨
      ∃ s, findByPosition db p id = some s ∧ (edit u now p id db).1 = .ok ∧
        ((∃ e, db.editOf u.id s.id = some e ∧ (edit u now p id db).2 = startEdit db e now) ∨
          (db.editOf u.id s.id = none ∧ (edit u now p id db).2 =
            if db.author p u.id then createEdit db u.id s.id p (some now) (some true) else db)) := by
  rw [edit]
  cases hproject : db.projects.find? p with
  | none => exact Or.inl ⟨by simp, rfl⟩
  | some project =>
    dsimp only
    cases hs : findByPosition db p id with
    | none => exact Or.inl ⟨by simp, rfl⟩
    | some s =>
      dsimp only
      cases Ability.updateStep db u s with
      | none => exact Or.inl ⟨by simp [authorize], rfl⟩
      | some allowed =>
        cases allowed with
        | false => exact Or.inl ⟨by simp [authorize], rfl⟩
        | true =>
          rw [authorize]
          refine Or.inr ⟨s, rfl, ?_⟩
          cases he : db.editOf u.id s.id with
          | some e => exact ⟨rfl, Or.inl ⟨e, rfl, rfl⟩⟩
          | none =>
            dsimp only
            cases db.author p u.id with
            | true => exact ⟨rfl, Or.inr ⟨rfl, rfl⟩⟩
            | false => exact ⟨rfl, Or.inr ⟨rfl, rfl⟩⟩

theorem resetStartedEditing_eq (p u s : Nat) (db : Database) :
    (resetStartedEditing p u s db).2 =
      if (db.projects.find? p).isSome then (db.editOf u s).elim db (leaveEdit db) else db := by
  rw [resetStartedEditing]
  cases db.projects.find? p with
  | none => rfl
  | some project =>
    rw [Option.isSome_some, if_pos rfl]
    dsimp only
    cases he : db.editOf u s with
    | none => rfl
    | some e =>
      rw [Option.elim_some, leaveEdit]
      dsimp only
      split
      · rfl
      · rfl

end StepsController

namespace Database

variable {db db' : Database} {u s v t : Nat} {e : Edit}

theorem mem_editsOf : e ∈ db.editsOf u s ↔ e ∈ db.edits.rows ∧ e.userId = some u ∧ e.stepId = some s := by
  rw [editsOf, List.mem_filter, decide_eq_true_eq]

theorem editOf_eq_head? (db : Database) (u s : Nat) : db.editOf u s = (db.editsOf u s).head? := by
  rw [editOf, editsOf, List.head?_filter]

theorem editsOf_ne_nil : db.editsOf u s ≠ [] ↔ ∃ e, e ∈ db.editsOf u s :=
  ⟨List.exists_mem_of_ne_nil _, fun ⟨_, he⟩ => List.ne_nil_of_mem he⟩

theorem mem_of_editOf (h : db.editOf u s = some e) : e ∈ db.editsOf u s := by
  rw [editOf_eq_head?] at h
  exact List.mem_of_head? h

theorem editsOf_congr (h : db'.edits = db.edits) (u s : Nat) : db'.editsOf u s = db.editsOf u s := by
  rw [editsOf, h, editsOf]

theorem editsOf_insert {mk : Nat → Edit} {hmk : ∀ i, Keyed.key (mk i) = i} (h : db'.edits = db.edits.insert mk hmk) :
    db'.editsOf u s = db.editsOf u s ++
      if (mk db.edits.next).userId = some u ∧ (mk db.edits.next).stepId = some s then [mk db.edits.next] else [] := by
  rw [editsOf, h, Table.rows_insert, List.filter_append, List.filter_singleton, editsOf]
  congr 1
  by_cases hnew : (mk db.edits.next).userId = some u ∧ (mk db.edits.next).stepId = some s
  · rw [if_pos hnew, decide_eq_true hnew]
    rfl
  · rw [if_neg hnew, decide_eq_false hnew]
    rfl

/-- Rewriting one edit, which stays one of its user and its step. -/
theorem editsOf_modify {f : Edit → Edit} {hf : ∀ e, Keyed.key (f e) = Keyed.key e} {i : Nat}
    (h : db'.edits = db.edits.modify i f hf) (hkeep : ∀ e, (f e).userId = e.userId ∧ (f e).stepId = e.stepId) :
    db'.editsOf u s = (db.editsOf u s).map fun r => if r.id = i then f r else r := by
  rw [editsOf, h, Table.rows_modify, List.filter_map, editsOf]
  congr 1
  apply List.filter_congr
  intro r _
  rw [Function.comp]
  split
  · rw [(hkeep r).1, (hkeep r).2]
  · rfl

theorem editsOf_filter {i : Nat} (h : db'.edits = db.edits.filter (·.id ≠ i)) :
    db'.editsOf u s = (db.editsOf u s).filter (·.id ≠ i) := by
  rw [editsOf, h, Table.rows_filter, editsOf, List.filter_filter, List.filter_filter]
  apply List.filter_congr
  intro r _
  exact Bool.and_comm _ _

/-- An edit of another user or another step is another row. -/
theorem id_ne_of_other (he : e ∈ db.editsOf v t) (hother : ¬ (v = u ∧ t = s)) {r : Edit} (hr : r ∈ db.editsOf u s) :
    r.id ≠ e.id := by
  intro hid
  obtain ⟨hr, hru, hrs⟩ := mem_editsOf.mp hr
  obtain ⟨he, hev, het⟩ := mem_editsOf.mp he
  cases Table.eq_of_key hr he hid
  exact hother ⟨Option.some.inj (hev.symm.trans hru), Option.some.inj (het.symm.trans hrs)⟩

end Database

/-! ## One request -/

namespace EditingRequest

open Database StepsController

variable {db : Database} {u s : Nat} {o : Option Edit}

/-- What a rewriting of the edit of `v` and `t` does to the edits of `u` and `s`. -/
theorem editsOf_modify_toList {db' : Database} {v t : Nat} {e : Edit} {f : Edit → Edit}
    {hf : ∀ e, Keyed.key (f e) = Keyed.key e} (h : db.editsOf u s = o.toList) (he : db.editOf v t = some e)
    (hedits : db'.edits = db.edits.modify e.id f hf)
    (hkeep : ∀ e, (f e).userId = e.userId ∧ (f e).stepId = e.stepId) :
    db'.editsOf u s = (if v = u ∧ t = s then some (f e) else o).toList := by
  rw [editsOf_modify hedits hkeep]
  by_cases hsame : v = u ∧ t = s
  · rw [if_pos hsame]
    rw [hsame.1, hsame.2, editOf_eq_head?, h] at he
    cases o with
    | none => cases he
    | some r =>
      cases he
      rw [h]
      show [if e.id = e.id then f e else e] = [f e]
      rw [if_pos rfl]
  · rw [if_neg hsame, ← h]
    exact List.map_eq_self_of_forall fun r hr => if_neg (id_ne_of_other (mem_of_editOf he) hsame hr)

/-- The new edit of `v` and `t`, who had none. -/
theorem editsOf_insert_toList {db' : Database} {v t : Nat} {mk : Nat → Edit} {hmk : ∀ i, Keyed.key (mk i) = i}
    (h : db.editsOf u s = o.toList) (he : db.editOf v t = none) (hedits : db'.edits = db.edits.insert mk hmk)
    (hnew : ∀ i, (mk i).userId = some v ∧ (mk i).stepId = some t) :
    db'.editsOf u s = (if v = u ∧ t = s then some (mk db.edits.next) else o).toList := by
  rw [editsOf_insert hedits]
  simp only [hnew, Option.some.injEq]
  by_cases hsame : v = u ∧ t = s
  · rw [if_pos hsame, if_pos hsame]
    rw [hsame.1, hsame.2, editOf_eq_head?, h] at he
    cases o with
    | none =>
      rw [h]
      rfl
    | some r => cases he
  · rw [if_neg hsame, if_neg hsame, List.append_nil]
    exact h

/-- The edit of `v` and `t` is deleted. -/
theorem editsOf_filter_toList {db' : Database} {v t : Nat} {e : Edit} (h : db.editsOf u s = o.toList)
    (he : db.editOf v t = some e) (hedits : db'.edits = db.edits.filter (·.id ≠ e.id)) :
    db'.editsOf u s = (if v = u ∧ t = s then none else o).toList := by
  rw [editsOf_filter hedits]
  by_cases hsame : v = u ∧ t = s
  · rw [if_pos hsame]
    rw [hsame.1, hsame.2, editOf_eq_head?, h] at he
    cases o with
    | none => cases he
    | some r =>
      cases he
      rw [h]
      show [e].filter _ = []
      rw [List.filter_cons_of_neg (by simp), List.filter_nil]
  · rw [if_neg hsame, ← h, List.filter_eq_self]
    intro r hr
    exact decide_eq_true (id_ne_of_other (mem_of_editOf he) hsame hr)

theorem concerns_iff {r : EditingRequest} {t : Nat} (ht : r.stepOf db = some t) :
    r.Concerns db u s ↔ r.user.id = u ∧ t = s := by
  rw [Concerns, ht, Option.some.injEq]

/-- The request leaves its own user the edit `o₁` of its own step. -/
theorem editsOf_of_own {r : EditingRequest} {t : Nat} {o₁ : Option Edit} (ht : r.stepOf db = some t)
    (hown : (r.perform db).editsOf u s = (if r.user.id = u ∧ t = s then o₁ else o).toList)
    (hstarted : o₁.any (·.startedEditingAt.isSome) = r.isEdit) :
    ∃ o' : Option Edit, (r.perform db).editsOf u s = o'.toList ∧
      (r.Concerns db u s → o'.any (·.startedEditingAt.isSome) = r.isEdit) ∧ (¬ r.Concerns db u s → o' = o) := by
  refine ⟨_, hown, ?_⟩
  rw [concerns_iff ht]
  refine ⟨fun hsame => ?_, fun hother => if_neg hother⟩
  rw [if_pos hsame]
  exact hstarted

/-- A completed request of an author leaves each user one edit of a step at most, and starts or ends the
session of its own user on its own step only. -/
theorem editsOf_perform {r : EditingRequest} (hok : r.Completes db) (hauthor : r.ByAuthor db)
    (h : db.editsOf u s = o.toList) : ∃ o' : Option Edit, (r.perform db).editsOf u s = o'.toList ∧
      (r.Concerns db u s → o'.any (·.startedEditingAt.isSome) = r.isEdit) ∧ (¬ r.Concerns db u s → o' = o) := by
  -- in each case the edits of the session are written and no others
  cases r with
  | edit v now p id =>
    have hauthor : db.author p v.id = true := hauthor
    rcases edit_cases v now p id db with ⟨hno, -⟩ | ⟨t, ht, -, hcase⟩
    · exact absurd hok hno
    have hstep : (edit v now p id).stepOf db = some t.id := by
      rw [stepOf, ht]
      rfl
    rcases hcase with ⟨e, he, heq⟩ | ⟨he, heq⟩
    · have hedits : ((edit v now p id).perform db).edits =
          db.edits.modify e.id (fun e => { e with startedEditingAt := some now }) (fun _ => rfl) := by
        rw [perform, handle, heq]
        rfl
      exact editsOf_of_own hstep (editsOf_modify_toList h he hedits fun _ => ⟨rfl, rfl⟩) rfl
    · rw [if_pos hauthor] at heq
      have hedits : ((edit v now p id).perform db).edits = db.edits.insert
          (fun i => ⟨i, some v.id, some t.id, some p, some now, some true⟩) (fun _ => rfl) := by
        rw [perform, handle, heq]
        rfl
      exact editsOf_of_own hstep (editsOf_insert_toList h he hedits fun _ => ⟨rfl, rfl⟩) rfl
  | update v now p id params =>
    rcases edits_update v now p id params db with ⟨hno, -⟩ | ⟨t, e, ht, he, hedits⟩
    · exact absurd hok hno
    · have hstep : (update v now p id params).stepOf db = some t.id := by
        rw [stepOf, ht]
        rfl
      have hcleared : ((update v now p id params).perform db).edits = db.edits.modify e.id
          (fun e => { e with startedEditingAt := none, projectId := some (e.projectId.getD p) }) (fun _ => rfl) := hedits
      exact editsOf_of_own hstep (editsOf_modify_toList h he hcleared fun _ => ⟨rfl, rfl⟩) rfl
  | reset v p t =>
    have hproject : (db.projects.find? p).isSome = true := by
      cases hfind : db.projects.find? p with
      | some _ => rfl
      | none =>
        rw [Completes, handle, resetStartedEditing, hfind] at hok
        cases hok
    have heq : (reset v p t).perform db = _ := resetStartedEditing_eq p v.id t db
    rw [if_pos hproject] at heq
    have hstep : (reset v p t).stepOf db = some t := rfl
    cases he : db.editOf v.id t with
    | none =>
      rw [he] at heq
      rw [heq, concerns_iff hstep]
      refine ⟨o, h, fun hsame => ?_, fun _ => rfl⟩
      rw [editOf_eq_head?, show v.id = u from hsame.1, hsame.2, h] at he
      cases o with
      | none => rfl
      | some _ => cases he
    | some e =>
      rw [he, Option.elim_some, leaveEdit] at heq
      by_cases htemp : e.temp = some true
      · rw [if_pos htemp] at heq
        exact editsOf_of_own hstep (editsOf_filter_toList h he (congrArg Database.edits heq)) rfl
      · rw [if_neg htemp] at heq
        have hleft : ((reset v p t).perform db).edits =
            db.edits.modify e.id (fun e => { e with startedEditingAt := none }) (fun _ => rfl) :=
          congrArg Database.edits heq
        exact editsOf_of_own hstep (editsOf_modify_toList h he hleft fun _ => ⟨rfl, rfl⟩) rfl

end EditingRequest

/-! ## Runs -/

namespace EditingRequest

open Database

variable {u s : Nat}

theorem users_perform (db : Database) (r : EditingRequest) : (r.perform db).users = db.users := by
  cases r with
  | edit v now p id =>
    rcases StepsController.edit_cases v now p id db with ⟨-, heq⟩ | ⟨t, -, -, ⟨e, -, heq⟩ | ⟨-, heq⟩⟩
    · rw [perform, handle, heq]
    · rw [perform, handle, heq]
      rfl
    · rw [perform, handle, heq]
      split
      · rfl
      · rfl
  | update v now p id params => exact StepsController.touches_update db v now p id params .users (by decide)
  | reset v p t =>
    rw [perform, handle, StepsController.resetStartedEditing_eq]
    split
    · cases db.editOf v.id t with
      | none => rfl
      | some e =>
        rw [Option.elim_some, StepsController.leaveEdit]
        split
        · rfl
        · rfl
    · rfl

/-- Over a run, a user has one edit of a step at most, and is editing it when the last of their requests on
it asked for the form, or when they were editing it before and have made no request on it since. -/
theorem editsOf_after {db : Database} {rs : List EditingRequest}
    (hrs : Run.Along (fun db (r : EditingRequest) => r.perform db)
      (fun db (r : EditingRequest) => r.Completes db ∧ r.ByAuthor db) db rs)
    {o : Option Edit} (h : db.editsOf u s = o.toList) :
    ∃ o' : Option Edit, (Run.after (fun db (r : EditingRequest) => r.perform db) db rs).editsOf u s = o'.toList ∧
      o'.any (·.startedEditingAt.isSome) =
        (lastOn u s db rs).elim (o.any (·.startedEditingAt.isSome)) EditingRequest.isEdit := by
  induction rs generalizing db o with
  | nil => exact ⟨o, h, rfl⟩
  | cons r rs ih =>
    obtain ⟨o₁, h₁, hconcerns, hother⟩ := editsOf_perform hrs.1.1 hrs.1.2 h
    obtain ⟨o', h', hediting⟩ := ih hrs.2 h₁
    refine ⟨o', h', hediting.trans ?_⟩
    rw [lastOn]
    cases lastOn u s (r.perform db) rs with
    | some last => rfl
    | none =>
      dsimp only
      by_cases hc : r.Concerns db u s
      · rw [if_pos hc]
        exact hconcerns hc
      · rw [if_neg hc]
        exact congrArg (fun o : Option Edit => o.any (·.startedEditingAt.isSome)) (hother hc)

end EditingRequest

namespace Database

theorem mem_editingAuthors {db : Database} {s : Nat} {user : User} (huser : user ∈ db.users.rows) :
    user ∈ db.editingAuthors s ↔ ∃ e ∈ db.editsOf user.id s, e.startedEditingAt.isSome = true := by
  have hfind : db.users.find? user.id = some user := Table.find?_of_mem huser
  rw [editingAuthors, List.mem_filterMap]
  constructor
  · rintro ⟨e, he, heu⟩
    obtain ⟨i, hi, hiu⟩ := Option.bind_eq_some_iff.mp heu
    rw [List.mem_filter, List.mem_filter, decide_eq_true_eq] at he
    have hid : user.id = i := (Table.find?_eq_some.mp hiu).2
    exact ⟨e, mem_editsOf.mpr ⟨he.1.1, hid ▸ hi, he.1.2⟩, he.2⟩
  · rintro ⟨e, he, hstarted⟩
    obtain ⟨hmem, hu, hs⟩ := mem_editsOf.mp he
    refine ⟨e, ?_, by rw [hu]; exact hfind⟩
    rw [List.mem_filter, List.mem_filter, decide_eq_true_eq]
    exact ⟨⟨hmem, hs⟩, hstarted⟩

end Database

/-- Since a step was created, each user has one edit of it at most, and the editing authors are the users whose
last request on the step asked for its form. -/
theorem editing_sessions {db : Database} (hnew : ∀ e ∈ db.edits.rows, e.stepId ≠ some db.steps.next)
    {creator : User} {now : Nat} {html : Bool} {p : Nat} {params : List StepAttr}
    (hcreated : (StepsController.create creator now html p params db).1 = .ok) {rs : List EditingRequest}
    (hrs : Run.Along (fun db (r : EditingRequest) => r.perform db)
      (fun db (r : EditingRequest) => r.Completes db ∧ r.ByAuthor db)
      (StepsController.create creator now html p params db).2 rs) :
    let start := (StepsController.create creator now html p params db).2
    let db' := Run.after (fun db (r : EditingRequest) => r.perform db) start rs
    (∀ u, (db'.editsOf u db.steps.next).length ≤ 1) ∧ ∀ user ∈ db'.users.rows,
      user ∈ db'.editingAuthors db.steps.next ↔
        ∃ r, EditingRequest.lastOn user.id db.steps.next start rs = some r ∧ r.isEdit = true := by
  intro start db'
  -- the create leaves one edit, of its user, who is not editing
  have hstart : ∀ u, ∃ o : Option Edit, start.editsOf u db.steps.next = o.toList ∧
      o.any (·.startedEditingAt.isSome) = false := by
    intro u
    rcases StepsController.edits_create creator now html p params db with ⟨hno, -⟩ | ⟨project, -, -, hedits⟩
    · exact absurd hcreated hno
    · have hadded := Database.editsOf_insert (u := u) (s := db.steps.next) (show start.edits = db.edits.insert
        (fun i => ⟨i, some creator.id, some db.steps.next, some project.id, none, none⟩) (fun _ => rfl) from hedits)
      have hnone : db.editsOf u db.steps.next = [] := by
        rw [Database.editsOf, List.filter_eq_nil_iff]
        intro e he hboth
        rw [decide_eq_true_eq] at hboth
        exact hnew e he hboth.2
      rw [hnone, List.nil_append] at hadded
      by_cases hu : creator.id = u
      · rw [if_pos ⟨congrArg some hu, rfl⟩] at hadded
        exact ⟨some _, hadded, rfl⟩
      · rw [if_neg fun hc => hu (Option.some.inj hc.1)] at hadded
        exact ⟨none, hadded, rfl⟩
  have hafter : ∀ u, ∃ o : Option Edit, db'.editsOf u db.steps.next = o.toList ∧
      o.any (·.startedEditingAt.isSome) = (EditingRequest.lastOn u db.steps.next start rs).any EditingRequest.isEdit := by
    intro u
    obtain ⟨o, ho, hnot⟩ := hstart u
    obtain ⟨o', ho', hediting⟩ := EditingRequest.editsOf_after hrs ho
    refine ⟨o', ho', hediting.trans ?_⟩
    rw [hnot]
    cases EditingRequest.lastOn u db.steps.next start rs with
    | none => rfl
    | some r => rfl
  constructor
  · intro u
    obtain ⟨o, ho, -⟩ := hafter u
    rw [ho]
    exact Option.length_toList_le
  · intro user huser
    obtain ⟨o, ho, hediting⟩ := hafter user.id
    rw [Database.mem_editingAuthors huser, ho, ← Option.any_eq_true, ← hediting, Option.any_eq_true]
    simp only [Option.mem_toList]

theorem editing_sessions_lamp :
    let db := Database.oneProject "Lamp".toList (some "public".toList)
    let start := (StepsController.create ada 5 true 1 [.name ['A']] db).2
    let db' := Run.after (fun db (r : EditingRequest) => r.perform db) start [.edit ada 6 1 0, .reset ada 1 1, .edit ada 7 1 0]
    (∀ u, (db'.editsOf u 1).length ≤ 1) ∧ ∀ user ∈ db'.users.rows, user ∈ db'.editingAuthors 1 ↔
      ∃ r, EditingRequest.lastOn user.id 1 start [.edit ada 6 1 0, .reset ada 1 1, .edit ada 7 1 0] = some r ∧
        r.isEdit = true :=
  @editing_sessions (.oneProject "Lamp".toList (some "public".toList)) (by decide +kernel) ada 5 true 1 [.name ['A']]
    (by decide +kernel) [.edit ada 6 1 0, .reset ada 1 1, .edit ada 7 1 0] (by decide +kernel)

/-! ## Saved authorship -/

namespace Database

variable {db : Database} {u s : Nat}

theorem mem_stepUsers {user : User} (huser : user ∈ db.users.rows) :
    user ∈ db.stepUsers s ↔ db.editsOf user.id s ≠ [] := by
  have hfind : db.users.find? user.id = some user := Table.find?_of_mem huser
  rw [stepUsers, List.mem_filterMap, editsOf_ne_nil]
  constructor
  · rintro ⟨e, he, heu⟩
    obtain ⟨i, hi, hiu⟩ := Option.bind_eq_some_iff.mp heu
    rw [List.mem_filter, decide_eq_true_eq] at he
    have hid : user.id = i := (Table.find?_eq_some.mp hiu).2
    exact ⟨e, mem_editsOf.mpr ⟨he.1, hid ▸ hi, he.2⟩⟩
  · rintro ⟨e, he⟩
    obtain ⟨hmem, hu, hs⟩ := mem_editsOf.mp he
    refine ⟨e, ?_, by rw [hu]; exact hfind⟩
    rw [List.mem_filter, decide_eq_true_eq]
    exact ⟨hmem, hs⟩

/-- Leaving the form of step `s` takes no author from it: the edit it finds is not a temporary one, or the
user has another one. -/
def Leaves (db : Database) (u s : Nat) : Prop :=
  ∀ e ∈ db.editOf u s, e.temp = some true → ∃ e' ∈ db.editsOf u s, e'.id ≠ e.id

instance (db : Database) (u s : Nat) : Decidable (db.Leaves u s) := by
  unfold Leaves
  infer_instance

end Database

namespace EditingRequest

open Database StepsController

variable {db : Database} {u s : Nat}

/-- When the user leaves the form of the step, they do not lose their edit of it. -/
def KeepsEdit (u s : Nat) (db : Database) : EditingRequest → Prop
  | reset v p t => v.id = u ∧ t = s ∧ (db.projects.find? p).isSome = true → db.Leaves u s
  | _ => True

instance (u s : Nat) (db : Database) (r : EditingRequest) : Decidable (r.KeepsEdit u s db) := by
  cases r with
  | reset v p t => exact inferInstanceAs (Decidable (_ → _))
  | edit v now p id => exact inferInstanceAs (Decidable True)
  | update v now p id params => exact inferInstanceAs (Decidable True)

theorem editsOf_modify_ne_nil {db' : Database} {i : Nat} (f : Edit → Edit) {hf : ∀ e, Keyed.key (f e) = Keyed.key e}
    (h : db.editsOf u s ≠ []) (hedits : db'.edits = db.edits.modify i f hf)
    (hkeep : ∀ e, (f e).userId = e.userId ∧ (f e).stepId = e.stepId) : db'.editsOf u s ≠ [] := by
  rw [editsOf_modify hedits hkeep]
  exact fun hnil => h (List.map_eq_nil_iff.mp hnil)

/-- An edit that is destroyed leaves `u` on `s` exactly when it is not their last one. -/
theorem editsOf_leaveEdit {v t : Nat} {e : Edit} (h : db.editsOf u s ≠ []) (he : db.editOf v t = some e) :
    (leaveEdit db e).editsOf u s ≠ [] ↔ (v = u ∧ t = s → db.Leaves u s) := by
  rw [leaveEdit]
  by_cases htemp : e.temp = some true
  · rw [if_pos htemp, editsOf_ne_nil, editsOf_filter rfl]
    simp only [List.mem_filter, decide_eq_true_eq]
    by_cases hsame : v = u ∧ t = s
    · rw [hsame.1, hsame.2] at he
      constructor
      · intro hleft _ e' he'
        rw [he] at he'
        cases he'
        exact fun _ => hleft
      · intro hleaves
        exact hleaves hsame e he htemp
    · refine iff_of_true ?_ fun hc => absurd hc hsame
      obtain ⟨r, hr⟩ := List.exists_mem_of_ne_nil _ h
      exact ⟨r, hr, id_ne_of_other (mem_of_editOf he) hsame hr⟩
  · rw [if_neg htemp]
    have hleft : ({ db with
        edits := db.edits.modify e.id (fun e => { e with startedEditingAt := none }) (fun _ => rfl) } : Database).edits =
        db.edits.modify e.id (fun e => { e with startedEditingAt := none }) (fun _ => rfl) := rfl
    refine iff_of_true (editsOf_modify_ne_nil _ h hleft fun _ => ⟨rfl, rfl⟩) ?_
    intro hsame e' he' htemp'
    rw [← hsame.1, ← hsame.2, he] at he'
    cases he'
    exact absurd htemp' htemp

/-- One request keeps an author on the step exactly under the condition. -/
theorem keepsEdit_iff (r : EditingRequest) (h : db.editsOf u s ≠ []) :
    r.KeepsEdit u s db ↔ (r.perform db).editsOf u s ≠ [] := by
  -- only leaving the form can take an edit away
  cases r with
  | edit v now p id =>
    refine iff_of_true trivial ?_
    rcases edit_cases v now p id db with ⟨-, heq⟩ | ⟨t, -, -, ⟨e, -, heq⟩ | ⟨-, heq⟩⟩
    · rw [perform, handle, heq]
      exact h
    · rw [perform, handle, heq]
      have hstarted : (startEdit db e now).edits =
          db.edits.modify e.id (fun e => { e with startedEditingAt := some now }) (fun _ => rfl) := rfl
      exact editsOf_modify_ne_nil _ h hstarted fun _ => ⟨rfl, rfl⟩
    · rw [perform, handle, heq]
      split
      · have hadded : (createEdit db v.id t.id p (some now) (some true)).edits = db.edits.insert
            (fun i => ⟨i, some v.id, some t.id, some p, some now, some true⟩) (fun _ => rfl) := rfl
        rw [editsOf_insert hadded]
        exact List.append_ne_nil_of_left_ne_nil h _
      · exact h
  | update v now p id params =>
    refine iff_of_true trivial ?_
    rcases edits_update v now p id params db with ⟨-, hsame⟩ | ⟨t, e, -, -, hedits⟩
    · exact editsOf_congr hsame u s ▸ h
    · have hcleared : ((update v now p id params).perform db).edits = db.edits.modify e.id
          (fun e => { e with startedEditingAt := none, projectId := some (e.projectId.getD p) }) (fun _ => rfl) := hedits
      exact editsOf_modify_ne_nil _ h hcleared fun _ => ⟨rfl, rfl⟩
  | reset v p t =>
    rw [perform, handle, resetStartedEditing_eq, KeepsEdit]
    by_cases hproject : (db.projects.find? p).isSome = true
    · rw [if_pos hproject]
      cases he : db.editOf v.id t with
      | none =>
        rw [Option.elim_none]
        refine iff_of_true ?_ h
        intro hsame e' he'
        rw [← hsame.1, ← hsame.2.1, he] at he'
        cases he'
      | some e =>
        rw [Option.elim_some, editsOf_leaveEdit h he]
        exact ⟨fun hk hsame => hk ⟨hsame.1, hsame.2, hproject⟩, fun hk hsame => hk ⟨hsame.1, hsame.2.1⟩⟩
    · rw [if_neg hproject]
      exact iff_of_true (fun hc => absurd hc.2.2 hproject) h

end EditingRequest

/-- Once a user has updated a step, they are among its users in every later state exactly when no form is
left in a way that destroys their last edit. -/
theorem authorship_kept_iff {db : Database} {u : User} (huser : u ∈ db.users.rows) {now p : Nat} {id : Int}
    {params : List StepAttr} {s : Step} (hs : StepsController.findByPosition db p id = some s)
    (hupdated : (StepsController.update u now p id params db).1 = .ok) (rs : List EditingRequest) :
    (∀ n, u ∈ (Run.after (fun db (r : EditingRequest) => r.perform db) (StepsController.update u now p id params db).2
        (rs.take n)).stepUsers s.id) ↔
      Run.Along (fun db (r : EditingRequest) => r.perform db) (fun db (r : EditingRequest) => r.KeepsEdit u.id s.id db)
        (StepsController.update u now p id params db).2 rs := by
  have hmem : u ∈ (StepsController.update u now p id params db).2.users.rows := by
    rw [show (StepsController.update u now p id params db).2.users = db.users from
      EditingRequest.users_perform db (.update u now p id params)]
    exact huser
  -- the update has found an edit of the user
  have hedit : (StepsController.update u now p id params db).2.editsOf u.id s.id ≠ [] := by
    rcases StepsController.edits_update u now p id params db with ⟨hno, -⟩ | ⟨t, e, ht, he, -⟩
    · exact absurd hupdated hno
    · cases ht.symm.trans hs
      refine (EditingRequest.keepsEdit_iff (.update u now p id params) ?_).mp trivial
      exact List.ne_nil_of_mem (Database.mem_of_editOf he)
  refine Run.along_iff_forall_take (A := fun _ _ => True) (I := fun db : Database => u ∈ db.stepUsers s.id)
    (J := fun db : Database => u ∈ db.users.rows) ?_ ?_ hmem ((Database.mem_stepUsers hmem).mpr hedit)
    (Run.Along.of_forall fun _ _ => trivial)
  · intro db' r hin _
    rw [EditingRequest.users_perform]
    exact hin
  · intro db' r hin hon _
    rw [Database.mem_stepUsers (by rw [EditingRequest.users_perform]; exact hin)]
    exact r.keepsEdit_iff ((Database.mem_stepUsers hin).mp hon)

/-- A lamp of two authors with a step of the first, whose form the second has opened. -/
def Database.openedByBob : Database :=
  Run.after (fun db (r : EditingRequest) => r.perform db)
    (StepsController.create ada 5 true 1 [.name ['A']] twoAuthors).2 [.edit bob 6 1 0]

theorem authorship_kept_bob :
    bob ∈ (Run.after (fun db (r : EditingRequest) => r.perform db)
      (StepsController.update bob 7 1 0 [.name ['B']] .openedByBob).2
      (List.take 3 [.edit bob 8 1 0, .edit ada 9 1 0, .reset ada 1 1])).stepUsers 1 :=
  (@authorship_kept_iff .openedByBob bob (by decide +kernel) 7 1 0 [.name ['B']]
    ((StepsController.findByPosition .openedByBob 1 0).get (by decide +kernel)) (by decide +kernel) (by decide +kernel)
    _).mpr (by decide +kernel) 3

/-- Bob updates the step, opens its form again and leaves it. -/
theorem authorship_lost :
    bob ∈ Database.openedByBob.users.rows ∧ Database.openedByBob.author 1 bob.id = true ∧
      (StepsController.update bob 7 1 0 [.name ['B']] .openedByBob).1 = .ok ∧
      bob ∈ (StepsController.update bob 7 1 0 [.name ['B']] .openedByBob).2.stepUsers 1 ∧
      bob ∉ (Run.after (fun db (r : EditingRequest) => r.perform db)
        (StepsController.update bob 7 1 0 [.name ['B']] .openedByBob).2 [.edit bob 8 1 0, .reset bob 1 1]).stepUsers 1 := by
  refine ⟨by decide +kernel, by decide +kernel, by decide +kernel, by decide +kernel, by decide +kernel⟩
