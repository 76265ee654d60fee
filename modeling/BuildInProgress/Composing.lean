import BuildInProgress.MediaAuthorization
import BuildInProgress.CreateRace

/-!
# Composing a step

While a step is composed, its images and videos are uploaded with the step id `-1`.  The submitted form
then claims every such row of the project, whoever has uploaded it.  The runs of this module interleave
the sessions of any number of collaborators on one project.
-/

open Text

/-! ## Images and videos alike -/

/-- What `create` asks of an image or a video. -/
structure Medium where
  video : Bool
  id : Nat
  stepId : Option Int
  projectId : Option Nat
  userId : Option Nat
  deriving DecidableEq, Repr

namespace Medium

def ofImage (m : Image) : Medium := ⟨false, m.id, m.stepId, m.projectId, m.userId⟩

def ofVideo (v : Video) : Medium := ⟨true, v.id, v.stepId, v.projectId, v.userId⟩

/-- Uploaded to project `p` for a step that is not saved yet. -/
def draft (p : Nat) (x : Medium) : Bool := decide (x.projectId = some p ∧ x.stepId = some (-1))

/-- The medium after step `s` of project `p` was created. -/
def claimed (p s : Nat) (x : Medium) : Medium := if x.draft p then { x with stepId := some s } else x

/-- The row was not there in `db`. -/
def since (db : Database) (x : Medium) : Bool :=
  if x.video then db.videos.next ≤ x.id else db.images.next ≤ x.id

@[simp] theorem claimed_since (p s : Nat) (x : Medium) (db : Database) :
    (x.claimed p s).since db = x.since db := by
  unfold claimed
  split <;> rfl

@[simp] theorem claimed_projectId (p s : Nat) (x : Medium) : (x.claimed p s).projectId = x.projectId := by
  unfold claimed
  split <;> rfl

@[simp] theorem claimed_userId (p s : Nat) (x : Medium) : (x.claimed p s).userId = x.userId := by
  unfold claimed
  split <;> rfl

theorem claimed_stepId_of_draft {p : Nat} {x : Medium} (h : x.draft p = true) (s : Nat) :
    (x.claimed p s).stepId = some (s : Int) := by
  rw [claimed, if_pos h]

theorem claimed_of_placed {p i : Nat} {x : Medium} (h : x.stepId = some (i : Int)) (s : Nat) :
    x.claimed p s = x := by
  refine if_neg ?_
  rw [draft, decide_eq_true_eq, h]
  rintro ⟨-, hi⟩
  rw [Option.some.injEq] at hi
  omega

end Medium

def Database.media (db : Database) : List Medium :=
  db.images.rows.map Medium.ofImage ++ db.videos.rows.map Medium.ofVideo

namespace Database

theorem not_since_of_mem {db : Database} {x : Medium} (h : x ∈ db.media) : x.since db = false := by
  rw [media, List.mem_append] at h
  rcases h with h | h
  · obtain ⟨m, hm, rfl⟩ := List.mem_map.mp h
    exact decide_eq_false (Nat.not_le_of_lt (db.images.bound m hm).2)
  · obtain ⟨v, hv, rfl⟩ := List.mem_map.mp h
    exact decide_eq_false (Nat.not_le_of_lt (db.videos.bound v hv).2)

theorem mem_media_concat {db db' : Database} {ms : List Image} {vs : List Video}
    (hm : db'.images.rows = db.images.rows ++ ms) (hv : db'.videos.rows = db.videos.rows ++ vs) {x : Medium} :
    x ∈ db'.media ↔ x ∈ db.media ∨ x ∈ ms.map Medium.ofImage ∨ x ∈ vs.map Medium.ofVideo := by
  rw [media, media, hm, hv]
  simp only [List.map_append, List.mem_append]
  tauto

theorem media_claimMedia (db : Database) (p s : Nat) :
    (StepsController.claimMedia db p s).media = db.media.map (Medium.claimed p s) := by
  have himage : Medium.ofImage ∘ (fun m : Image => if m.projectId = some p ∧ m.stepId = some (-1) then
      { m with saved := some true, stepId := some (s : Int) } else m) =
      Medium.claimed p s ∘ Medium.ofImage := by
    funext m
    have hdraft : (Medium.ofImage m).draft p = decide (m.projectId = some p ∧ m.stepId = some (-1)) := rfl
    rw [Function.comp, Function.comp, Medium.claimed, hdraft]
    by_cases h : m.projectId = some p ∧ m.stepId = some (-1)
    · rw [if_pos h, if_pos (decide_eq_true h)]
      rfl
    · rw [if_neg h, if_neg (by simpa using h)]
  have hvideo : Medium.ofVideo ∘ (fun v : Video => if v.projectId = some p ∧ v.stepId = some (-1) then
      { v with saved := some true, stepId := some (s : Int) } else v) =
      Medium.claimed p s ∘ Medium.ofVideo := by
    funext v
    have hdraft : (Medium.ofVideo v).draft p = decide (v.projectId = some p ∧ v.stepId = some (-1)) := rfl
    rw [Function.comp, Function.comp, Medium.claimed, hdraft]
    by_cases h : v.projectId = some p ∧ v.stepId = some (-1)
    · rw [if_pos h, if_pos (decide_eq_true h)]
      rfl
    · rw [if_neg h, if_neg (by simpa using h)]
  rw [media, media, StepsController.claimMedia]
  dsimp only
  rw [Table.rows_map, Table.rows_map, List.map_map, List.map_map, himage, hvideo, List.map_append,
    List.map_map, List.map_map]

end Database

namespace StepsController

open Database

/-- The checks of `create`: the project, the parameters, the permission and the validations. -/
def accepts (u : User) (now : Nat) (html : Bool) (p : Nat) (params : List StepAttr) (db : Database) : Bool :=
  match getGlobalVariables u html p params db with
  | none => false
  | some r => r.accepted now db

/-- A submitted form is refused, or its step takes the drafts of the project. -/
theorem create_html_cases (u : User) (now p : Nat) (params : List StepAttr) (db : Database) :
    (accepts u now true p params db = false ∧ (create u now true p params db).2 = db) ∨
      (accepts u now true p params db = true ∧
        (create u now true p params db).2.media = db.media.map (Medium.claimed p db.steps.next) ∧
        (create u now true p params db).2.steps.rows.map Step.id = db.steps.rows.map Step.id ++ [db.steps.next]) := by
  have hmedia : ∀ (project : Project) (s : Step) (db' : Database), project.id = p →
      (afterCreate u now true project s (createParams db p params) db').media =
        db'.media.map (Medium.claimed p s.id) := by
    intro project s db' hp
    obtain ⟨db₁, htouch, heq⟩ := afterCreate_eq db' u now true project s (createParams db p params)
    rw [heq, if_pos rfl, media_claimMedia, hp, media, media, (htouch .images (by decide) : _ = _),
      (htouch .videos (by decide) : _ = _)]
  rw [accepts, create_eq_pending, getGlobalVariables]
  cases hproject : db.projects.find? p with
  | none => exact Or.inl ⟨rfl, rfl⟩
  | some project =>
    have hp : project.id = p := (Table.find?_eq_some.mp hproject).2
    rw [Option.map_some]
    dsimp only
    generalize hr : (⟨u, true, params, project, (db.projectSteps p).length⟩ : Pending) = r
    cases hacc : r.accepted now db with
    | false => exact Or.inl ⟨rfl, Pending.create_of_not_accepted hacc⟩
    | true =>
      obtain ⟨s, hid, -, -, heq⟩ := Pending.create_of_accepted hacc
      subst hr
      rw [Pending.stepParams] at heq
      dsimp only at heq
      rw [heq, hp]
      dsimp only
      refine Or.inr ⟨rfl, ?_, ?_⟩
      · rw [hmedia project s _ hp, hid]
        rfl
      · rw [rows_afterCreate, insertStep, Table.rows_insert, List.map_map]
        -- the publication time keeps the ids
        have hkeep : Step.id ∘ (fun r : Step => if r.id = s.id then
            r.updated (some now) fun s => { s with publishedOn := some s.createdAt } else r) = Step.id := by
          funext r
          rw [Function.comp]
          split
          · exact Step.updated_id _ (by intro _; rfl) r
          · rfl
        rw [hkeep, List.map_append, List.map_singleton]

end StepsController

/-! ## Sessions -/

/-- The database, and which user's form created which step. -/
structure Composing where
  db : Database
  created : List (Nat × Nat)

namespace Composing

open Database

inductive Event where
  | image (u : User) (now : Nat) (up : ImagesController.Upload)
  | video (u : User) (now : Nat) (up : VideosController.Upload)
  /-- The form of the new step, as HTML. -/
  | submit (u : User) (now : Nat) (params : List StepAttr)

namespace Event

def user : Event → User
  | image u _ _ => u
  | video u _ _ => u
  | submit u _ _ => u

end Event

section Sessions

variable (info : VideosController.VideoInfo) (p : Nat)

/-- The uploads are drafts for project `p`, under the name of the user. -/
def Event.ForProject : Event → Prop
  | .image u _ up => ∀ i, (up.image i).projectId = some p ∧ (up.image i).stepId = some (-1) ∧
      (up.image i).userId = some u.id
  | .video u _ up => ∀ i, ∀ v ∈ up.video info i, v.projectId = some p ∧ v.stepId = some (-1) ∧
      v.userId = some u.id
  | .submit _ _ _ => True

def step (s : Composing) : Event → Composing
  | .image u now up => { s with db := (ImagesController.create u now up s.db).2 }
  | .video u now up => { s with db := (VideosController.create u now info up s.db).2 }
  | .submit u now params =>
    { db := (StepsController.create u now true p params s.db).2
      created := if StepsController.accepts u now true p params s.db then
        (u.id, s.db.steps.next) :: s.created else s.created }

/-- The session of the user is not over: no step of theirs was created yet. -/
def Open (s : Composing) (e : Event) : Prop := e.user.id ∉ s.created.map Prod.fst

/-- A form that goes through finds no draft of another user among the uploads since `db`. -/
def Alone (db : Database) (s : Composing) : Event → Prop
  | .submit u now params => StepsController.accepts u now true p params s.db = true →
      ∀ x ∈ s.db.media, x.since db = true → x.draft p = true → x.userId = some u.id
  | _ => True

instance decidableAlone (db : Database) (s : Composing) : ∀ e, Decidable (Alone p db s e)
  | .submit u now params => inferInstanceAs (Decidable (StepsController.accepts u now true p params s.db = true →
      ∀ x ∈ s.db.media, x.since db = true → x.draft p = true → x.userId = some u.id))
  | .image _ _ _ => .isTrue trivial
  | .video _ _ _ => .isTrue trivial

instance (s : Composing) (e : Event) : Decidable (Open s e) :=
  inferInstanceAs (Decidable (e.user.id ∉ s.created.map Prod.fst))

/-- Every upload since `db` is in the step that its uploader has created. -/
def Settled (db : Database) (s : Composing) : Prop :=
  ∀ x ∈ s.db.media, x.since db = true →
    ∃ c ∈ s.created, x.userId = some c.1 ∧ x.stepId = some (c.2 : Int)

/-- An upload is a draft of a user whose session is open, or it is in the step of its uploader. -/
structure Unmixed (db : Database) (users : List Nat) (s : Composing) : Prop where
  media : ∀ x ∈ s.db.media, x.since db = true → x.projectId = some p ∧ ∃ u ∈ users, x.userId = some u ∧
    (x.stepId = some (-1) ∧ u ∉ s.created.map Prod.fst ∨ ∃ i : Nat, x.stepId = some (i : Int) ∧ (u, i) ∈ s.created)
  created : ∀ c ∈ s.created, c.2 ∈ s.db.steps.rows.map Step.id

/-- An upload is in a step that another user has created. -/
def Mixed (db : Database) (s : Composing) : Prop :=
  ∃ x ∈ s.db.media, x.since db = true ∧ ∃ u i : Nat, x.userId = some u ∧ x.stepId = some (i : Int) ∧
    i ∈ s.db.steps.rows.map Step.id ∧ (u, i) ∉ s.created

/-- What is assumed of the next event: it belongs to an open session on the project. -/
def Admitted (users : List Nat) (s : Composing) (e : Event) : Prop :=
  e.ForProject info p ∧ Open s e ∧ e.user.id ∈ users

end Sessions

variable {info : VideosController.VideoInfo} {p : Nat} {db : Database} {users : List Nat}

theorem Unmixed.not_mixed {s : Composing} (h : Unmixed p db users s) : ¬ Mixed db s := by
  rintro ⟨x, hx, hsince, u, i, hu, hi, -, hno⟩
  obtain ⟨-, v, -, hv, hplace⟩ := h.media x hx hsince
  rw [hu, Option.some.injEq] at hv
  subst hv
  rcases hplace with ⟨hdraft, -⟩ | ⟨j, hj, hmem⟩
  · rw [hi, Option.some.injEq] at hdraft
    omega
  · rw [hi, Option.some.injEq, Int.natCast_inj] at hj
    rw [hj] at hno
    exact hno hmem

-- An upload of an open session adds drafts of its user and changes no other medium.
theorem media_upload {s : Composing} {e : Event} (he : e.ForProject info p)
    (hup : ∀ u now params, e ≠ .submit u now params) :
    (step info p s e).created = s.created ∧ (step info p s e).db.steps = s.db.steps ∧
      (∀ x ∈ s.db.media, x ∈ (step info p s e).db.media) ∧
      ∀ x ∈ (step info p s e).db.media, x ∈ s.db.media ∨
        x.projectId = some p ∧ x.stepId = some (-1) ∧ x.userId = some e.user.id := by
  -- whatever rows are added, when they are drafts of the user
  have hadded : ∀ {db' : Database} {ms : List Image} {vs : List Video}, db'.images.rows = s.db.images.rows ++ ms →
      db'.videos.rows = s.db.videos.rows ++ vs →
      (∀ x ∈ ms.map Medium.ofImage ++ vs.map Medium.ofVideo,
        x.projectId = some p ∧ x.stepId = some (-1) ∧ x.userId = some e.user.id) →
      (∀ x ∈ s.db.media, x ∈ db'.media) ∧ ∀ x ∈ db'.media, x ∈ s.db.media ∨
        x.projectId = some p ∧ x.stepId = some (-1) ∧ x.userId = some e.user.id := by
    intro db' ms vs hm hv hnew
    refine ⟨fun x hx => (mem_media_concat hm hv).mpr (Or.inl hx), fun x hx => ?_⟩
    rcases (mem_media_concat hm hv).mp hx with hx | hx
    · exact Or.inl hx
    · exact Or.inr (hnew x (List.mem_append.mpr hx))
  have hsame : ∀ {db' : Database}, db' = s.db → db'.steps = s.db.steps ∧ (∀ x ∈ s.db.media, x ∈ db'.media) ∧
      ∀ x ∈ db'.media, x ∈ s.db.media ∨
        x.projectId = some p ∧ x.stepId = some (-1) ∧ x.userId = some e.user.id := by
    rintro _ rfl
    exact ⟨rfl, fun _ h => h, fun _ h => Or.inl h⟩
  cases e with
  | image u now up =>
    refine ⟨rfl, ?_⟩
    rcases ImagesController.create_cases u now up s.db with ⟨-, heq⟩ | ⟨-, himages, -, hvideos, -, htouch⟩
    · exact hsame heq
    · have hnone : (ImagesController.create u now up s.db).2.videos.rows = s.db.videos.rows ++ [] := by
        rw [hvideos, List.append_nil]
      refine ⟨htouch .steps (by decide), hadded himages hnone ?_⟩
      intro x hx
      rw [List.map_singleton, List.map_nil, List.append_nil, List.mem_singleton] at hx
      subst hx
      exact he _
  | video u now up =>
    refine ⟨rfl, ?_⟩
    rcases VideosController.create_cases u now info up s.db with
      ⟨-, heq⟩ | ⟨v, hv, ⟨-, heq⟩ | ⟨q, project, -, -, -, himages, -, hvideos, -, htouch⟩⟩
    · exact hsame heq
    · -- the row of the video alone
      have hnone : (VideosController.create u now info up s.db).2.images.rows = s.db.images.rows ++ [] := by
        rw [heq, List.append_nil]
        rfl
      have hrow : (VideosController.create u now info up s.db).2.videos.rows =
          s.db.videos.rows ++ [{ v with id := s.db.videos.next }] := by
        rw [heq, VideosController.insertVideo, Table.rows_insert]
      refine ⟨?_, hadded hnone hrow ?_⟩
      · show (VideosController.create u now info up s.db).2.steps = s.db.steps
        rw [heq]
        rfl
      · intro x hx
        rw [List.map_nil, List.nil_append, List.map_singleton, List.mem_singleton] at hx
        subst hx
        exact he _ v hv
    · refine ⟨htouch .steps (by decide), hadded himages hvideos ?_⟩
      obtain ⟨hp, hs, hu⟩ := he _ v hv
      intro x hx
      rw [List.map_singleton, List.map_singleton, List.mem_append, List.mem_singleton, List.mem_singleton] at hx
      rcases hx with rfl | rfl
      · exact ⟨hp, hs, rfl⟩
      · exact ⟨hp, hs, hu⟩
  | submit u now params => exact absurd rfl (hup u now params)

theorem step_submit_refused {s : Composing} {u : User} {now : Nat} {params : List StepAttr}
    (hacc : StepsController.accepts u now true p params s.db = false)
    (heq : (StepsController.create u now true p params s.db).2 = s.db) :
    step info p s (.submit u now params) = s := by
  rw [step, heq, hacc]
  rfl

theorem created_submit {s : Composing} {u : User} {now : Nat} {params : List StepAttr}
    (hacc : StepsController.accepts u now true p params s.db = true) :
    (step info p s (.submit u now params)).created = (u.id, s.db.steps.next) :: s.created := by
  rw [step, hacc]
  rfl

theorem notMem_next (db : Database) : db.steps.next ∉ db.steps.rows.map Step.id := by
  intro hmem
  obtain ⟨t, ht, hid⟩ := List.mem_map.mp hmem
  exact Nat.ne_of_lt (db.steps.bound t ht).2 hid

theorem unmixed_step {s : Composing} (h : Unmixed p db users s) {e : Event} (he : Admitted info p users s e)
    (halone : Alone p db s e) : Unmixed p db users (step info p s e) := by
  by_cases hup : ∃ u now params, e = .submit u now params
  · obtain ⟨u, now, params, rfl⟩ := hup
    -- a form that goes through takes the drafts, and they are all its user's
    rcases StepsController.create_html_cases u now p params s.db with ⟨hacc, heq⟩ | ⟨hacc, hmedia, hsteps⟩
    · rw [step_submit_refused hacc heq]
      exact h
    · refine ⟨fun y hy hsince => ?_, fun c hc => ?_⟩
      · rw [created_submit hacc]
        rw [show (step info p s (.submit u now params)).db = (StepsController.create u now true p params s.db).2
          from rfl, hmedia] at hy
        obtain ⟨x, hx, rfl⟩ := List.mem_map.mp hy
        rw [Medium.claimed_since] at hsince
        rw [Medium.claimed_projectId, Medium.claimed_userId]
        obtain ⟨hp, v, hv, huser, hplace⟩ := h.media x hx hsince
        refine ⟨hp, v, hv, huser, Or.inr ?_⟩
        rcases hplace with ⟨hdraft, -⟩ | ⟨i, hi, hmem⟩
        · -- a draft is the user's own
          have hd : x.draft p = true := decide_eq_true ⟨hp, hdraft⟩
          have hown := halone hacc x hx hsince hd
          rw [huser, Option.some.injEq] at hown
          rw [hown]
          exact ⟨_, Medium.claimed_stepId_of_draft hd _, List.mem_cons_self⟩
        · rw [Medium.claimed_of_placed hi]
          exact ⟨i, hi, List.mem_cons_of_mem _ hmem⟩
      · show c.2 ∈ (StepsController.create u now true p params s.db).2.steps.rows.map Step.id
        rw [hsteps, List.mem_append]
        rw [created_submit hacc] at hc
        rcases List.mem_cons.mp hc with rfl | hc
        · exact Or.inr List.mem_cons_self
        · exact Or.inl (h.created c hc)
  · obtain ⟨hcreated, hsteps, -, hmedia⟩ := media_upload (s := s) he.1 fun u now params heq => hup ⟨u, now, params, heq⟩
    refine ⟨fun x hx hsince => ?_, fun c hc => ?_⟩
    · rw [hcreated]
      rcases hmedia x hx with hx | ⟨hp, hs, hu⟩
      · exact h.media x hx hsince
      · exact ⟨hp, e.user.id, he.2.2, hu, Or.inl ⟨hs, he.2.1⟩⟩
    · rw [hsteps]
      rw [hcreated] at hc
      exact h.created c hc

-- The form of another user takes a draft: its step is there, and it is not the uploader's.
theorem mixed_of_not_alone {s : Composing} (h : Unmixed p db users s) {e : Event}
    (halone : ¬ Alone p db s e) : Mixed db (step info p s e) := by
  cases e with
  | image u now up => exact absurd trivial halone
  | video u now up => exact absurd trivial halone
  | submit u now params =>
    rw [Alone] at halone
    push Not at halone
    obtain ⟨hacc, x, hx, hsince, hd, hother⟩ := halone
    obtain ⟨-, v, -, huser, -⟩ := h.media x hx hsince
    rcases StepsController.create_html_cases u now p params s.db with ⟨hno, -⟩ | ⟨-, hmedia, hsteps⟩
    · rw [hacc] at hno
      cases hno
    · refine ⟨x.claimed p s.db.steps.next, ?_, by rw [Medium.claimed_since]; exact hsince, v, s.db.steps.next,
        by rw [Medium.claimed_userId]; exact huser, Medium.claimed_stepId_of_draft hd _, ?_, ?_⟩
      · show _ ∈ (StepsController.create u now true p params s.db).2.media
        rw [hmedia]
        exact List.mem_map_of_mem hx
      · show _ ∈ (StepsController.create u now true p params s.db).2.steps.rows.map Step.id
        rw [hsteps]
        simp
      · rw [created_submit hacc]
        intro hmem
        rcases List.mem_cons.mp hmem with heq | hmem
        · rw [Prod.mk.injEq] at heq
          exact hother (huser.trans (congrArg some heq.1))
        · exact notMem_next s.db (h.created _ hmem)

theorem mixed_stays {s : Composing} (h : Mixed db s) {e : Event} (he : Admitted info p users s e) :
    Mixed db (step info p s e) := by
  obtain ⟨x, hx, hsince, v, i, huser, hi, hstep, hno⟩ := h
  by_cases hup : ∃ u now params, e = .submit u now params
  · obtain ⟨u, now, params, rfl⟩ := hup
    rcases StepsController.create_html_cases u now p params s.db with ⟨hacc, heq⟩ | ⟨hacc, hmedia, hsteps⟩
    · rw [step_submit_refused hacc heq]
      exact ⟨x, hx, hsince, v, i, huser, hi, hstep, hno⟩
    · refine ⟨x, ?_, hsince, v, i, huser, hi, ?_, ?_⟩
      · show x ∈ (StepsController.create u now true p params s.db).2.media
        rw [hmedia]
        exact List.mem_map.mpr ⟨x, hx, Medium.claimed_of_placed hi _⟩
      · show i ∈ (StepsController.create u now true p params s.db).2.steps.rows.map Step.id
        rw [hsteps]
        exact List.mem_append_left _ hstep
      · rw [created_submit hacc]
        intro hmem
        rcases List.mem_cons.mp hmem with heq | hmem
        · rw [Prod.mk.injEq] at heq
          rw [heq.2] at hstep
          exact notMem_next s.db hstep
        · exact hno hmem
  · obtain ⟨hcreated, hsteps, hkept, -⟩ := media_upload (s := s) he.1 fun u now params heq =>
      hup ⟨u, now, params, heq⟩
    refine ⟨x, hkept x hx, hsince, v, i, huser, hi, ?_, ?_⟩
    · rw [hsteps]
      exact hstep
    · rw [hcreated]
      exact hno

/-- Once every session is over, each upload is in the step of its uploader exactly when no form that went
through found a draft of somebody else. -/
theorem settled_iff (info : VideosController.VideoInfo) (p : Nat) (db : Database) (events : List Event)
    (hproject : ∀ e ∈ events, e.ForProject info p)
    (hopen : Run.Along (step info p) Open ⟨db, []⟩ events)
    (hover : ∀ e ∈ events, e.user.id ∈ (Run.after (step info p) ⟨db, []⟩ events).created.map Prod.fst) :
    Settled db (Run.after (step info p) ⟨db, []⟩ events) ↔
      Run.Along (step info p) (Alone p db) ⟨db, []⟩ events := by
  have hadmitted : Run.Along (step info p) (Admitted info p (events.map fun e => e.user.id)) ⟨db, []⟩ events := by
    have hfixed : Run.Along (step info p) (fun _ e => e.ForProject info p ∧
        e.user.id ∈ events.map fun e => e.user.id) ⟨db, []⟩ events :=
      .of_forall fun e he => ⟨hproject e he, List.mem_map_of_mem he⟩
    exact (hfixed.and hopen).imp fun _ _ h => ⟨h.1.1, h.2, h.1.2⟩
  have hstart : Unmixed p db (events.map fun e => e.user.id) ⟨db, []⟩ := by
    refine ⟨fun x hx hsince => ?_, fun c hc => by cases hc⟩
    rw [not_since_of_mem hx] at hsince
    cases hsince
  -- a draft in another user's step stays there, so the first such form decides
  have hharm := Run.along_iff_not_harmed (H := Mixed db) (fun _ _ h he halone => unmixed_step h he halone)
    (fun _ _ h _ halone => mixed_of_not_alone h halone) (fun _ _ h he => mixed_stays h he)
    (fun _ h => h.not_mixed) hstart hadmitted
  constructor
  · intro hsettled
    refine hharm.mpr ?_
    rintro ⟨x, hx, hsince, u, i, hu, hi, -, hno⟩
    obtain ⟨⟨v, j⟩, hmem, hv, hj⟩ := hsettled x hx hsince
    rw [hu, Option.some.injEq] at hv
    rw [hi, Option.some.injEq, Int.natCast_inj] at hj
    subst hv hj
    exact hno hmem
  · intro halone
    have hend := Run.invariant (I := Unmixed p db (events.map fun e => e.user.id))
      (fun _ _ h (he : _ ∧ _) => unmixed_step h he.1 he.2) hstart (hadmitted.and halone)
    intro x hx hsince
    obtain ⟨-, u, hu, huser, ⟨-, hno⟩ | ⟨i, hi, hmem⟩⟩ := hend.media x hx hsince
    · -- the session of the uploader is over
      obtain ⟨e, he, rfl⟩ := List.mem_map.mp hu
      exact absurd (hover e he) hno
    · exact ⟨(u, i), hmem, huser, hi⟩

/-- The web form uploads an image for the new step of project 1. -/
def webImage (u : User) (now : Nat) : Event := .image u now (.web 1 (-1) u.id "a.jpg".toList)

theorem webImage_forProject (u : User) (now : Nat) : (webImage u now).ForProject MediaAction.noInfo 1 :=
  fun _ => ⟨rfl, rfl, rfl⟩

/-- One session after the other. -/
theorem settled_one_after_the_other :
    let events := [webImage ada 1, webImage ada 2, .submit ada 3 [.name "Saw".toList], webImage bob 4,
      .submit bob 5 [.name "Sand".toList]]
    let s := Run.after (step MediaAction.noInfo 1) ⟨twoAuthors, []⟩ events
    s.db.media.map (fun x => (x.userId, x.stepId)) = [(some 1, some 1), (some 1, some 1), (some 2, some 2)] ∧
    Settled twoAuthors s := by
  intro events s
  have hproject : ∀ e ∈ events, e.ForProject MediaAction.noInfo 1 := by
    simp only [events, List.forall_mem_cons]
    exact ⟨webImage_forProject ada 1, webImage_forProject ada 2, trivial, webImage_forProject bob 4, trivial,
      by simp⟩
  exact ⟨by decide +kernel, (settled_iff MediaAction.noInfo 1 twoAuthors events hproject (by decide +kernel)
    (by decide +kernel)).mpr (by decide +kernel)⟩

/-- Bob uploads while ada composes; her form takes his image, and his own finds none. -/
theorem form_takes_foreign_draft :
    let events := [webImage ada 1, webImage bob 2, .submit ada 3 [.name "Saw".toList],
      .submit bob 4 [.name "Sand".toList]]
    let s := Run.after (step MediaAction.noInfo 1) ⟨twoAuthors, []⟩ events
    (∀ e ∈ events, e.ForProject MediaAction.noInfo 1) ∧ Run.Along (step MediaAction.noInfo 1) Open ⟨twoAuthors, []⟩ events ∧
    (∀ e ∈ events, e.user.id ∈ s.created.map Prod.fst) ∧
    s.db.media.map (fun x => (x.userId, x.stepId)) = [(some 1, some 1), (some 2, some 1)] ∧
    s.created = [(2, 2), (1, 1)] ∧ ¬ Settled twoAuthors s := by
  refine ⟨?_, by decide +kernel, by decide +kernel, by decide +kernel, by decide +kernel, ?_⟩
  · simp only [List.forall_mem_cons]
    exact ⟨webImage_forProject ada 1, webImage_forProject bob 2, trivial, trivial, by simp⟩
  · unfold Settled
    decide +kernel

end Composing
