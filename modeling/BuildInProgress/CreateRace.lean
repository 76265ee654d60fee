import BuildInProgress.Lib.Numbering
import BuildInProgress.StepPlaces
import BuildInProgress.StepRuns

/-!
# Concurrent creates

`get_global_variables` counts the steps of the project before `create` runs, and a step that is submitted
without a position is inserted at that count.  Nothing is locked in between, and the table has no
uniqueness constraint.  Here the filter and the action are two events of a server that has any number of
creates under way.
-/

open Text Numbering

namespace StepsController

/-- A `create` whose filter has run: the request, and what `get_global_variables` has read for it. -/
structure Pending where
  u : User
  html : Bool
  params : List StepAttr
  project : Project
  numSteps : Nat

def getGlobalVariables (u : User) (html : Bool) (p : Nat) (params : List StepAttr) (db : Database) :
    Option Pending :=
  (db.projects.find? p).map fun project => ⟨u, html, params, project, (db.projectSteps p).length⟩

namespace Pending

/-- `params[:step]` as the body of `create` leaves them. -/
def stepParams (r : Pending) (db : Database) : List StepAttr := createParams db r.project.id r.params

/-- `@step` with its position. -/
def step (r : Pending) (now : Nat) (db : Database) : Option Step :=
  (buildStep db now r.project.id (r.stepParams db)).map fun s =>
    { s with position := (StepAttr.positionOf (r.stepParams db)).getD r.numSteps }

/-- The body of `create`. -/
def create (r : Pending) (now : Nat) (db : Database) : Outcome × Database :=
  match r.step now db with
  | none => (.notFound, db)
  | some s =>
    authorize (Ability.createStep db r.u s) db <|
      if s.validNew then
        (.ok, afterCreate r.u now r.html r.project s (r.stepParams db) (insertStep db s))
      else (.invalid, db)

/-- The body will insert its step. -/
def accepted (r : Pending) (now : Nat) (db : Database) : Bool :=
  match r.step now db with
  | none => false
  | some s => Ability.createStep db r.u s == some true && s.validNew

end Pending

-- The filter and, at once, the body are the action of the other modules.
theorem create_eq_pending (u : User) (now : Nat) (html : Bool) (p : Nat) (params : List StepAttr)
    (db : Database) :
    create u now html p params db =
      match getGlobalVariables u html p params db with
      | none => (.notFound, db)
      | some r => r.create now db := by
  rw [create, getGlobalVariables]
  cases hproject : db.projects.find? p with
  | none => rfl
  | some project =>
    have hp : project.id = p := (Table.find?_eq_some.mp hproject).2
    rw [Option.map_some]
    dsimp only
    rw [Pending.create, Pending.step, Pending.stepParams]
    dsimp only
    rw [hp]
    cases buildStep db now p (createParams db p params) with
    | none => rfl
    | some s => rfl

end StepsController

/-- The database, and the creates under way. -/
structure Server where
  db : Database
  pending : List StepsController.Pending

namespace Server

open StepsController Database

inductive Event where
  /-- A create arrives and its filter runs. -/
  | arrive (u : User) (html : Bool) (p : Nat) (params : List StepAttr)
  /-- The body of the `k`-th create under way runs. -/
  | finish (k now : Nat)

def step (s : Server) : Event → Server
  | .arrive u html p params =>
    match getGlobalVariables u html p params s.db with
    | none => s
    | some r => { s with pending := s.pending ++ [r] }
  | .finish k now =>
    match s.pending[k]? with
    | none => s
    | some r => ⟨(r.create now s.db).2, s.pending.eraseIdx k⟩

/-- The create submits no position. -/
def Event.Unplaced : Event → Prop
  | .arrive _ _ _ params => StepAttr.positionOf params = none
  | .finish _ _ => True

instance : DecidablePred Event.Unplaced
  | .arrive _ _ _ params => inferInstanceAs (Decidable (StepAttr.positionOf params = none))
  | .finish _ _ => .isTrue trivial

/-- A create that inserts into project `p` finds as many steps there as its filter has counted. -/
def Undisturbed (p : Nat) (s : Server) : Event → Prop
  | .arrive _ _ _ _ => True
  | .finish k now => ∀ r ∈ s.pending[k]?, r.project.id = p → r.accepted now s.db = true →
      (s.db.projectSteps p).length = r.numSteps

instance decidableUndisturbed (p : Nat) (s : Server) : ∀ e, Decidable (Undisturbed p s e)
  | .arrive _ _ _ _ => .isTrue trivial
  | .finish k now => inferInstanceAs (Decidable (∀ r ∈ s.pending[k]?, r.project.id = p →
      r.accepted now s.db = true → (s.db.projectSteps p).length = r.numSteps))

end Server

/-! ## Positions -/

namespace Database

/-- The positions are 0, 1, 2, …, so that each step is found by its own. -/
structure Addressable (db : Database) (p : Nat) : Prop where
  unbroken : db.broken p = false
  distinct : ((db.projectSteps p).map Step.position).Nodup
  contiguous : (db.orderedSteps p).map Step.position =
    (List.range (db.projectSteps p).length).map Int.ofNat
  found : ∀ s ∈ db.projectSteps p, StepsController.findByPosition db p s.position = some s

theorem nodup_ofNat_range (n : Nat) : ((List.range n).map Int.ofNat).Nodup :=
  List.nodup_range.map fun _ _ => Int.ofNat.inj

theorem addressable_iff {db : Database} {p : Nat} :
    Addressable db p ↔ ((db.projectSteps p).map Step.position).Perm
      ((List.range (db.projectSteps p).length).map Int.ofNat) := by
  constructor
  · intro h
    rw [← h.contiguous]
    exact ((db.perm_orderedSteps p).map Step.position).symm
  · intro h
    have hdistinct := h.nodup_iff.mpr (nodup_ofNat_range _)
    refine ⟨unbroken h, hdistinct, map_position h, fun s hs => ?_⟩
    rw [StepsController.findByPosition]
    cases hfind : (db.projectSteps p).find? fun t => decide (t.position = s.position) with
    | none =>
      have hno := List.find?_eq_none.mp hfind s hs
      simp at hno
    | some t =>
      have hpos : t.position = s.position := by simpa using List.find?_some hfind
      rw [List.inj_on_of_nodup_map hdistinct (List.mem_of_find?_eq_some hfind) hs hpos]

theorem addressable_iff_numbered {db : Database} {p : Nat} :
    Addressable db p ↔ Numbered (fun s => some s.position) (db.projectSteps p) := by
  rw [addressable_iff, ← List.map_perm_map_iff (Option.some_injective Int), List.map_map, List.map_map]
  rfl

theorem Addressable.congr {db db' : Database} {p : Nat} (h : Addressable db p)
    (heq : (db'.projectSteps p).map Step.position = (db.projectSteps p).map Step.position) :
    Addressable db' p := by
  rw [addressable_iff_numbered] at h ⊢
  apply h.congr
  have hsome := congrArg (List.map some) heq
  rw [List.map_map, List.map_map] at hsome
  exact hsome

/-- The next step takes the next position. -/
theorem Addressable.concat {db db' : Database} {p : Nat} (h : Addressable db p)
    (heq : (db'.projectSteps p).map Step.position =
      (db.projectSteps p).map Step.position ++ [((db.projectSteps p).length : Int)]) : Addressable db' p := by
  have hlen : (db'.projectSteps p).length = (db.projectSteps p).length + 1 := by
    rw [← List.length_map Step.position, heq, List.length_append, List.length_map, List.length_singleton]
  rw [addressable_iff] at h ⊢
  rw [heq, hlen, List.range_succ, List.map_append, List.map_singleton]
  exact h.append_right _

theorem SamePlaces.map_position {db db' : Database} (h : SamePlaces db db') (p : Nat) :
    (db'.projectSteps p).map Step.position = (db.projectSteps p).map Step.position := by
  have hplace : ∀ db : Database, (db.projectSteps p).map Step.position =
      ((db.steps.rows.map Step.place).filter fun x => decide (x.2.1 = some p)).map fun x => x.2.2 := by
    intro db
    rw [List.filter_map, List.map_map]
    rfl
  rw [hplace, hplace, h]

end Database

namespace StepsController

open Database

/-- The position is that of the first attribute that has one. -/
theorem positionOf_cons (a : StepAttr) (params : List StepAttr) :
    StepAttr.positionOf (a :: params) = (StepAttr.positionOf [a]).or (StepAttr.positionOf params) := by
  cases a <;> rfl

theorem positionOf_map {f : StepAttr → StepAttr} (hf : ∀ a, StepAttr.positionOf [f a] = StepAttr.positionOf [a])
    (params : List StepAttr) : StepAttr.positionOf (params.map f) = StepAttr.positionOf params := by
  induction params with
  | nil => rfl
  | cons a params ih => rw [List.map_cons, positionOf_cons, hf, ih, ← positionOf_cons]

theorem positionOf_setParent (v : Option StepKey) (params : List StepAttr) :
    StepAttr.positionOf (StepAttr.setParent v params) = StepAttr.positionOf params := by
  rw [StepAttr.setParent]
  split
  · refine positionOf_map (fun a => ?_) params
    cases a <;> rfl
  · rw [StepAttr.positionOf, List.findSome?_append, StepAttr.positionOf]
    simp

theorem positionOf_createParams (db : Database) (p : Nat) (params : List StepAttr) :
    StepAttr.positionOf (createParams db p params) = StepAttr.positionOf params := by
  -- a parent is set and a pin is cleared, no position is touched
  have hpin : ∀ a : StepAttr, StepAttr.positionOf [a.clearEmptyPin] = StepAttr.positionOf [a] := by
    intro a
    unfold StepAttr.clearEmptyPin
    split <;> rfl
  rw [createParams, positionOf_map hpin]
  split
  · rfl
  · exact positionOf_setParent _ params

namespace Pending

theorem create_of_not_accepted {r : Pending} {now : Nat} {db : Database} (h : r.accepted now db = false) :
    (r.create now db).2 = db := by
  rw [accepted] at h
  rw [create]
  cases hstep : r.step now db with
  | none => rfl
  | some s =>
    rw [hstep] at h
    dsimp only at h ⊢
    rcases authorize_cases (Ability.createStep db r.u s) db (if s.validNew then
        (.ok, afterCreate r.u now r.html r.project s (r.stepParams db) (insertStep db s))
      else (.invalid, db)) with ⟨hauth, heq⟩ | ⟨-, heq⟩
    · rw [hauth, beq_self_eq_true, Bool.true_and] at h
      rw [heq, h]
      rfl
    · exact heq

theorem create_of_accepted {r : Pending} {now : Nat} {db : Database} (h : r.accepted now db = true) :
    ∃ s, s.id = db.steps.next ∧ s.projectId = some r.project.id ∧
      s.position = (StepAttr.positionOf r.params).getD r.numSteps ∧
      r.create now db =
        (.ok, afterCreate r.u now r.html r.project s (r.stepParams db) (insertStep db s)) := by
  rw [accepted] at h
  rw [create]
  cases hstep : r.step now db with
  | none =>
    rw [hstep] at h
    cases h
  | some s =>
    rw [hstep] at h
    dsimp only at h ⊢
    rw [Bool.and_eq_true, beq_iff_eq] at h
    rw [h.1, authorize, if_pos h.2]
    obtain ⟨s₀, hbuild, rfl⟩ := Option.map_eq_some_iff.mp hstep
    obtain ⟨hproj, hid⟩ := buildStep_ids hbuild
    have hposition : StepAttr.positionOf (r.stepParams db) = StepAttr.positionOf r.params :=
      positionOf_createParams db r.project.id r.params
    rw [hposition]
    exact ⟨{ s₀ with position := (StepAttr.positionOf r.params).getD r.numSteps }, hid, hproj, rfl, rfl⟩

/-- The body adds at most its own position to those of its project. -/
theorem map_position_create {r : Pending} {now : Nat} {db : Database} (h : r.accepted now db = true) (p : Nat) :
    ((r.create now db).2.projectSteps p).map Step.position =
      (db.projectSteps p).map Step.position ++
        if r.project.id = p then [(StepAttr.positionOf r.params).getD r.numSteps] else [] := by
  obtain ⟨s, -, hproj, hpos, heq⟩ := create_of_accepted h
  rw [heq, (samePlaces_afterCreate _ _ _ _ _ _ _).map_position, projectSteps, insertStep, Table.rows_insert,
    List.filter_append, List.map_append, ← hpos]
  congr 1
  by_cases hp : r.project.id = p
  · rw [if_pos hp, List.filter_cons_of_pos (by simp [hproj, hp])]
    rfl
  · rw [if_neg hp, List.filter_cons_of_neg (by simp [hproj, hp])]
    rfl

end Pending

end StepsController

/-! ## Interleavings -/

namespace Server

open StepsController Database

/-- What the creates under way may assume: their counts are not ahead of the table. -/
structure Consistent (p : Nat) (s : Server) : Prop where
  positions : ((s.db.projectSteps p).map Step.position).Perm
    ((List.range (s.db.projectSteps p).length).map Int.ofNat)
  counted : ∀ r ∈ s.pending, StepAttr.positionOf r.params = none ∧
    (r.project.id = p → r.numSteps ≤ (s.db.projectSteps p).length)

-- The one event that changes positions is the end of a create that goes through in the project.
theorem step_cases (p : Nat) (s : Server) (e : Event) :
    ((s.step e).db.projectSteps p).map Step.position = (s.db.projectSteps p).map Step.position ∨
      ∃ k now, e = .finish k now ∧ ∃ r ∈ s.pending[k]?, r.project.id = p ∧ r.accepted now s.db = true ∧
        ((s.step e).db.projectSteps p).map Step.position =
          (s.db.projectSteps p).map Step.position ++ [(StepAttr.positionOf r.params).getD r.numSteps] := by
  cases e with
  | arrive u html p' params =>
    left
    rw [step]
    cases getGlobalVariables u html p' params s.db <;> rfl
  | finish k now =>
    cases hk : s.pending[k]? with
    | none =>
      left
      rw [step, hk]
    | some r =>
      have hstep : (s.step (.finish k now)).db = (r.create now s.db).2 := by rw [step, hk]
      rw [hstep]
      cases hacc : r.accepted now s.db with
      | false =>
        left
        rw [Pending.create_of_not_accepted hacc]
      | true =>
        have hmap := Pending.map_position_create hacc p
        by_cases hp : r.project.id = p
        · rw [if_pos hp] at hmap
          exact Or.inr ⟨k, now, rfl, r, hk, hp, hacc, hmap⟩
        · rw [if_neg hp, List.append_nil] at hmap
          exact Or.inl hmap

theorem length_step (p : Nat) (s : Server) (e : Event) :
    (s.db.projectSteps p).length ≤ ((s.step e).db.projectSteps p).length := by
  rw [← List.length_map Step.position, ← List.length_map Step.position]
  rcases s.step_cases p e with h | ⟨k, now, -, r, -, -, -, h⟩
  · rw [h]
  · rw [h, List.length_append]
    omega

theorem counted_step {p : Nat} {s : Server} (h : Consistent p s) {e : Event} (he : e.Unplaced) :
    ∀ r ∈ (s.step e).pending, StepAttr.positionOf r.params = none ∧
      (r.project.id = p → r.numSteps ≤ ((s.step e).db.projectSteps p).length) := by
  have hold : ∀ r ∈ s.pending, StepAttr.positionOf r.params = none ∧
      (r.project.id = p → r.numSteps ≤ ((s.step e).db.projectSteps p).length) := fun r hr =>
    ⟨(h.counted r hr).1, fun hp => ((h.counted r hr).2 hp).trans (s.length_step p e)⟩
  intro r hr
  cases e with
  | arrive u html p' params =>
    rw [step, getGlobalVariables] at hr ⊢
    cases hproject : s.db.projects.find? p' with
    | none =>
      rw [hproject] at hr
      exact h.counted r hr
    | some project =>
      rw [hproject, Option.map_some] at hr
      dsimp only at hr
      rw [List.mem_append, List.mem_singleton] at hr
      rcases hr with hr | rfl
      · exact h.counted r hr
      · -- the filter counts the rows that are there
        refine ⟨he, fun hp => ?_⟩
        have hid : project.id = p' := (Table.find?_eq_some.mp hproject).2
        dsimp only at hp ⊢
        rw [Option.map_some, ← hp, hid]
  | finish k now =>
    apply hold
    rw [step] at hr
    cases hk : s.pending[k]? with
    | none =>
      rw [hk] at hr
      exact hr
    | some r' =>
      rw [hk] at hr
      exact List.mem_of_mem_eraseIdx hr

theorem consistent_step {p : Nat} {s : Server} (h : Consistent p s) {e : Event} (he : e.Unplaced)
    (hun : Undisturbed p s e) : Consistent p (s.step e) := by
  refine ⟨addressable_iff.mp ?_, counted_step h he⟩
  have hbefore : Addressable s.db p := addressable_iff.mpr h.positions
  rcases s.step_cases p e with hsame | ⟨k, now, rfl, r, hr, hp, hacc, hnew⟩
  · exact hbefore.congr hsame
  · have hcount : (s.db.projectSteps p).length = r.numSteps := hun r hr hp hacc
    have hnone := (h.counted r (List.mem_of_getElem? hr)).1
    rw [hnone, Option.getD_none, ← hcount] at hnew
    exact hbefore.concat hnew

-- A create that counted fewer steps than there are takes a position that is taken.
theorem collides {p : Nat} {s : Server} (h : Consistent p s) {e : Event} (hun : ¬ Undisturbed p s e) :
    ¬ (((s.step e).db.projectSteps p).map Step.position).Nodup := by
  cases e with
  | arrive u html p' params => exact absurd trivial hun
  | finish k now =>
    rw [Undisturbed] at hun
    push Not at hun
    obtain ⟨r, hr, hp, hacc, hne⟩ := hun
    obtain ⟨hnone, hle⟩ := h.counted r (List.mem_of_getElem? hr)
    have hlt : r.numSteps < (s.db.projectSteps p).length := lt_of_le_of_ne (hle hp) hne.symm
    have hstep : (s.step (.finish k now)).db = (r.create now s.db).2 := by
      rw [step, Option.mem_def.mp hr]
    rw [hstep, Pending.map_position_create hacc, if_pos hp, hnone, Option.getD_none, List.nodup_append]
    intro hnodup
    have htaken : (r.numSteps : Int) ∈ (s.db.projectSteps p).map Step.position :=
      h.positions.mem_iff.mpr (List.mem_map.mpr ⟨r.numSteps, List.mem_range.mpr hlt, rfl⟩)
    exact hnodup.2.2 _ htaken _ List.mem_cons_self rfl

theorem collision_stays {p : Nat} {s : Server} {e : Event}
    (h : ¬ ((s.db.projectSteps p).map Step.position).Nodup) :
    ¬ (((s.step e).db.projectSteps p).map Step.position).Nodup := by
  rcases s.step_cases p e with hsame | ⟨k, now, -, r, -, -, -, hnew⟩
  · rw [hsame]
    exact h
  · rw [hnew, List.nodup_append]
    exact fun hnodup => h hnodup.1

/-- For every interleaving of creates without a position, the positions at the end are 0, 1, 2, … exactly
when no create was overtaken by another between its count and its insert. -/
theorem addressable_after_iff (db : Database) (p : Nat) (h : Addressable db p) (events : List Event)
    (hunplaced : ∀ e ∈ events, e.Unplaced) :
    Addressable (Run.after step ⟨db, []⟩ events).db p ↔ Run.Along step (Undisturbed p) ⟨db, []⟩ events := by
  have hstart : Consistent p ⟨db, []⟩ := ⟨addressable_iff.mp h, by simp⟩
  have hadmitted : Run.Along step (fun _ e => e.Unplaced) ⟨db, []⟩ events := .of_forall hunplaced
  have hharm := Run.along_iff_not_harmed (A := fun _ e => Event.Unplaced e) (I := Consistent p)
    (H := fun s => ¬ ((s.db.projectSteps p).map Step.position).Nodup)
    (fun _ _ h he hun => consistent_step h he hun) (fun _ _ h _ hun => collides h hun)
    (fun _ _ h _ => collision_stays h)
    (fun _ h => not_not.mpr (h.positions.nodup_iff.mpr (nodup_ofNat_range _))) hstart hadmitted
  constructor
  · intro hend
    exact hharm.mpr (not_not.mpr hend.distinct)
  · intro halong
    have hend := Run.invariant (I := Consistent p)
      (fun _ _ h (he : _ ∧ _) => consistent_step h he.1 he.2) hstart (hadmitted.and halong)
    exact addressable_iff.mpr hend.positions

/-- Ada submits a first step; a second one is overtaken only by a form of bob with a blank name. -/
theorem addressable_after_refused :
    let events : List Event := [.arrive ada true 1 [.name "Saw".toList], .finish 0 5,
      .arrive ada true 1 [.name "Sand".toList], .arrive bob true 1 [.name []], .finish 1 6, .finish 0 7]
    Addressable (Run.after step ⟨twoAuthors, []⟩ events).db 1 := by
  intro events
  have hempty : Addressable twoAuthors 1 := addressable_iff.mpr List.Perm.nil
  exact (addressable_after_iff _ 1 hempty events (by decide +kernel)).mpr (by decide +kernel)

/-- Two creates count before either inserts: both steps get position 0, the project is broken and the
second step is not found by its position. -/
theorem overlapping_creates_collide :
    let events : List Event := [.arrive ada true 1 [.name "Saw".toList],
      .arrive bob true 1 [.name "Sand".toList], .finish 0 5, .finish 0 6]
    let after := (Run.after step ⟨twoAuthors, []⟩ events).db
    Addressable twoAuthors 1 ∧ (∀ e ∈ events, e.Unplaced) ∧
    (after.projectSteps 1).map (fun s => (s.id, s.position)) = [(1, 0), (2, 0)] ∧
    after.broken 1 = true ∧ (findByPosition after 1 0).map Step.id = some 1 ∧ ¬ Addressable after 1 := by
  refine ⟨addressable_iff.mpr List.Perm.nil, by decide +kernel, by decide +kernel, by decide +kernel,
    by decide +kernel, ?_⟩
  intro h
  exact absurd h.unbroken (by decide +kernel)

end Server
