import BuildInProgress.Remix

/-!
# The step tree of a remix

The copies stand in the same order as the originals, so `step_hash` sends each step to its own copy.
A path of known ids is rewritten component by component.  A leading zero is no key of the hash: the
joined text then starts with a slash, is not a valid ancestry, and the copy keeps naming the steps of
the original project.
-/

open Text Ancestry

/-- Looking a key up among matched keys and values. -/
theorem List.lookup_zip_map {γ : Type} {k v : γ → Nat} {l : List γ} (hn : (l.map k).Nodup) {s : γ}
    (hs : s ∈ l) : ((l.map k).zip (l.map v)).lookup (k s) = some (v s) := by
  induction l with
  | nil => simp at hs
  | cons t l ih =>
    rw [List.map_cons, List.nodup_cons] at hn
    rw [List.map_cons, List.map_cons, List.zip_cons_cons, List.lookup_cons]
    rcases List.mem_cons.mp hs with rfl | hs
    · simp
    · have hne : k s ≠ k t := fun h => hn.1 (h ▸ List.mem_map_of_mem hs)
      rw [beq_false_of_ne hne]
      exact ih hn.2 hs

theorem List.lookup_zip_map_eq_none {γ : Type} {k v : γ → Nat} {l : List γ} {i : Nat}
    (hi : ∀ s ∈ l, k s ≠ i) : ((l.map k).zip (l.map v)).lookup i = none := by
  induction l with
  | nil => rfl
  | cons t l ih =>
    have hne : i ≠ k t := Ne.symm (hi t List.mem_cons_self)
    rw [List.map_cons, List.map_cons, List.zip_cons_cons, List.lookup_cons, beq_false_of_ne hne]
    exact ih fun s hs => hi s (List.mem_cons_of_mem _ hs)

namespace Database

/-! ## The copies and the hash -/

/-- The copy of the step at an index of the list, before the loop. -/
def copyAt (next now q : Nat) (e : Step × Nat) : Step :=
  { e.1 with id := next + e.2, projectId := some q, createdAt := now, updatedAt := now }

theorem rows_insertCopies (db : Database) (now q : Nat) (ss : List Step) :
    (db.insertCopies now q ss).steps.rows =
      db.steps.rows ++ ss.zipIdx.map (copyAt db.steps.next now q) := by
  -- over the rest of the list the copies start at the key the sequence has reached
  have key : ∀ (ss : List Step) (db : Database) (next i : Nat), db.steps.next = next + i →
      (db.insertCopies now q ss).steps.rows =
        db.steps.rows ++ (ss.zipIdx i).map (copyAt next now q) := by
    intro ss
    induction ss with
    | nil =>
      intro db next i _
      simp [insertCopies]
    | cons s ss ih =>
      intro db next i hnext
      rw [insertCopies, List.foldl_cons]
      refine (ih _ next (i + 1) (by show db.steps.next + 1 = _; omega)).trans ?_
      rw [Table.rows_insert, hnext, List.zipIdx_cons, List.map_cons, List.append_assoc]
      rfl
  exact key ss db db.steps.next 0 rfl

theorem map_copyAt {ss : List Step} (hn : ss.Nodup) (next now q : Nat) :
    ss.zipIdx.map (copyAt next now q) = ss.map fun s => copyAt next now q (s, ss.idxOf s) := by
  apply List.ext_getElem?
  intro i
  rw [List.getElem?_map, List.getElem?_map, List.getElem?_zipIdx, Option.map_map]
  cases hi : ss[i]? with
  | none => rfl
  | some s =>
    obtain ⟨hlt, hget⟩ := List.getElem?_eq_some_iff.mp hi
    have hidx : ss.idxOf s = i := by
      rw [← hget]
      exact hn.idxOf_getElem i hlt
    simp [hidx]

theorem nodup_copyAt {ss : List Step} (hn : ss.Nodup) (next now q : Nat) :
    (ss.map fun s => (copyAt next now q (s, ss.idxOf s)).id).Nodup := by
  apply List.Nodup.map_on _ hn
  intro s hs t ht heq
  have hidx : ss.idxOf s = ss.idxOf t := Nat.add_left_cancel heq
  exact (List.idxOf_inj hs).mp hidx

theorem projectSteps_of_copies {db db' : Database} {p q : Nat} {ss : List Step} {c : Step → Step}
    (hrows : db'.steps.rows = db.steps.rows ++ ss.map c) (hss : db.projectSteps p = ss)
    (hnew : db.projectSteps q = []) (hc : ∀ s, (c s).projectId = some q) (hpq : p ≠ q) :
    db'.projectSteps p = ss ∧ db'.projectSteps q = ss.map c := by
  constructor
  · rw [projectSteps, hrows, List.filter_append, ← hss, projectSteps, List.append_right_eq_self,
      List.filter_eq_nil_iff]
    intro x hx
    obtain ⟨s, -, rfl⟩ := List.mem_map.mp hx
    rw [hc, decide_eq_true_eq, Option.some.injEq]
    exact Ne.symm hpq
  · rw [projectSteps] at hnew
    rw [projectSteps, hrows, List.filter_append, hnew, List.nil_append, List.filter_eq_self]
    intro x hx
    obtain ⟨s, -, rfl⟩ := List.mem_map.mp hx
    exact decide_eq_true (hc s)

theorem sameRest_insertCopies (db : Database) (now q : Nat) (ss : List Step) :
    ∃ steps, db.insertCopies now q ss = { db with steps } := by
  induction ss generalizing db with
  | nil => exact ⟨_, rfl⟩
  | cons s ss ih =>
    obtain ⟨steps, hsteps⟩ := ih { db with
      steps := db.steps.insert (fun i =>
        { s with id := i, projectId := some q, createdAt := now, updatedAt := now }) (fun _ => rfl) }
    exact ⟨steps, hsteps⟩

section Hash

variable {db : Database} {p q : Nat} {c : Step → Step}

/-- When the steps of `q` are those of `p` under `c`, position by position, so are they in order. -/
theorem orderedSteps_copies (hq : db.projectSteps q = (db.projectSteps p).map c)
    (hpos : ∀ s ∈ db.projectSteps p, (c s).position = s.position) :
    db.orderedSteps q = (db.orderedSteps p).map c := by
  rw [orderedSteps, orderedSteps, byPosition, byPosition, hq]
  refine (List.map_insertionSort _ _ c _ fun a ha b hb => ?_).symm
  rw [hpos a ha, hpos b hb]

theorem stepHash_copies (hq : db.projectSteps q = (db.projectSteps p).map c)
    (hpos : ∀ s ∈ db.projectSteps p, (c s).position = s.position) {s : Step}
    (hs : s ∈ db.projectSteps p) : db.stepHash p q s.id = some (c s).id := by
  rw [stepHash, orderedSteps_copies hq hpos, List.map_map]
  exact List.lookup_zip_map (v := Step.id ∘ c) (db.nodup_orderedSteps p) (mem_orderedSteps.mpr hs)

theorem stepHash_eq_none (hq : db.projectSteps q = (db.projectSteps p).map c)
    (hpos : ∀ s ∈ db.projectSteps p, (c s).position = s.position) {i : Nat}
    (hi : ∀ s ∈ db.projectSteps p, s.id ≠ i) : db.stepHash p q i = none := by
  rw [stepHash, orderedSteps_copies hq hpos, List.map_map]
  exact List.lookup_zip_map_eq_none fun s hs => hi s (mem_orderedSteps.mp hs)

end Hash

/-! ## The copies before the loop -/

/-- The copy of the step `s` of `p` that a remix begins with. -/
def copyOf (db : Database) (now p : Nat) (s : Step) : Step :=
  copyAt db.steps.next now db.projects.next (s, (db.projectSteps p).idxOf s)

theorem le_copyOf (db : Database) (now p : Nat) (s : Step) : db.steps.next ≤ (db.copyOf now p s).id :=
  Nat.le_add_right _ _

theorem copyOf_ne (db : Database) (now p : Nat) (s : Step) {t : Step} (ht : t ∈ db.steps.rows) :
    (db.copyOf now p s).id ≠ t.id := by
  have hlt : t.id < db.steps.next := (db.steps.bound t ht).2
  have hle := db.le_copyOf now p s
  omega

theorem nodup_copyOf (db : Database) (now p : Nat) : ((db.projectSteps p).map fun s => (db.copyOf now p s).id).Nodup :=
  nodup_copyAt (List.Nodup.of_map _ (db.nodup_projectSteps p)) _ _ _

theorem ne_next_of_find? {db : Database} {p : Nat} {project : Project} (h : db.projects.find? p = some project) :
    p ≠ db.projects.next := by
  obtain ⟨hmem, hid⟩ := Table.find?_eq_some.mp h
  have hlt := (db.projects.bound project hmem).2
  rw [hid] at hlt
  exact Nat.ne_of_lt hlt

theorem rows_beginRemix (db : Database) (u : User) (now p : Nat) (project : Project) :
    (db.beginRemix u now p project).steps.rows = db.steps.rows ++ (db.projectSteps p).map (db.copyOf now p) := by
  unfold beginRemix
  dsimp only
  rw [(SameRecords.updateProject _ _ _ _).steps, rows_insertCopies]
  congr 1
  exact map_copyAt (List.Nodup.of_map _ (db.nodup_projectSteps p)) _ _ _

theorem stepUsersByName_beginRemix (db : Database) (u : User) (now p : Nat) (project : Project) (i : Nat) :
    ((db.beginRemix u now p project).stepUsersByName i).map User.id = (db.stepUsersByName i).map User.id := by
  unfold beginRemix
  dsimp only
  generalize hdb₁ : ({ db with
    projects := db.projects.insert (remixProject project now) (fun _ => rfl)
    projectsUsers := db.projectsUsers ++ [(db.projects.next, u.id)] } : Database) = db₁
  obtain ⟨steps, hins⟩ := sameRest_insertCopies db₁ now db.projects.next (db₁.projectSteps p)
  obtain ⟨ps, as, heq⟩ := SameRecords.updateProject (db₁.insertCopies now db.projects.next (db₁.projectSteps p))
    (some now) db.projects.next (fun r => { r with description := some [] })
  rw [heq, hins, ← hdb₁]
  rfl

/-- A valid remix makes the copies, works through them, and then copies the images. -/
theorem remix_eq {db : Database} {p : Nat} {project : Project} (u : User) (now : Nat)
    (hproject : db.projects.find? p = some project)
    (hvalid : remixValid (remixProject project now db.projects.next) (db.projectSteps p) = true) :
    remix u now p db = (some db.projects.next, ((db.projectImages p).insertionSort (imageBefore · ·)).foldl
      (remixImage db.projects.next ((db.beginRemix u now p project).stepHash p db.projects.next))
      ((db.beginRemix u now p project).remixSteps now p db.projects.next)) := by
  rw [remix, hproject]
  dsimp only
  rw [hvalid, Bool.not_true, if_neg Bool.false_ne_true]
  rfl

section Begun

variable {db : Database} {p : Nat} {project : Project} (hproject : db.projects.find? p = some project)
  (hnew : db.projectSteps db.projects.next = []) (u : User) (now : Nat)

include hproject hnew

theorem projectSteps_beginRemix : (db.beginRemix u now p project).projectSteps p = db.projectSteps p ∧
    (db.beginRemix u now p project).projectSteps db.projects.next = (db.projectSteps p).map (db.copyOf now p) :=
  projectSteps_of_copies (db.rows_beginRemix u now p project) rfl hnew (fun _ => rfl) (ne_next_of_find? hproject)

theorem orderedSteps_beginRemix : (db.beginRemix u now p project).orderedSteps p = db.orderedSteps p ∧
    (db.beginRemix u now p project).orderedSteps db.projects.next = (db.orderedSteps p).map (db.copyOf now p) := by
  obtain ⟨hp, hq⟩ := projectSteps_beginRemix hproject hnew u now
  have hsame : (db.beginRemix u now p project).orderedSteps p = db.orderedSteps p := by
    rw [orderedSteps, hp, orderedSteps]
  rw [← hp] at hq
  exact ⟨hsame, hsame ▸ orderedSteps_copies hq fun _ _ => rfl⟩

/-- The hash sends each step to its copy, and nothing else anywhere. -/
theorem stepHash_beginRemix {s : Step} (hs : s ∈ db.projectSteps p) :
    (db.beginRemix u now p project).stepHash p db.projects.next s.id = some (db.copyOf now p s).id := by
  obtain ⟨hp, hq⟩ := projectSteps_beginRemix hproject hnew u now
  rw [← hp] at hq hs
  exact stepHash_copies hq (fun _ _ => rfl) hs

theorem stepHash_beginRemix_eq_none {i : Nat} (hi : ∀ s ∈ db.projectSteps p, s.id ≠ i) :
    (db.beginRemix u now p project).stepHash p db.projects.next i = none := by
  obtain ⟨hp, hq⟩ := projectSteps_beginRemix hproject hnew u now
  rw [← hp] at hq hi
  exact stepHash_eq_none hq (fun _ _ => rfl) hi

end Begun

/-! ## One copied step -/

/-- The row `r` after the record `s` was saved, if it is valid. -/
def kept (now : Nat) (s r : Step) : Step := if s.valid then s.stamped (some now) else r

/-- The row of a copy after the loop body, from the row `r` and the record in memory. -/
def copiedRow (now : Nat) (hash : Nat → Option Nat) (original : Step) (authors : List Nat)
    (s r : Step) : Step :=
  let s₁ := remapped hash original s
  let s₂ := credited authors s₁
  let r := kept now s₂ (kept now s₁ r)
  if s₂.last = some true then kept now { s₂ with last := some false } r else r

theorem kept_id {now : Nat} {s r : Step} (h : r.id = s.id) : (kept now s r).id = s.id := by
  unfold kept
  split
  · rfl
  · exact h

theorem rows_trySave (db : Database) (now : Nat) (s : Step) :
    (db.trySave now s).steps.rows = db.steps.rows.map fun r =>
      if r.id = s.id then kept now s r else r := by
  rw [trySave, saveStep]
  by_cases hv : s.valid = true
  · rw [if_pos hv, Option.getD_some, rows_storeStep]
    simp [kept, hv]
  · rw [if_neg hv, Option.getD_none]
    symm
    apply List.map_eq_self_of_forall
    intro r _
    simp [kept, hv]

/-- Two rewrites of the row with one id, one after the other. -/
theorem map_row_map_row (rows : List Step) {i : Nat} {f g : Step → Step}
    (hf : ∀ r, r.id = i → (f r).id = i) :
    (rows.map fun r => if r.id = i then f r else r).map (fun r => if r.id = i then g r else r) =
      rows.map fun r => if r.id = i then g (f r) else r := by
  rw [List.map_map]
  apply List.map_congr_left
  intro r _
  by_cases h : r.id = i
  · rw [Function.comp, if_pos h, if_pos (hf r h), if_pos h]
  · rw [Function.comp, if_neg h, if_neg h, if_neg h]

theorem SameButSteps.trySave (db : Database) (now : Nat) (s : Step) :
    SameButSteps db (db.trySave now s) := by
  unfold Database.trySave saveStep
  split
  · exact SameButSteps.storeStep _ _ _
  · exact SameButSteps.refl db

theorem foldl_addStepUser (s : Nat) (us : List User) (db : Database) :
    ∃ edits, us.foldl (addStepUser s) db = { db with edits } ∧
      edits.rows.filter (·.stepId ≠ some s) = db.edits.rows.filter (·.stepId ≠ some s) := by
  induction us generalizing db with
  | nil => exact ⟨db.edits, rfl, rfl⟩
  | cons u us ih =>
    obtain ⟨edits, heq, hrest⟩ := ih (addStepUser s db u)
    refine ⟨edits, heq, hrest.trans ?_⟩
    simp [addStepUser]

theorem credited_rest (authors : List Nat) (s : Step) :
    (credited authors s).id = s.id ∧ (credited authors s).position = s.position ∧
      (credited authors s).name = s.name ∧ (credited authors s).last = s.last ∧
      (credited authors s).originalAuthors = some authors := by
  unfold credited
  split <;> exact ⟨rfl, rfl, rfl, rfl, rfl⟩

/-- The row of a copy from the record in memory on, once its ancestry has been assigned. -/
def settledCopy (now : Nat) (authors : List Nat) (s r : Step) : Step :=
  let s' := credited authors s
  let r := kept now s' (kept now s r)
  if s'.last = some true then kept now { s' with last := some false } r else r

/-- The loop body writes the row of the copy and edits of the copy, nothing else. -/
theorem settleCopy_spec (db : Database) (now : Nat) (original s : Step) :
    (db.settleCopy now original s).steps.rows = (db.steps.rows.map fun r =>
      if r.id = s.id then settledCopy now ((db.stepUsersByName original.id).map User.id) s r else r) ∧
    (db.settleCopy now original s).users = db.users ∧
    (db.settleCopy now original s).edits.rows.filter (·.stepId ≠ some s.id) =
      db.edits.rows.filter (·.stepId ≠ some s.id) := by
  have hsave := SameButSteps.trySave db now s
  have husers : (db.trySave now s).stepUsersByName original.id = db.stepUsersByName original.id := by
    obtain ⟨ss, ds, heq⟩ := hsave
    rw [heq]
    rfl
  unfold settleCopy
  dsimp only
  rw [husers]
  obtain ⟨edits, hedits, hrest⟩ := foldl_addStepUser s.id (db.stepUsersByName original.id) (db.trySave now s)
  rw [hedits]
  generalize hs₂ : credited ((db.stepUsersByName original.id).map User.id) s = s₂
  have hid₂ : s₂.id = s.id := by
    rw [← hs₂, (credited_rest _ _).1]
  -- the row after the first two saves
  have hrows₂ : (({ db.trySave now s with edits } : Database).trySave now s₂).steps.rows =
      db.steps.rows.map fun r => if r.id = s.id then kept now s₂ (kept now s r) else r := by
    rw [rows_trySave, rows_trySave, hid₂]
    exact map_row_map_row _ fun r hr => kept_id hr
  have hrest₂ : ∀ db', SameButSteps { db.trySave now s with edits } db' →
      db'.users = db.users ∧
        db'.edits.rows.filter (·.stepId ≠ some s.id) = db.edits.rows.filter (·.stepId ≠ some s.id) := by
    intro db' h
    rw [hsave.edits] at hrest
    exact ⟨h.users.trans hsave.users, by rw [h.edits]; exact hrest⟩
  have hsave₂ := SameButSteps.trySave { db.trySave now s with edits } now s₂
  unfold settledCopy
  dsimp only
  rw [hs₂]
  split
  · have hid₃ : ({ s₂ with last := some false } : Step).id = s.id := hid₂
    refine ⟨?_, hrest₂ _ (hsave₂.trans (SameButSteps.trySave _ _ _))⟩
    rw [rows_trySave, hrows₂, hid₃]
    exact map_row_map_row _ fun r hr => (kept_id (by rw [hid₂]; exact kept_id hr)).trans hid₂
  · exact ⟨hrows₂, hrest₂ _ hsave₂⟩

theorem remixStep_spec {db : Database} {p : Nat} (now : Nat) (hash : Nat → Option Nat) {original s : Step}
    (ho : (db.orderedSteps p).find? (·.position = s.position) = some original) :
    (remixStep now p hash db s).steps.rows = (db.steps.rows.map fun r =>
      if r.id = s.id then
        copiedRow now hash original ((db.stepUsersByName original.id).map User.id) s r
      else r) ∧
    (remixStep now p hash db s).users = db.users ∧
    (remixStep now p hash db s).edits.rows.filter (·.stepId ≠ some s.id) =
      db.edits.rows.filter (·.stepId ≠ some s.id) := by
  rw [remixStep, ho]
  exact settleCopy_spec db now original (remapped hash original s)

/-! ## The loop -/

theorem stepUsersByName_eq {db db' : Database} {i : Nat} (husers : db'.users = db.users)
    (hedits : db'.edits.rows.filter (·.stepId ≠ some i) = db.edits.rows.filter (·.stepId ≠ some i))
    {t : Nat} (ht : t ≠ i) : db'.stepUsersByName t = db.stepUsersByName t := by
  have hfilter : ∀ rows : List Edit, rows.filter (·.stepId = some t) =
      (rows.filter (·.stepId ≠ some i)).filter (·.stepId = some t) := by
    intro rows
    rw [List.filter_filter]
    apply List.filter_congr
    intro e _
    by_cases h : e.stepId = some t
    · simp [h, ht]
    · simp [h]
  rw [stepUsersByName, stepUsersByName, stepUsers, stepUsers, hfilter, hedits, ← hfilter, husers]

theorem kept_projectId {S : Option Nat → Prop} (now : Nat) {s r : Step} (hs : S s.projectId) (hr : S r.projectId) :
    S (kept now s r).projectId := by
  unfold kept
  split
  · exact hs
  · exact hr

theorem copiedRow_projectId (now : Nat) (hash : Nat → Option Nat) (original : Step)
    (authors : List Nat) (s r : Step) :
    (copiedRow now hash original authors s r).projectId = s.projectId ∨
      (copiedRow now hash original authors s r).projectId = r.projectId := by
  let S : Option Nat → Prop := fun q => q = s.projectId ∨ q = r.projectId
  have hcredited : S (credited authors (remapped hash original s)).projectId := by
    unfold credited
    split
    · exact Or.inl rfl
    · exact Or.inl rfl
  -- each of the three saves keeps the row or replaces it
  have hfirst : S (kept now (remapped hash original s) r).projectId := kept_projectId now (Or.inl rfl) (Or.inr rfl)
  have hsecond := kept_projectId now hcredited hfirst
  show S (copiedRow now hash original authors s r).projectId
  unfold copiedRow
  dsimp only
  split
  · exact kept_projectId now hcredited hsecond
  · exact hsecond

theorem copiedRow_id {now : Nat} {hash : Nat → Option Nat} {original : Step} {authors : List Nat}
    {s r : Step} (h : r.id = s.id) : (copiedRow now hash original authors s r).id = s.id := by
  have hid := (credited_rest authors (remapped hash original s)).1
  have htwo : (kept now (credited authors (remapped hash original s))
      (kept now (remapped hash original s) r)).id = s.id :=
    (kept_id (by rw [hid]; exact kept_id h)).trans hid
  unfold copiedRow
  dsimp only
  split
  · exact (kept_id (by rw [htwo]; exact hid.symm)).trans hid
  · exact htwo

section Loop

variable {now p : Nat} {hash : Nat → Option Nat} {c : Step → Step} {authors : Step → List Nat}

/-- What the loop body for the copy of `s` does to any row. -/
def copiedStep (now : Nat) (hash : Nat → Option Nat) (c : Step → Step) (authors : Step → List Nat)
    (r s : Step) : Step :=
  if r.id = (c s).id then copiedRow now hash s (authors s) (c s) r else r

variable (now hash c authors) in
theorem rows_foldl_remixStep {db : Database} {ss l : List Step} (hss : db.projectSteps p = ss)
    (hl : ∀ s ∈ l, s ∈ ss) (hn : (ss.map Step.position).Nodup)
    (hpos : ∀ s ∈ ss, (c s).position = s.position) (hproj : ∀ s ∈ ss, (c s).projectId ≠ some p)
    (hfresh : ∀ s ∈ ss, ∀ t ∈ ss, (c s).id ≠ t.id)
    (hauthors : ∀ s ∈ ss, (db.stepUsersByName s.id).map User.id = authors s) :
    ((l.map c).foldl (remixStep now p hash) db).steps.rows =
      db.steps.rows.map fun r => l.foldl (copiedStep now hash c authors) r := by
  induction l generalizing db with
  | nil => simp
  | cons s l ih =>
    have hs : s ∈ ss := hl s List.mem_cons_self
    -- the original is found by its position
    have ho : (db.orderedSteps p).find? (·.position = (c s).position) = some s := by
      cases hf : (db.orderedSteps p).find? (·.position = (c s).position) with
      | none =>
        have hnone := List.find?_eq_none.mp hf s (mem_orderedSteps.mpr (hss ▸ hs))
        simp [hpos s hs] at hnone
      | some t =>
        have ht : t ∈ ss := hss ▸ mem_orderedSteps.mp (List.mem_of_find?_eq_some hf)
        have htp : t.position = s.position := by
          have h := List.find?_some hf
          rw [decide_eq_true_eq, hpos s hs] at h
          exact h
        rw [List.inj_on_of_nodup_map hn ht hs htp]
    obtain ⟨hrows, husers, hedits⟩ := remixStep_spec now hash ho
    rw [hauthors s hs] at hrows
    have hrows' : (remixStep now p hash db (c s)).steps.rows =
        db.steps.rows.map fun r => copiedStep now hash c authors r s := hrows
    have hss' : (remixStep now p hash db (c s)).projectSteps p = ss := by
      rw [projectSteps, hrows', List.filter_map, ← hss, projectSteps]
      have hiff : db.steps.rows.filter ((fun r : Step => decide (r.projectId = some p)) ∘
          fun r => copiedStep now hash c authors r s) = db.steps.rows.filter (·.projectId = some p) := by
        apply List.filter_congr
        intro r hr
        rw [Function.comp, copiedStep]
        split
        · rename_i hid
          have hrp : r.projectId ≠ some p := fun h =>
            hfresh s hs r (hss ▸ mem_projectSteps.mpr ⟨hr, h⟩) hid.symm
          rw [decide_eq_false hrp, decide_eq_false]
          rcases copiedRow_projectId now hash s (authors s) (c s) r with h | h
          · rw [h]
            exact hproj s hs
          · rw [h]
            exact hrp
        · rfl
      rw [hiff]
      apply List.map_eq_self_of_forall
      intro r hr
      have hrss : r ∈ ss := hss ▸ hr
      exact if_neg (Ne.symm (hfresh s hs r hrss))
    rw [List.map_cons, List.foldl_cons, ih hss' (fun t ht => hl t (List.mem_cons_of_mem _ ht)) ?_,
      hrows', List.map_map]
    · rfl
    · intro t ht
      rw [stepUsersByName_eq husers hedits (Ne.symm (hfresh s hs t ht))]
      exact hauthors t ht

/-- A row that is no copy stays as it is. -/
theorem foldl_copiedStep_of_ne {l : List Step} {r : Step} (h : ∀ s ∈ l, r.id ≠ (c s).id) :
    l.foldl (copiedStep now hash c authors) r = r := by
  induction l with
  | nil => rfl
  | cons s l ih =>
    rw [List.foldl_cons, copiedStep, if_neg (h s List.mem_cons_self),
      ih fun t ht => h t (List.mem_cons_of_mem _ ht)]

/-- The copy of `s` is written once, in its own iteration. -/
theorem foldl_copiedStep {l : List Step} (hn : (l.map fun s => (c s).id).Nodup) {s : Step}
    (hs : s ∈ l) :
    l.foldl (copiedStep now hash c authors) (c s) =
      copiedRow now hash s (authors s) (c s) (c s) := by
  induction l with
  | nil => simp at hs
  | cons t l ih =>
    rw [List.map_cons, List.nodup_cons] at hn
    rw [List.foldl_cons]
    rcases List.mem_cons.mp hs with rfl | hs
    · rw [copiedStep, if_pos rfl, foldl_copiedStep_of_ne]
      intro t ht heq
      rw [copiedRow_id rfl] at heq
      exact hn.1 (List.mem_map.mpr ⟨t, ht, heq.symm⟩)
    · have hne : (c s).id ≠ (c t).id := fun heq => hn.1 (List.mem_map.mpr ⟨s, hs, heq⟩)
      rw [show copiedStep now hash c authors (c s) t = c s from if_neg hne, ih hn.2 hs]

end Loop

/-! ## Paths through the hash -/

section Row

variable {now : Nat} {hash : Nat → Option Nat} {original s : Step} {authors : List Nat}

variable (now) in
theorem kept_rest {s r : Step} (h : r.position = s.position ∧ r.name = s.name) :
    (kept now s r).position = s.position ∧ (kept now s r).name = s.name := by
  unfold kept
  split
  · exact ⟨rfl, rfl⟩
  · exact h

/-- Position and name are never touched. -/
theorem copiedRow_rest (now : Nat) (hash : Nat → Option Nat) (original : Step) (authors : List Nat)
    (s : Step) :
    (copiedRow now hash original authors s s).position = s.position ∧
      (copiedRow now hash original authors s s).name = s.name := by
  obtain ⟨-, hp, hn, -, -⟩ := credited_rest authors (remapped hash original s)
  have hone : (kept now (remapped hash original s) s).position = s.position ∧
      (kept now (remapped hash original s) s).name = s.name :=
    kept_rest now (s := remapped hash original s) ⟨rfl, rfl⟩
  have htwo : (kept now (credited authors (remapped hash original s))
      (kept now (remapped hash original s) s)).position = s.position ∧
      (kept now (credited authors (remapped hash original s))
        (kept now (remapped hash original s) s)).name = s.name := by
    have h := kept_rest now (s := credited authors (remapped hash original s))
      (r := kept now (remapped hash original s) s) ⟨hone.1.trans hp.symm, hone.2.trans hn.symm⟩
    exact ⟨h.1.trans hp, h.2.trans hn⟩
  unfold copiedRow
  dsimp only
  split
  · have h := kept_rest now
      (s := { credited authors (remapped hash original s) with last := some false })
      ⟨htwo.1.trans hp.symm, htwo.2.trans hn.symm⟩
    exact ⟨h.1.trans hp, h.2.trans hn⟩
  · exact htwo

variable (now) in
/-- A copy whose record is valid in the end is written as its record. -/
theorem copiedRow_of_valid (hv : (credited authors (remapped hash original s)).valid = true) :
    let r := copiedRow now hash original authors s s
    r.ancestry = (credited authors (remapped hash original s)).ancestry ∧
      r.originalAuthors = some authors ∧ r.last ≠ some true := by
  have hlast : ({ credited authors (remapped hash original s) with last := some false } : Step).valid =
      true := hv
  obtain ⟨-, -, -, -, ha⟩ := credited_rest authors (remapped hash original s)
  dsimp only
  unfold copiedRow
  dsimp only
  split
  · rw [kept, if_pos hlast]
    exact ⟨rfl, ha, by simp [Step.stamped]⟩
  · rename_i hl
    rw [kept, if_pos hv]
    exact ⟨rfl, ha, hl⟩

/-- A copy whose record never becomes valid keeps its row. -/
theorem copiedRow_of_invalid (h₁ : (remapped hash original s).valid = false)
    (h₂ : (credited authors (remapped hash original s)).valid = false) :
    copiedRow now hash original authors s s = s := by
  have hlast : ({ credited authors (remapped hash original s) with last := some false } : Step).valid =
      false := h₂
  unfold copiedRow kept
  simp [h₁, h₂, hlast]

end Row

theorem ancestryArray_render {l : List Nat} (hl : l ≠ []) : ancestryArray (some (render l)) = l := by
  rw [ancestryArray]
  split
  · exact map_toNat_split_render l
  · rename_i hno
    -- without a slash there is one component
    rcases l with _ | ⟨a, _ | ⟨b, l⟩⟩
    · exact absurd rfl hl
    · simp
    · rw [render_cons (by simp)] at hno
      simp at hno

/-- Known ids are renamed one by one. -/
theorem remixAncestry_known {hash : Nat → Option Nat} {f : Nat → Nat} {l : List Nat} (hl : l ≠ [])
    (h : ∀ i ∈ l, hash i = some (f i)) :
    remixAncestry hash (some (render l)) = render (l.map f) := by
  rw [remixAncestry, ancestryArray_render hl, render, List.map_map]
  congr 1
  apply List.map_congr_left
  intro i hi
  rw [h i hi]
  rfl

/-- The top of the tree becomes the empty text. -/
theorem remixAncestry_top {hash : Nat → Option Nat} (h0 : hash 0 = none) {a : Option Text}
    (ha : a = none ∨ a = some ['0']) : remixAncestry hash a = [] := by
  have harr : ancestryArray a = [0] := by
    rcases ha with rfl | rfl
    · rfl
    · decide
  rw [remixAncestry, harr, List.map_singleton, h0]
  rfl

/-- A leading zero leaves a slash in front. -/
theorem remixAncestry_zero {hash : Nat → Option Nat} (h0 : hash 0 = none) {l : List Nat} (hl : l ≠ []) :
    ∃ t, remixAncestry hash (some (render (0 :: l))) = '/' :: t := by
  rw [remixAncestry, ancestryArray_render (by simp), List.map_cons, h0]
  cases hm : l.map (fun i => (hash i).elim [] toS) with
  | nil => exact absurd (List.map_eq_nil_iff.mp hm) hl
  | cons x xs =>
    refine ⟨join '/' (x :: xs), ?_⟩
    simp [join, List.intercalate]

/-! ## The new project -/

theorem pattern_slash (t : Text) : pattern ('/' :: t) = false := by
  have hbody : ∃ t', (if ('/' :: t).getLast? = some '\n' then ('/' :: t).dropLast else '/' :: t) =
      '/' :: t' := by
    split
    · cases t with
      | nil => simp at *
      | cons c t => exact ⟨(c :: t).dropLast, rfl⟩
    · exact ⟨t, rfl⟩
  obtain ⟨t', ht'⟩ := hbody
  rw [pattern, ht']
  have hsplit : ('/' :: t').splitOn '/' = [] :: t'.splitOn '/' := by
    have h : (([] : Text) ++ '/' :: t').splitOn '/' = [] :: t'.splitOn '/' :=
      List.splitOn_append_cons_self_of_not_mem List.not_mem_nil t'
    exact h
  rw [hsplit]
  rfl

/-- The title of a remix is no longer than forty characters when the title of the project is. -/
theorem remixValid_of_valid {project : Project} (hv : project.valid = true)
    (ha : project.remixAncestry = none ∨ ∃ l, l ≠ [] ∧ project.remixAncestry = some (render l))
    {ss : List Step} (hs : ∀ s ∈ ss, s.valid = true) (now q : Nat) :
    remixValid (remixProject project now q) ss = true := by
  simp only [Project.valid, Bool.and_eq_true, Bool.not_eq_true', decide_eq_true_eq] at hv
  obtain ⟨⟨⟨htitle, hlen⟩, -⟩, -⟩ := hv
  have hfmt : validFormat (some (childAncestry project.remixAncestry project.id)) = true := by
    rcases ha with ha | ⟨l, hl, ha⟩
    · rw [ha, childAncestry_blank rfl]
      exact pattern_render (by simp)
    · rw [ha, childAncestry_render hl]
      exact pattern_render (by simp)
  have hall : ss.all Step.validNew = true := by
    rw [List.all_eq_true]
    intro s h
    have hsv := hs s h
    rw [Step.valid, Bool.and_eq_true] at hsv
    exact hsv.1
  have hnew : blank (remixProject project now q).title = false ∧
      (remixProject project now q).title.length ≤ 40 := by
    unfold remixProject
    dsimp only
    split
    · rename_i hc
      rw [Bool.and_eq_true, decide_eq_true_eq] at hc
      have hlong : (" Remix".toList).length = 6 := by decide
      refine ⟨?_, by rw [List.length_append, hlong]; omega⟩
      rw [blank, List.all_append, Bool.and_eq_false_iff]
      exact Or.inl htitle
    · exact ⟨htitle, hlen⟩
  have hfmt' : validFormat (remixProject project now q).remixAncestry = true := hfmt
  rw [remixValid, hnew.1, decide_eq_true hnew.2, hall, hfmt']
  rfl

/-- Images and videos come after the steps and leave them alone. -/
theorem steps_foldl_remixImage (q : Nat) (hash : Nat → Option Nat) (ms : List Image) (db : Database) :
    (ms.foldl (remixImage q hash) db).steps = db.steps := by
  induction ms generalizing db with
  | nil => rfl
  | cons m ms ih => exact ih _

/-- The steps of the original and of the remix, and the hash between them. -/
theorem remix_spec {db : Database} {p : Nat} {project : Project}
    (hproject : db.projects.find? p = some project) (hv : project.valid = true)
    (ha : project.remixAncestry = none ∨ ∃ l, l ≠ [] ∧ project.remixAncestry = some (render l))
    (hs : ∀ s ∈ db.projectSteps p, s.valid = true)
    (hn : ((db.projectSteps p).map Step.position).Nodup)
    (hnew : db.projectSteps db.projects.next = []) (u : User) (now : Nat) :
    let r := remix u now p db
    let q := db.projects.next
    r.1 = some q ∧ r.2.projectSteps p = db.projectSteps p ∧
    ∃ (hash : Nat → Option Nat) (c : Step → Step),
      (∀ s ∈ db.projectSteps p, hash s.id = some (c s).id ∧ db.steps.next ≤ (c s).id ∧
        (c s).position = s.position ∧ (c s).name = s.name ∧ (c s).ancestry = s.ancestry) ∧
      ((db.projectSteps p).map fun s => (c s).id).Nodup ∧
      (∀ i, (∀ s ∈ db.projectSteps p, s.id ≠ i) → hash i = none) ∧
      r.2.projectSteps q = (db.projectSteps p).map fun s =>
        copiedRow now hash s ((db.stepUsersByName s.id).map User.id) (c s) (c s) := by
  have hpq := ne_next_of_find? hproject
  obtain ⟨hp, hq⟩ := projectSteps_beginRemix hproject hnew u now
  obtain ⟨-, hord⟩ := orderedSteps_beginRemix hproject hnew u now
  have hhash : ∀ s ∈ db.projectSteps p, (db.beginRemix u now p project).stepHash p db.projects.next s.id =
      some (db.copyOf now p s).id := fun s => stepHash_beginRemix hproject hnew u now
  have hunknown : ∀ i, (∀ s ∈ db.projectSteps p, s.id ≠ i) →
      (db.beginRemix u now p project).stepHash p db.projects.next i = none := fun i =>
    stepHash_beginRemix_eq_none hproject hnew u now
  have hrows := db.rows_beginRemix u now p project
  have husers := db.stepUsersByName_beginRemix u now p project
  dsimp only
  rw [remix_eq u now hproject (remixValid_of_valid hv ha hs _ _)]
  generalize db.beginRemix u now p project = db₂ at *
  have hids := db.nodup_copyOf now p
  have hperm := db.perm_orderedSteps p
  have hloop := rows_foldl_remixStep now (db₂.stepHash p db.projects.next) (db.copyOf now p)
    (fun s => (db.stepUsersByName s.id).map User.id) (l := db.orderedSteps p) hp
    (fun s h => hperm.mem_iff.mp h) hn (fun _ _ => rfl)
    (fun s _ hsame => hpq (Option.some.inj hsame).symm)
    (fun s _ t ht => db.copyOf_ne now p s (mem_projectSteps.mp ht).1) fun s _ => husers s.id
  rw [← hord] at hloop
  -- old rows stay, each copy is written in its own iteration
  have hfinal : ∀ ms : List Image, (ms.foldl (remixImage db.projects.next (db₂.stepHash p db.projects.next))
      (db₂.remixSteps now p db.projects.next)).steps.rows = db.steps.rows ++ (db.projectSteps p).map fun s =>
        copiedRow now (db₂.stepHash p db.projects.next) s ((db.stepUsersByName s.id).map User.id) (db.copyOf now p s)
          (db.copyOf now p s) := by
    intro ms
    rw [steps_foldl_remixImage, remixSteps, hloop, hrows, List.map_append, List.map_map]
    congr 1
    · apply List.map_eq_self_of_forall
      intro r hr
      apply foldl_copiedStep_of_ne
      intro s _
      exact (db.copyOf_ne now p s hr).symm
    · apply List.map_congr_left
      intro s hs
      exact foldl_copiedStep ((hperm.map fun s => (db.copyOf now p s).id).nodup_iff.mpr hids)
        (hperm.mem_iff.mpr hs)
  have hproj : ∀ s, (copiedRow now (db₂.stepHash p db.projects.next) s ((db.stepUsersByName s.id).map User.id)
      (db.copyOf now p s) (db.copyOf now p s)).projectId = some db.projects.next := fun s =>
    (copiedRow_projectId _ _ _ _ _ _).elim id id
  refine ⟨rfl, ?_, db₂.stepHash p db.projects.next, db.copyOf now p, ?_, hids, hunknown, ?_⟩
  · rw [projectSteps, hfinal, List.filter_append, projectSteps, List.append_right_eq_self, List.filter_eq_nil_iff]
    intro x hx
    obtain ⟨s, -, rfl⟩ := List.mem_map.mp hx
    rw [hproj, decide_eq_true_eq, Option.some.injEq]
    exact Ne.symm hpq
  · intro s hs
    exact ⟨hhash s hs, db.le_copyOf now p s, rfl, rfl, rfl⟩
  · rw [projectSteps] at hnew
    rw [projectSteps, hfinal, List.filter_append, hnew, List.nil_append, List.filter_eq_self]
    intro x hx
    obtain ⟨s, -, rfl⟩ := List.mem_map.mp hx
    exact decide_eq_true (hproj s)

/-! ## The copied tree -/

/-- The ids a step names above it, without the zero of the top. -/
def properAncestors (s : Step) : List Nat := (ancestorIds s.ancestry).filter (· ≠ 0)

/-- The steps of `q` are the steps of `p` under the hash: same positions and names, ancestors renamed,
authors credited, none marked as the last; and the steps of `p` are what they were. -/
structure TreeCopied (db db' : Database) (p q : Nat) : Prop where
  unchanged : db'.projectSteps p = db.projectSteps p
  onto : ∀ c ∈ db'.projectSteps q, ∃ s ∈ db.projectSteps p, db'.stepHash p q s.id = some c.id
  injective : ∀ s ∈ db.projectSteps p, ∀ t ∈ db.projectSteps p,
    db'.stepHash p q s.id = db'.stepHash p q t.id → s = t
  copy : ∀ s ∈ db.projectSteps p, ∃ c ∈ db'.projectSteps q, db'.stepHash p q s.id = some c.id ∧
    c.position = s.position ∧ c.name = s.name ∧
    (properAncestors s).map (db'.stepHash p q) = (properAncestors c).map some ∧
    c.originalAuthors = some ((db.stepUsersByName s.id).map User.id) ∧ c.last ≠ some true

instance (db db' : Database) (p q : Nat) : Decidable (TreeCopied db db' p q) :=
  decidable_of_iff
    (db'.projectSteps p = db.projectSteps p ∧
      (∀ c ∈ db'.projectSteps q, ∃ s ∈ db.projectSteps p, db'.stepHash p q s.id = some c.id) ∧
      (∀ s ∈ db.projectSteps p, ∀ t ∈ db.projectSteps p,
        db'.stepHash p q s.id = db'.stepHash p q t.id → s = t) ∧
      ∀ s ∈ db.projectSteps p, ∃ c ∈ db'.projectSteps q, db'.stepHash p q s.id = some c.id ∧
        c.position = s.position ∧ c.name = s.name ∧
        (properAncestors s).map (db'.stepHash p q) = (properAncestors c).map some ∧
        c.originalAuthors = some ((db.stepUsersByName s.id).map User.id) ∧ c.last ≠ some true)
    ⟨fun h => ⟨h.1, h.2.1, h.2.2.1, h.2.2.2⟩, fun h => ⟨h.1, h.2, h.3, h.4⟩⟩

/-- Every step below the top names only steps of the project, so no zero in front of them. -/
def KnownAncestors (db : Database) (p : Nat) : Prop :=
  ∀ s ∈ db.projectSteps p, s.topLevel = true ∨
    ∀ i ∈ ancestorIds s.ancestry, ∃ t ∈ db.projectSteps p, t.id = i

instance (db : Database) (p : Nat) : Decidable (KnownAncestors db p) :=
  inferInstanceAs (Decidable (∀ s ∈ db.projectSteps p, s.topLevel = true ∨
    ∀ i ∈ ancestorIds s.ancestry, ∃ t ∈ db.projectSteps p, t.id = i))

section Copied

variable {now : Nat} {hash : Nat → Option Nat} {s m : Step} {authors : List Nat}

variable (now authors) in
/-- The copy of a step at the top. -/
theorem copiedRow_top (h0 : hash 0 = none) (ha : s.ancestry = none ∨ s.ancestry = some ['0'])
    (hname : blank m.name = false) (hid : 0 < m.id) :
    let r := copiedRow now hash s authors m m
    properAncestors r = [] ∧ r.originalAuthors = some authors ∧ r.last ≠ some true := by
  have hcred : credited authors (remapped hash s m) =
      { m with ancestry := some ['0'], originalAuthors := some authors } := by
    have hb : blankColumn (remapped hash s m).ancestry = true := by
      rw [remapped, remixAncestry_top h0 ha]
      rfl
    rw [credited, if_pos hb]
    rfl
  have hv : (credited authors (remapped hash s m)).valid = true := by
    rw [hcred]
    have hids : ancestorIds (some ['0']) = [0] := by decide
    have hfmt : validFormat (some ['0']) = true := by decide
    simp only [Step.valid, Step.validNew, hname, hids, hfmt, Bool.not_false, Bool.and_self,
      Bool.true_and, Bool.not_eq_true', List.contains_eq_mem, List.mem_singleton,
      decide_eq_false_iff_not]
    omega
  obtain ⟨hanc, hauth, hlast⟩ := copiedRow_of_valid now hv
  refine ⟨?_, hauth, hlast⟩
  rw [properAncestors, hanc, hcred]
  show (ancestorIds (some ['0'])).filter (· ≠ 0) = []
  decide

variable (now authors) in
/-- The copy of a step below known steps. -/
theorem copiedRow_known {f : Nat → Nat} {l : List Nat} (hl : l ≠ [])
    (ha : s.ancestry = some (render l)) (hhash : ∀ i ∈ l, hash i = some (f i))
    (hpos : ∀ i ∈ l, 0 < f i) (hname : blank m.name = false) (hid : m.id ∉ l.map f) :
    let r := copiedRow now hash s authors m m
    properAncestors r = l.map f ∧ r.originalAuthors = some authors ∧ r.last ≠ some true := by
  have hne : l.map f ≠ [] := by simp [hl]
  have hcred : credited authors (remapped hash s m) =
      { m with ancestry := some (render (l.map f)), originalAuthors := some authors } := by
    have hnot : blankColumn (remapped hash s m).ancestry = false := by
      rw [remapped, ha, remixAncestry_known hl hhash]
      exact blank_render hne
    rw [credited, if_neg (by rw [hnot]; simp), remapped, ha, remixAncestry_known hl hhash]
  have hv : (credited authors (remapped hash s m)).valid = true := by
    have hfmt : validFormat (some (render (l.map f))) = true := pattern_render hne
    rw [hcred]
    simp only [Step.valid, Step.validNew, hname, hfmt, ancestorIds_render, Bool.not_false,
      Bool.and_self, Bool.true_and, Bool.not_eq_true', List.contains_eq_mem, decide_eq_false_iff_not]
    exact hid
  obtain ⟨hanc, hauth, hlast⟩ := copiedRow_of_valid now hv
  refine ⟨?_, hauth, hlast⟩
  rw [properAncestors, hanc, hcred, ancestorIds_render, List.filter_eq_self]
  intro i hi
  obtain ⟨j, hj, rfl⟩ := List.mem_map.mp hi
  have hp := hpos j hj
  rw [decide_eq_true_eq]
  omega

/-- The copy of a step with a zero in front of its path is never written. -/
theorem copiedRow_zero (h0 : hash 0 = none) {l : List Nat} (hl : l ≠ [])
    (ha : s.ancestry = some (render (0 :: l))) : copiedRow now hash s authors m m = m := by
  obtain ⟨t, ht⟩ := remixAncestry_zero h0 hl
  have hanc : (remapped hash s m).ancestry = some ('/' :: t) := by rw [remapped, ha, ht]
  have hfmt : validFormat (some ('/' :: t)) = false := pattern_slash t
  have hblank : blankColumn (some ('/' :: t)) = false := by
    rw [blankColumn, blank, List.all_cons, show isWideSpace '/' = false by decide, Bool.false_and]
  apply copiedRow_of_invalid
  · rw [Step.valid, Step.validNew, hanc, hfmt]
    simp
  · rw [credited, hanc, if_neg (by rw [hblank]; simp), Step.valid, Step.validNew]
    dsimp only
    rw [hfmt]
    simp

end Copied

/-- What the remix of `p` leaves behind: the steps of `q` are the rows the loop made of the first
copies `c`, and `hash` is the hash it used. -/
structure Remixed (db db' : Database) (p q now : Nat) (hash : Nat → Option Nat) (c : Step → Step) :
    Prop where
  positions : ((db.projectSteps p).map Step.position).Nodup
  named : ∀ s ∈ db.projectSteps p, s.valid = true
  unchanged : db'.projectSteps p = db.projectSteps p
  first : ∀ s ∈ db.projectSteps p, hash s.id = some (c s).id ∧ db.steps.next ≤ (c s).id ∧
    (c s).position = s.position ∧ (c s).name = s.name ∧ (c s).ancestry = s.ancestry
  ids : ((db.projectSteps p).map fun s => (c s).id).Nodup
  unknown : ∀ i, (∀ s ∈ db.projectSteps p, s.id ≠ i) → hash i = none
  rows : db'.projectSteps q = (db.projectSteps p).map fun s =>
    copiedRow now hash s ((db.stepUsersByName s.id).map User.id) (c s) (c s)

namespace Remixed

variable {db db' : Database} {p q now : Nat} {hash : Nat → Option Nat} {c : Step → Step}

theorem injective (h : Remixed db db' p q now hash c) {s t : Step} (hs : s ∈ db.projectSteps p)
    (ht : t ∈ db.projectSteps p) (heq : (c s).id = (c t).id) : s = t :=
  List.inj_on_of_nodup_map h.ids hs ht heq

theorem hash_zero (h : Remixed db db' p q now hash c) : hash 0 = none :=
  h.unknown 0 fun s hs h0 => by
    have hp := id_pos_of_mem hs
    omega

theorem position_rows (h : Remixed db db' p q now hash c) : ∀ s ∈ db'.projectSteps p,
    (copiedRow now hash s ((db.stepUsersByName s.id).map User.id) (c s) (c s)).position =
      s.position := by
  intro s hs
  rw [h.unchanged] at hs
  rw [(copiedRow_rest _ _ _ _ _).1, (h.first s hs).2.2.1]

/-- In the final state the hash is still the one the loop used. -/
theorem stepHash (h : Remixed db db' p q now hash c) {s : Step} (hs : s ∈ db.projectSteps p) :
    db'.stepHash p q s.id = some (c s).id := by
  rw [stepHash_copies (by rw [h.unchanged]; exact h.rows)
    h.position_rows (by rw [h.unchanged]; exact hs), copiedRow_id rfl]

theorem stepHash_unknown (h : Remixed db db' p q now hash c) {i : Nat}
    (hi : ∀ s ∈ db.projectSteps p, s.id ≠ i) : db'.stepHash p q i = none :=
  stepHash_eq_none (by rw [h.unchanged]; exact h.rows)
    h.position_rows (by rw [h.unchanged]; exact hi)

/-- With a zero in front of its path, the copy of `s` names the steps of the original. -/
theorem not_renamed (h : Remixed db db' p q now hash c) {s x : Step} (hs : s ∈ db.projectSteps p)
    (hx : x ∈ db'.projectSteps q) (hid : (c s).id = x.id) {l : List Nat} (hl : l ≠ [])
    (ha : s.ancestry = some (render (0 :: l))) (hpos : ∀ i ∈ l, 0 < i)
    (hknown : ∀ i ∈ l, ∃ t ∈ db.projectSteps p, t.id = i) :
    (properAncestors s).map (db'.stepHash p q) ≠ (properAncestors x).map some := by
  have hrow : x = c s := by
    rw [h.rows] at hx
    obtain ⟨t, ht, rfl⟩ := List.mem_map.mp hx
    rw [copiedRow_id rfl] at hid
    rw [← h.injective hs ht hid]
    exact copiedRow_zero h.hash_zero hl ha
  have hkeep : (0 :: l).filter (· ≠ 0) = l := by
    rw [List.filter_cons_of_neg (by simp), List.filter_eq_self]
    intro i hi
    have hp := hpos i hi
    rw [decide_eq_true_eq]
    omega
  rw [hrow, properAncestors, properAncestors, (h.first s hs).2.2.2.2, ha, ancestorIds_render, hkeep]
  intro hmap
  -- a known id goes to a new id, not to itself
  obtain ⟨i, hi⟩ := List.exists_mem_of_ne_nil l hl
  obtain ⟨t, ht, rfl⟩ := hknown i hi
  have hsame : db'.stepHash p q t.id = some t.id := List.map_inj_left.mp hmap t.id hi
  rw [h.stepHash ht, Option.some.injEq] at hsame
  have hge := (h.first t ht).2.1
  have hb : t.id < db.steps.next := (db.steps.bound t (mem_projectSteps.mp ht).1).2
  omega

/-- A copy that names the right steps comes from a path of known steps. -/
theorem knownAncestors (h : Remixed db db' p q now hash c)
    (hpaths : ∀ s ∈ db.projectSteps p, s.ancestry = none ∨
      ∃ l, l ≠ [] ∧ s.ancestry = some (render l) ∧ ∀ i ∈ l.tail, 0 < i)
    (htree : TreeCopied db db' p q) : KnownAncestors db p := by
  intro s hs
  rcases hpaths s hs with ha | ⟨l, hl, ha, htail⟩
  · exact Or.inl (topLevel_iff.mpr (Or.inl ha))
  · obtain ⟨x, hx, hxid, -, -, hmap, -, -⟩ := htree.copy s hs
    rw [h.stepHash hs, Option.some.injEq] at hxid
    -- an id that is renamed to nothing would be missing in the copy
    have hknown : ∀ i ∈ l, i ≠ 0 → ∃ t ∈ db.projectSteps p, t.id = i := by
      intro i hi hi0
      by_contra hno
      have hmem : db'.stepHash p q i ∈ (properAncestors s).map (db'.stepHash p q) := by
        apply List.mem_map_of_mem
        rw [properAncestors, ha, ancestorIds_render]
        exact List.mem_filter.mpr ⟨hi, by simpa using hi0⟩
      rw [hmap, h.stepHash_unknown fun t ht hti => hno ⟨t, ht, hti⟩] at hmem
      simp at hmem
    have hpos : ∀ i ∈ l.tail, i ≠ 0 := fun i hi h0 => by
      have hp := htail i hi
      omega
    cases l with
    | nil => exact absurd rfl hl
    | cons i l =>
      by_cases hi0 : i = 0
      · subst hi0
        by_cases hl' : l = []
        · left
          rw [topLevel_iff, ha, hl', render_zero]
          simp
        · exact absurd hmap (h.not_renamed hs hx hxid hl' ha htail fun i hi =>
            hknown i (List.mem_cons_of_mem _ hi) (hpos i hi))
      · right
        rw [ha, ancestorIds_render]
        intro j hj
        apply hknown j hj
        rcases List.mem_cons.mp hj with rfl | hj
        · exact hi0
        · exact hpos j hj

/-- The row of the copy of `s` is as a copy should be. -/
def RowOk (db db' : Database) (p q : Nat) (s x : Step) : Prop :=
  (properAncestors s).map (db'.stepHash p q) = (properAncestors x).map some ∧
    x.originalAuthors = some ((db.stepUsersByName s.id).map User.id) ∧ x.last ≠ some true

theorem name_first (h : Remixed db db' p q now hash c) {s : Step} (hs : s ∈ db.projectSteps p) :
    blank (c s).name = false := by
  have hv := h.named s hs
  rw [Step.valid, Step.validNew, Bool.and_eq_true, Bool.and_eq_true, Bool.not_eq_true'] at hv
  rw [(h.first s hs).2.2.2.1]
  exact hv.1.1

theorem rowOk_top (h : Remixed db db' p q now hash c) {s : Step} (hs : s ∈ db.projectSteps p)
    (ha : s.ancestry = none ∨ s.ancestry = some ['0']) :
    RowOk db db' p q s
      (copiedRow now hash s ((db.stepUsersByName s.id).map User.id) (c s) (c s)) := by
  have hge := (h.first s hs).2.1
  have hnext := db.steps.next_pos
  obtain ⟨hprop, hauth, hlast⟩ := copiedRow_top now
    ((db.stepUsersByName s.id).map User.id) h.hash_zero ha (h.name_first hs) (by omega)
  refine ⟨?_, hauth, hlast⟩
  have hown : properAncestors s = [] := by
    rw [properAncestors]
    rcases ha with ha | ha
    · rw [ha]
      decide
    · rw [ha]
      decide
  rw [hprop, hown]
  rfl

theorem rowOk_known (h : Remixed db db' p q now hash c) {s : Step} (hs : s ∈ db.projectSteps p)
    {l : List Nat} (hl : l ≠ []) (ha : s.ancestry = some (render l))
    (hknown : ∀ i ∈ l, ∃ t ∈ db.projectSteps p, t.id = i) :
    RowOk db db' p q s
      (copiedRow now hash s ((db.stepUsersByName s.id).map User.id) (c s) (c s)) := by
  have hnext := db.steps.next_pos
  have hone : ∀ i ∈ l, ∃ t ∈ db.projectSteps p, t.id = i ∧ hash i = some ((hash i).getD 0) ∧
      (hash i).getD 0 = (c t).id := by
    intro i hi
    obtain ⟨t, ht, rfl⟩ := hknown i hi
    rw [(h.first t ht).1]
    exact ⟨t, ht, rfl, rfl, rfl⟩
  have hpos : ∀ i ∈ l, 0 < (hash i).getD 0 := by
    intro i hi
    obtain ⟨t, ht, -, -, heq⟩ := hone i hi
    have hge := (h.first t ht).2.1
    omega
  -- the copy does not name itself, because the original does not
  have hself : (c s).id ∉ l.map fun i => (hash i).getD 0 := by
    intro hmem
    obtain ⟨i, hi, heq⟩ := List.mem_map.mp hmem
    obtain ⟨t, ht, rfl, -, hct⟩ := hone i hi
    have hst := h.injective ht hs (hct.symm.trans heq)
    have hsv := h.named s hs
    rw [hst] at hi
    simp [Step.valid, ha, hi] at hsv
  obtain ⟨hprop, hauth, hlast⟩ := copiedRow_known now
    ((db.stepUsersByName s.id).map User.id) hl ha
    (fun i hi => (hone i hi).elim fun t ht => ht.2.2.1) hpos (h.name_first hs) hself
  refine ⟨?_, hauth, hlast⟩
  have hown : properAncestors s = l := by
    rw [properAncestors, ha, ancestorIds_render, List.filter_eq_self]
    intro i hi
    obtain ⟨t, ht, rfl⟩ := hknown i hi
    have hp := id_pos_of_mem ht
    rw [decide_eq_true_eq]
    omega
  rw [hprop, hown, List.map_map]
  apply List.map_congr_left
  intro i hi
  obtain ⟨t, ht, rfl, -, hct⟩ := hone i hi
  rw [Function.comp, hct]
  exact h.stepHash ht

theorem treeCopied (h : Remixed db db' p q now hash c)
    (hpaths : ∀ s ∈ db.projectSteps p, s.ancestry = none ∨ ∃ l, l ≠ [] ∧ s.ancestry = some (render l))
    (hknown : KnownAncestors db p) : TreeCopied db db' p q := by
  have hrow : ∀ s ∈ db.projectSteps p, RowOk db db' p q s
      (copiedRow now hash s ((db.stepUsersByName s.id).map User.id) (c s) (c s)) := by
    intro s hs
    rcases hpaths s hs with ha | ⟨l, hl, ha⟩
    · exact h.rowOk_top hs (Or.inl ha)
    · rcases hknown s hs with ht | hk
      · rcases topLevel_iff.mp ht with h' | h' | h'
        · exact h.rowOk_top hs (Or.inl h')
        · rw [ha, Option.some.injEq, render_eq_nil] at h'
          exact absurd h' hl
        · exact h.rowOk_top hs (Or.inr h')
      · rw [ha, ancestorIds_render] at hk
        exact h.rowOk_known hs hl ha hk
  refine ⟨h.unchanged, ?_, ?_, ?_⟩
  · intro x hx
    rw [h.rows] at hx
    obtain ⟨s, hs, rfl⟩ := List.mem_map.mp hx
    exact ⟨s, hs, by rw [h.stepHash hs, copiedRow_id rfl]⟩
  · intro s hs t ht heq
    rw [h.stepHash hs, h.stepHash ht, Option.some.injEq] at heq
    exact h.injective hs ht heq
  · intro s hs
    obtain ⟨-, -, hcpos, hcname, -⟩ := h.first s hs
    obtain ⟨hrpos, hrname⟩ := copiedRow_rest now hash s ((db.stepUsersByName s.id).map User.id) (c s)
    exact ⟨_, by rw [h.rows]; exact List.mem_map_of_mem hs, by rw [h.stepHash hs, copiedRow_id rfl],
      hrpos.trans hcpos, hrname.trans hcname, hrow s hs⟩

end Remixed

end Database
