import BuildInProgress.Project

/-!
# Searching projects and collections

`projects_search` and `collections_search` of `app/controllers/application_controller.rb`.  The database compares
a title with a pattern, and the index of the descriptions answers with hits; a hit names a record by its key
and may be stale.  Both stand here for the servers that are asked.
-/

open Keyed Text

/-- A hit of the index, with the first highlighted fragment of the description when there is one. -/
structure Hit where
  primaryKey : Nat
  highlight : Option Text
  deriving DecidableEq, Repr

/-- A Ruby hash from ids to texts, in the order in which the keys were first stored. -/
abbrev Texts := List (Nat × Option Text)

namespace Texts

def keys (ts : Texts) : List Nat := ts.map Prod.fst

def store (k : Nat) (v : Option Text) (ts : Texts) : Texts :=
  if ts.any (·.1 == k) then ts.map fun e => if e.1 = k then (k, v) else e else ts ++ [(k, v)]

@[simp] theorem mem_keys_store {k i : Nat} {v : Option Text} {ts : Texts} :
    i ∈ (ts.store k v).keys ↔ i = k ∨ i ∈ ts.keys := by
  rw [store, keys, keys]
  split
  · rename_i hany
    obtain ⟨e, he, hek⟩ := List.any_eq_true.mp hany
    have hmap : (ts.map fun e => if e.1 = k then (k, v) else e).map Prod.fst = ts.map Prod.fst := by
      rw [List.map_map]
      apply List.map_congr_left
      intro e _
      show (if e.1 = k then (k, v) else e).1 = e.1
      split
      · rename_i h
        exact h.symm
      · rfl
    rw [hmap]
    refine ⟨Or.inr, ?_⟩
    rintro (rfl | h)
    · exact List.mem_map.mpr ⟨e, he, beq_iff_eq.mp hek⟩
    · exact h
  · rw [List.map_append, List.mem_append, List.map_singleton, List.mem_singleton]
    exact or_comm

end Texts

namespace Search

section Records

variable {α : Type} [Keyed α]

/-- `results`: the records of the hits, without those that are gone. -/
def results (t : Table α) (hits : List Hit) : List α := hits.filterMap fun h => t.find? h.primaryKey

/-- The records found are appended one by one, unless they are in the list already or stay hidden. -/
def merge (shows : α → Bool) : List α → List α → List α
  | listed, [] => listed
  | listed, a :: found =>
    if listed.any (key · == key a) then merge shows listed found
    else if shows a then merge shows (listed ++ [a]) found
    else merge shows listed found

/-- The text of every record of the list. -/
def describe (description : α → Option Text) (listed : List α) : Texts :=
  listed.foldl (fun ts a => ts.store (key a) (description a)) []

/-- The newest records first. -/
def byUpdate (updatedAt : α → Nat) (rs : List α) : List α := rs.insertionSort fun a b => updatedAt b ≤ updatedAt a

end Records

def searchString (term : Text) : Text := '%' :: term ++ ['%']

/-- `page(n).per_page(9)`; page zero raises. -/
def page {α : Type} (n : Option Nat) (rows : List α) : Option (List α) :=
  match n.getD 1 with
  | 0 => none
  | i + 1 => some ((rows.drop (9 * i)).take 9)

/-- The loop over `search.hits`; a hit without a highlight raises. -/
def highlight : List Hit → Texts → Option Texts
  | [], ts => some ts
  | h :: hits, ts =>
    match h.highlight with
    | none => none
    | some v => highlight hits (ts.store h.primaryKey (some v))

end Search

namespace Database

/-- `step.project` -/
def projectOf (db : Database) (s : Step) : Option Project := s.projectId.bind db.projects.find?

end Database

namespace ApplicationController

open Search

/-- The title matches a pattern, as `ILIKE` compares them. -/
abbrev Ilike := Text → Text → Bool

/-- The loop over the results on steps; a step without a project raises. -/
def addProjects (db : Database) : List Project → List Step → Option (List Project)
  | projects, [] => some projects
  | projects, step :: steps =>
    match db.projectOf step with
    | none => none
    | some project => addProjects db (merge Project.isPublic projects [project]) steps

/-- The loop over the hits on steps. -/
def highlightSteps (db : Database) : List Hit → Texts → Option Texts
  | [], ts => some ts
  | h :: hits, ts =>
    match db.steps.find? h.primaryKey with
    | none => none
    | some step =>
      match db.projectOf step with
      | none => highlightSteps db hits ts
      | some project =>
        match h.highlight with
        | none => none
        | some v => highlightSteps db hits (ts.store project.id (some v))

/-- The projects that are found and the texts to show with them, unless the search raises. -/
def projectsSearch (ilike : Ilike) (term : Text) (n : Option Nat) (hits stepHits : List Hit) (db : Database) :
    Option (List Project × Texts) :=
  (page n (byUpdate Project.updatedAt (db.projects.rows.filter fun p =>
      p.isPublic && ilike p.title (searchString term)))).bind fun projects =>
    let texts := describe Project.description projects
    let projects := merge Project.isPublic projects (results db.projects hits)
    (addProjects db projects (results db.steps stepHits)).bind fun projects =>
      (highlight hits texts).bind fun texts =>
        (highlightSteps db stepHits texts).map fun texts => (projects, texts)

/-- The collections that are found and their texts; `description` is a column that has no other reader. -/
def collectionsSearch (ilike : Ilike) (description : Collection → Option Text) (term : Text) (hits : List Hit)
    (db : Database) : Option (List Collection × Texts) :=
  let collections := byUpdate Collection.updatedAt (db.collections.rows.filter fun k =>
    k.published == some true && ilike k.name (searchString term))
  let texts := describe description collections
  let collections := merge (fun _ => true) collections (results db.collections hits)
  (highlight hits texts).map fun texts => (collections, texts)

end ApplicationController

/-! ## What the loops do -/

namespace Search

/-- A loop that raises at the first element without an image collects all the images otherwise. -/
theorem mapM_eq_some {α β : Type} {f : α → Option β} {l : List α} {l' : List β} :
    l.mapM f = some l' ↔ (∀ a ∈ l, f a ≠ none) ∧ l' = l.filterMap f := by
  induction l generalizing l' with
  | nil => simp [eq_comm]
  | cons a l ih =>
    rw [List.mapM_cons, List.forall_mem_cons, List.filterMap_cons]
    cases f a with
    | none => simp
    | some b =>
      cases hl : l.mapM f with
      | none =>
        refine iff_of_false (fun h => by cases h) ?_
        rintro ⟨⟨-, hall⟩, -⟩
        have hsome := ih.mpr ⟨hall, rfl⟩
        rw [hl] at hsome
        cases hsome
      | some bs =>
        obtain ⟨hall, rfl⟩ := ih.mp hl
        show some (b :: l.filterMap f) = some l' ↔ _
        rw [Option.some_inj, eq_comm]
        exact (and_iff_right ⟨Option.some_ne_none b, hall⟩).symm

section Records

variable {α : Type} [Keyed α]

/-- Records that are listed at most once, all visible, with texts for nothing else. -/
structure OnlyVisible (t : Table α) (visible : α → Bool) (r : List α × Texts) : Prop where
  records : ∀ a ∈ r.1, a ∈ t.rows ∧ visible a = true
  once : (r.1.map key).Nodup
  texts : ∀ i ∈ r.2.keys, i ∈ r.1.map key

/-- A text tells that the record with its key is visible. -/
theorem OnlyVisible.of_key {t : Table α} {visible : α → Bool} {r : List α × Texts} (h : OnlyVisible t visible r)
    {i : Nat} (hi : i ∈ r.2.keys) : ∃ a, t.find? i = some a ∧ visible a = true := by
  obtain ⟨a, ha, rfl⟩ := List.mem_map.mp (h.texts i hi)
  obtain ⟨hrow, hvisible⟩ := h.records a ha
  exact ⟨a, Table.find?_of_mem hrow, hvisible⟩

variable {t : Table α} {shows : α → Bool} {listed found : List α} {hits : List Hit}

theorem mem_results {a : α} : a ∈ results t hits ↔ ∃ h ∈ hits, t.find? h.primaryKey = some a := List.mem_filterMap

theorem mem_rows_of_mem_results {a : α} (h : a ∈ results t hits) : a ∈ t.rows := by
  obtain ⟨_, -, ha⟩ := mem_results.mp h
  exact (Table.find?_eq_some.mp ha).1

theorem merge_cons (a : α) : merge shows listed (a :: found) = merge shows (merge shows listed [a]) found := by
  simp only [merge]
  split
  · rfl
  · split <;> rfl

theorem mem_merge (hlisted : ∀ a ∈ listed, a ∈ t.rows) (hfound : ∀ a ∈ found, a ∈ t.rows) {x : α} :
    x ∈ merge shows listed found ↔ x ∈ listed ∨ x ∈ found ∧ shows x = true := by
  induction found generalizing listed with
  | nil => simp [merge]
  | cons a found ih =>
    have ha := hfound a List.mem_cons_self
    have hrest : ∀ b ∈ found, b ∈ t.rows := fun b hb => hfound b (List.mem_cons_of_mem a hb)
    rw [merge]
    split
    · rename_i hany
      -- the record with this key is the record itself
      obtain ⟨b, hb, hkey⟩ := List.any_eq_true.mp hany
      have hin : a ∈ listed := Table.eq_of_key (hlisted b hb) ha (beq_iff_eq.mp hkey) ▸ hb
      rw [ih hlisted hrest, List.mem_cons, or_and_right]
      refine ⟨Or.imp_right Or.inr, ?_⟩
      rintro (h | ⟨rfl, -⟩ | h)
      · exact Or.inl h
      · exact Or.inl hin
      · exact Or.inr h
    · split
      · rename_i hshows
        have hmore : ∀ b ∈ listed ++ [a], b ∈ t.rows := by
          intro b hb
          rcases List.mem_append.mp hb with hb | hb
          · exact hlisted b hb
          · exact List.mem_singleton.mp hb ▸ ha
        rw [ih hmore hrest, List.mem_append, List.mem_singleton, List.mem_cons, or_and_right, or_assoc]
        refine or_congr_right (or_congr_left ⟨?_, And.left⟩)
        rintro rfl
        exact ⟨rfl, hshows⟩
      · rename_i hshows
        rw [ih hlisted hrest, List.mem_cons, or_and_right]
        refine or_congr_right (Iff.symm (or_iff_right ?_))
        rintro ⟨rfl, h⟩
        exact hshows h

theorem nodup_merge (h : (listed.map key).Nodup) : ((merge shows listed found).map key).Nodup := by
  induction found generalizing listed with
  | nil => exact h
  | cons a found ih =>
    rw [merge]
    split
    · exact ih h
    · rename_i hnew
      split
      · apply ih
        rw [List.map_append, List.nodup_append]
        refine ⟨h, List.nodup_singleton _, ?_⟩
        intro i hi j hj hij
        obtain ⟨b, hb, rfl⟩ := List.mem_map.mp hi
        rw [List.map_singleton, List.mem_singleton] at hj
        exact hnew (List.any_eq_true.mpr ⟨b, hb, beq_iff_eq.mpr (hij.trans hj)⟩)
      · exact ih h

theorem mem_keys_describe {description : α → Option Text} {i : Nat} :
    i ∈ (describe description listed).keys ↔ i ∈ listed.map key := by
  have hfold : ∀ ts : Texts, i ∈ (listed.foldl (fun ts a => ts.store (key a) (description a)) ts).keys ↔
      i ∈ listed.map key ∨ i ∈ ts.keys := by
    intro ts
    induction listed generalizing ts with
    | nil => simp
    | cons a listed ih =>
      rw [List.foldl_cons, ih, Texts.mem_keys_store, List.map_cons, List.mem_cons, or_left_comm, or_assoc]
  exact (hfold []).trans (or_iff_left List.not_mem_nil)

end Records

theorem mem_byUpdate {α : Type} {updatedAt : α → Nat} {listed : List α} {a : α} :
    a ∈ byUpdate updatedAt listed ↔ a ∈ listed := List.mem_insertionSort _

theorem isSome_page {α : Type} (n : Option Nat) (rows : List α) : (page n rows).isSome = true ↔ n ≠ some 0 := by
  rw [page]
  cases n with
  | none => simp
  | some n => cases n <;> simp

theorem sublist_of_page {α : Type} {n : Option Nat} {rows ps : List α} (h : page n rows = some ps) :
    ps.Sublist rows := by
  rw [page] at h
  split at h
  · cases h
  · obtain rfl := Option.some.inj h
    exact (List.take_sublist _ _).trans (List.drop_sublist _ _)

theorem isSome_highlight {hits : List Hit} (ts : Texts) :
    (highlight hits ts).isSome = true ↔ ∀ h ∈ hits, h.highlight ≠ none := by
  induction hits generalizing ts with
  | nil => simp [highlight]
  | cons h hits ih =>
    rw [highlight, List.forall_mem_cons]
    cases h.highlight with
    | none => simp
    | some v => exact (ih _).trans (and_iff_right (Option.some_ne_none v)).symm

theorem mem_keys_highlight {hits : List Hit} {ts ts' : Texts} (h : highlight hits ts = some ts') {i : Nat} :
    i ∈ ts'.keys ↔ i ∈ ts.keys ∨ ∃ h ∈ hits, h.primaryKey = i := by
  induction hits generalizing ts with
  | nil =>
    obtain rfl := Option.some.inj h
    simp
  | cons hit hits ih =>
    rw [highlight] at h
    cases hhighlight : hit.highlight with
    | none =>
      rw [hhighlight] at h
      cases h
    | some v =>
      rw [hhighlight] at h
      rw [ih h, Texts.mem_keys_store, List.exists_mem_cons_iff, or_comm (a := i = _), or_assoc, eq_comm (a := i)]

end Search

/-! ## What a search shows -/

namespace ApplicationController

open Search

variable {db : Database} {ilike : Ilike} {term : Text} {n : Option Nat} {hits stepHits : List Hit}

/-- The project of the step that a hit names. -/
def hitProject (db : Database) (h : Hit) : Option Project := (db.steps.find? h.primaryKey).bind db.projectOf

theorem mem_rows_of_hitProject {h : Hit} {p : Project} (hp : hitProject db h = some p) : p ∈ db.projects.rows := by
  obtain ⟨s, -, hp⟩ := Option.bind_eq_some_iff.mp hp
  obtain ⟨i, -, hp⟩ := Option.bind_eq_some_iff.mp hp
  exact (Table.find?_eq_some.mp hp).1

/-- The loop over the steps merges the list of their projects, when every step has one. -/
theorem addProjects_eq (projects : List Project) (steps : List Step) :
    addProjects db projects steps = (steps.mapM db.projectOf).map (merge Project.isPublic projects) := by
  induction steps generalizing projects with
  | nil => rfl
  | cons step steps ih =>
    rw [addProjects, List.mapM_cons]
    cases db.projectOf step with
    | none => rfl
    | some project =>
      show addProjects db _ steps = _
      rw [ih]
      cases steps.mapM db.projectOf with
      | none => rfl
      | some found => exact congrArg some (merge_cons project).symm

theorem isSome_highlightSteps {ts : Texts} (hproject : ∀ s ∈ results db.steps stepHits, db.projectOf s ≠ none) :
    (highlightSteps db stepHits ts).isSome = true ↔
      ∀ h ∈ stepHits, h.highlight ≠ none ∧ hitProject db h ≠ none := by
  induction stepHits generalizing ts with
  | nil => simp [highlightSteps]
  | cons h stepHits ih =>
    have hrest : ∀ s ∈ results db.steps stepHits, db.projectOf s ≠ none := by
      intro s hs
      obtain ⟨g, hg, hfound⟩ := mem_results.mp hs
      exact hproject s (mem_results.mpr ⟨g, List.mem_cons_of_mem h hg, hfound⟩)
    rw [highlightSteps, List.forall_mem_cons, hitProject]
    cases hstep : db.steps.find? h.primaryKey with
    | none => simp
    | some step =>
      have hown := hproject step (mem_results.mpr ⟨h, List.mem_cons_self, hstep⟩)
      cases hp : db.projectOf step with
      | none => exact absurd hp hown
      | some project =>
        cases h.highlight with
        | none => simp [hp]
        | some v => simpa [hp] using ih hrest

theorem mem_keys_highlightSteps {ts ts' : Texts} (h : highlightSteps db stepHits ts = some ts') {i : Nat} :
    i ∈ ts'.keys ↔ i ∈ ts.keys ∨ ∃ h ∈ stepHits, ∃ p, hitProject db h = some p ∧ p.id = i := by
  induction stepHits generalizing ts with
  | nil =>
    obtain rfl := Option.some.inj h
    simp
  | cons hit stepHits ih =>
    rw [highlightSteps] at h
    rw [List.exists_mem_cons_iff, hitProject]
    cases hstep : db.steps.find? hit.primaryKey with
    | none =>
      rw [hstep] at h
      cases h
    | some step =>
      simp only [hstep] at h
      rw [Option.bind_some]
      cases hp : db.projectOf step with
      | none =>
        simp only [hp] at h
        rw [ih h]
        simp
      | some project =>
        simp only [hp] at h
        cases hhighlight : hit.highlight with
        | none =>
          rw [hhighlight] at h
          cases h
        | some v =>
          rw [hhighlight] at h
          rw [ih h, Texts.mem_keys_store]
          simp only [Option.some.injEq, exists_eq_left', eq_comm (a := i)]
          rw [or_comm (a := project.id = i), or_assoc]

/-- The requests on which `projects_search` raises. -/
def ProjectsRaise (n : Option Nat) (hits stepHits : List Hit) (db : Database) : Prop :=
  n = some 0 ∨ (∃ h ∈ hits, h.highlight = none) ∨
    ∃ h ∈ stepHits, h.highlight = none ∨ hitProject db h = none

/-- The page of the titles that match. -/
def titlePage (ilike : Ilike) (term : Text) (n : Option Nat) (db : Database) : Option (List Project) :=
  page n (byUpdate Project.updatedAt (db.projects.rows.filter fun p =>
    p.isPublic && ilike p.title (searchString term)))

theorem titlePage_sound {ps : List Project} (h : titlePage ilike term n db = some ps) :
    (∀ p ∈ ps, p ∈ db.projects.rows ∧ p.isPublic = true) ∧ (ps.map key).Nodup := by
  have hsub := sublist_of_page h
  constructor
  · intro p hp
    obtain ⟨hrow, hmatch⟩ := List.mem_filter.mp (mem_byUpdate.mp (hsub.subset hp))
    exact ⟨hrow, (Bool.and_eq_true_iff.mp hmatch).1⟩
  · refine List.Nodup.sublist (hsub.map key) ?_
    have hperm := (List.perm_insertionSort (fun a b => Project.updatedAt b ≤ Project.updatedAt a)
      (db.projects.rows.filter fun p => p.isPublic && ilike p.title (searchString term))).map key
    exact hperm.nodup_iff.mpr (db.projects.nodup.sublist (List.filter_sublist.map key))

/-- What `projects_search` answers: the public ones of the projects found, and a text for every hit. -/
theorem projectsSearch_some {r : List Project × Texts}
    (h : projectsSearch ilike term n hits stepHits db = some r) :
    ∃ ps, titlePage ilike term n db = some ps ∧
      (∀ p, p ∈ r.1 ↔ p ∈ ps ∨ p ∈ results db.projects hits ∧ p.isPublic = true ∨
        (∃ h ∈ stepHits, hitProject db h = some p) ∧ p.isPublic = true) ∧
      (r.1.map key).Nodup ∧
      ∀ i, i ∈ r.2.keys ↔ i ∈ ps.map key ∨ (∃ h ∈ hits, h.primaryKey = i) ∨
        ∃ h ∈ stepHits, ∃ p, hitProject db h = some p ∧ p.id = i := by
  obtain ⟨ps, hps, h⟩ := Option.bind_eq_some_iff.mp h
  obtain ⟨projects, hprojects, h⟩ := Option.bind_eq_some_iff.mp h
  obtain ⟨ts, hts, h⟩ := Option.bind_eq_some_iff.mp h
  obtain ⟨ts', hts', rfl⟩ := Option.map_eq_some_iff.mp h
  obtain ⟨hpublic, hnodup⟩ := titlePage_sound hps
  rw [addProjects_eq] at hprojects
  obtain ⟨found, hfound, rfl⟩ := Option.map_eq_some_iff.mp hprojects
  -- the projects of the steps that were hit
  have hsteps : ∀ p, p ∈ found ↔ ∃ h ∈ stepHits, hitProject db h = some p := by
    intro p
    rw [(mapM_eq_some.mp hfound).2, List.mem_filterMap]
    constructor
    · rintro ⟨s, hs, hp⟩
      obtain ⟨h, hh, hs⟩ := mem_results.mp hs
      exact ⟨h, hh, Option.bind_eq_some_iff.mpr ⟨s, hs, hp⟩⟩
    · rintro ⟨h, hh, hp⟩
      obtain ⟨s, hs, hp⟩ := Option.bind_eq_some_iff.mp hp
      exact ⟨s, mem_results.mpr ⟨h, hh, hs⟩, hp⟩
  refine ⟨ps, hps, ?_, nodup_merge (nodup_merge hnodup), ?_⟩
  · intro p
    have hfirst : ∀ p ∈ merge Project.isPublic ps (results db.projects hits), p ∈ db.projects.rows := by
      intro p hp
      rcases (mem_merge (fun q hq => (hpublic q hq).1) fun q => mem_rows_of_mem_results).mp hp with hp | ⟨hp, -⟩
      · exact (hpublic p hp).1
      · exact mem_rows_of_mem_results hp
    have hsecond : ∀ p ∈ found, p ∈ db.projects.rows := by
      intro p hp
      obtain ⟨h, -, hp⟩ := (hsteps p).mp hp
      exact mem_rows_of_hitProject hp
    rw [mem_merge hfirst hsecond, mem_merge (fun q hq => (hpublic q hq).1) fun q => mem_rows_of_mem_results, hsteps,
      or_assoc]
  · intro i
    rw [mem_keys_highlightSteps hts', mem_keys_highlight hts, mem_keys_describe, or_assoc]

theorem isSome_projectsSearch (ilike : Ilike) (term : Text) :
    (projectsSearch ilike term n hits stepHits db).isSome = true ↔ ¬ ProjectsRaise n hits stepHits db := by
  have hraise : ¬ ProjectsRaise n hits stepHits db ↔ n ≠ some 0 ∧ (∀ h ∈ hits, h.highlight ≠ none) ∧
      ∀ h ∈ stepHits, h.highlight ≠ none ∧ hitProject db h ≠ none := by
    simp [ProjectsRaise]
  rw [hraise, ← isSome_page n (byUpdate Project.updatedAt (db.projects.rows.filter fun p =>
    p.isPublic && ilike p.title (searchString term))), projectsSearch]
  cases page n (byUpdate Project.updatedAt (db.projects.rows.filter fun p =>
    p.isPublic && ilike p.title (searchString term))) with
  | none => simp
  | some ps =>
    dsimp only [Option.bind_some]
    rw [addProjects_eq]
    cases hfound : (results db.steps stepHits).mapM db.projectOf with
    | none =>
      -- the step without a project is the record of one of the hits
      refine iff_of_false (fun h => by cases h) ?_
      rintro ⟨-, -, hall⟩
      have hproject : ∀ s ∈ results db.steps stepHits, db.projectOf s ≠ none := by
        intro s hs hnone
        obtain ⟨h, hh, hs⟩ := mem_results.mp hs
        refine (hall h hh).2 ?_
        rw [hitProject, hs, Option.bind_some, hnone]
      have hsome := mapM_eq_some.mpr ⟨hproject, rfl⟩
      rw [hfound] at hsome
      cases hsome
    | some found =>
      have hproject := (mapM_eq_some.mp hfound).1
      rw [Option.map_some, Option.bind_some, ← isSome_highlight (describe Project.description ps)]
      cases highlight hits (describe Project.description ps) with
      | none => simp
      | some ts =>
        rw [Option.bind_some, Option.isSome_map, isSome_highlightSteps hproject]
        simp

theorem collectionsSearch_some {description : Collection → Option Text} {r : List Collection × Texts}
    (h : collectionsSearch ilike description term hits db = some r) :
    ∃ ks : List Collection, (∀ k ∈ ks, k ∈ db.collections.rows ∧ k.published = some true) ∧
      (∀ k, k ∈ r.1 ↔ k ∈ ks ∨ k ∈ results db.collections hits) ∧ (r.1.map key).Nodup ∧
      ∀ i, i ∈ r.2.keys ↔ i ∈ ks.map key ∨ ∃ h ∈ hits, h.primaryKey = i := by
  obtain ⟨ts, hts, rfl⟩ := Option.map_eq_some_iff.mp h
  have hmatch : ∀ k ∈ byUpdate Collection.updatedAt (db.collections.rows.filter fun k =>
      k.published == some true && ilike k.name (searchString term)),
      k ∈ db.collections.rows ∧ k.published = some true := by
    intro k hk
    obtain ⟨hrow, hmatch⟩ := List.mem_filter.mp (mem_byUpdate.mp hk)
    exact ⟨hrow, beq_iff_eq.mp (Bool.and_eq_true_iff.mp hmatch).1⟩
  refine ⟨_, hmatch, ?_, nodup_merge ?_, ?_⟩
  · intro k
    rw [mem_merge (fun q hq => (hmatch q hq).1) fun q => mem_rows_of_mem_results, and_iff_left rfl]
  · exact ((List.perm_insertionSort _ _).map key).nodup_iff.mpr
      (db.collections.nodup.sublist (List.filter_sublist.map key))
  · intro i
    rw [mem_keys_highlight hts, mem_keys_describe]

theorem projectsSearch_onlyVisible_iff :
    (∀ r, projectsSearch ilike term n hits stepHits db = some r → OnlyVisible db.projects Project.isPublic r) ↔
      ProjectsRaise n hits stepHits db ∨
        (∀ h ∈ hits, ∃ p, db.projects.find? h.primaryKey = some p ∧ p.isPublic = true) ∧
          ∀ h ∈ stepHits, ∃ p, hitProject db h = some p ∧ p.isPublic = true := by
  by_cases hraise : ProjectsRaise n hits stepHits db
  · refine iff_of_true ?_ (Or.inl hraise)
    intro r hr
    have hsome := (isSome_projectsSearch ilike term).mp (Option.isSome_of_eq_some hr)
    exact absurd hraise hsome
  · rw [or_iff_right hraise]
    obtain ⟨r, hr⟩ := Option.isSome_iff_exists.mp ((isSome_projectsSearch ilike term).mpr hraise)
    obtain ⟨ps, hps, hlisted, hnodup, hkeys⟩ := projectsSearch_some hr
    obtain ⟨hpublic, -⟩ := titlePage_sound hps
    constructor
    · intro h
      have hvisible := h r hr
      -- a text stands under the key of every hit, so what the hit names must be visible
      refine ⟨fun hit hhit => hvisible.of_key ((hkeys _).mpr (Or.inr (Or.inl ⟨hit, hhit, rfl⟩))), ?_⟩
      intro hit hhit
      obtain ⟨p, hp⟩ := Option.ne_none_iff_exists'.mp fun hnone => hraise (Or.inr (Or.inr ⟨hit, hhit, Or.inr hnone⟩))
      obtain ⟨q, hq, hqpublic⟩ := hvisible.of_key ((hkeys _).mpr (Or.inr (Or.inr ⟨hit, hhit, p, hp, rfl⟩)))
      rw [show db.projects.find? p.id = some p from Table.find?_of_mem (mem_rows_of_hitProject hp)] at hq
      obtain rfl := Option.some.inj hq
      exact ⟨p, hp, hqpublic⟩
    · rintro ⟨hhits, hsteps⟩ r' hr'
      obtain rfl := Option.some.inj (hr.symm.trans hr')
      refine ⟨?_, hnodup, ?_⟩
      · intro p hp
        rcases (hlisted p).mp hp with hp | ⟨hp, hpub⟩ | ⟨⟨h, -, hp⟩, hpub⟩
        · exact hpublic p hp
        · exact ⟨mem_rows_of_mem_results hp, hpub⟩
        · exact ⟨mem_rows_of_hitProject hp, hpub⟩
      · intro i hi
        rcases (hkeys i).mp hi with hi | ⟨h, hh, rfl⟩ | ⟨h, hh, p, hp, rfl⟩
        · obtain ⟨p, hp, rfl⟩ := List.mem_map.mp hi
          exact List.mem_map.mpr ⟨p, (hlisted p).mpr (Or.inl hp), rfl⟩
        · obtain ⟨p, hp, hpub⟩ := hhits h hh
          refine List.mem_map.mpr ⟨p, (hlisted p).mpr (Or.inr (Or.inl ⟨?_, hpub⟩)), (Table.find?_eq_some.mp hp).2⟩
          exact mem_results.mpr ⟨h, hh, hp⟩
        · obtain ⟨q, hq, hpub⟩ := hsteps h hh
          obtain rfl := Option.some.inj (hp.symm.trans hq)
          exact List.mem_map.mpr ⟨p, (hlisted p).mpr (Or.inr (Or.inr ⟨⟨h, hh, hp⟩, hpub⟩)), rfl⟩

theorem collectionsSearch_onlyVisible_iff {description : Collection → Option Text} :
    (∀ r, collectionsSearch ilike description term hits db = some r →
        OnlyVisible db.collections (·.published == some true) r) ↔
      (∃ h ∈ hits, h.highlight = none) ∨
        ∀ h ∈ hits, ∃ k, db.collections.find? h.primaryKey = some k ∧ k.published = some true := by
  have hsome : (collectionsSearch ilike description term hits db).isSome = true ↔
      ∀ h ∈ hits, h.highlight ≠ none := by
    rw [collectionsSearch, Option.isSome_map, isSome_highlight]
  -- a hit without a highlight raises, and nothing is answered
  by_cases hraise : ∃ h ∈ hits, h.highlight = none
  · refine iff_of_true ?_ (Or.inl hraise)
    intro r hr
    obtain ⟨h, hh, hnone⟩ := hraise
    exact absurd hnone (hsome.mp (Option.isSome_of_eq_some hr) h hh)
  · rw [or_iff_right hraise]
    obtain ⟨r, hr⟩ := Option.isSome_iff_exists.mp (hsome.mpr fun h hh hnone => hraise ⟨h, hh, hnone⟩)
    obtain ⟨ks, hks, hlisted, hnodup, hkeys⟩ := collectionsSearch_some hr
    constructor
    · intro h hit hhit
      obtain ⟨k, hk, hpublished⟩ := (h r hr).of_key ((hkeys _).mpr (Or.inr ⟨hit, hhit, rfl⟩))
      exact ⟨k, hk, beq_iff_eq.mp hpublished⟩
    · intro hhits r' hr'
      obtain rfl := Option.some.inj (hr.symm.trans hr')
      refine ⟨?_, hnodup, ?_⟩
      · intro k hk
        rcases (hlisted k).mp hk with hk | hk
        · exact ⟨(hks k hk).1, beq_iff_eq.mpr (hks k hk).2⟩
        · obtain ⟨h, hh, hfound⟩ := mem_results.mp hk
          obtain ⟨k', hk', hpublished⟩ := hhits h hh
          obtain rfl := Option.some.inj (hk'.symm.trans hfound)
          exact ⟨mem_rows_of_mem_results hk, beq_iff_eq.mpr hpublished⟩
      · intro i hi
        rcases (hkeys i).mp hi with hi | ⟨h, hh, rfl⟩
        · obtain ⟨k, hk, rfl⟩ := List.mem_map.mp hi
          exact List.mem_map.mpr ⟨k, (hlisted k).mpr (Or.inl hk), rfl⟩
        · obtain ⟨k, hk, -⟩ := hhits h hh
          exact List.mem_map.mpr ⟨k, (hlisted k).mpr (Or.inr (mem_results.mpr ⟨h, hh, hk⟩)),
            (Table.find?_eq_some.mp hk).2⟩

/-- A search shows nothing that is hidden exactly when it raises or every hit names a record that may be shown. -/
theorem search_onlyVisible_iff (ilike : Ilike) (description : Collection → Option Text) (term : Text)
    (n : Option Nat) (hits stepHits collectionHits : List Hit) (db : Database) :
    ((∀ r, projectsSearch ilike term n hits stepHits db = some r → OnlyVisible db.projects Project.isPublic r) ∧
      ∀ r, collectionsSearch ilike description term collectionHits db = some r →
        OnlyVisible db.collections (·.published == some true) r) ↔
      (ProjectsRaise n hits stepHits db ∨
        (∀ h ∈ hits, ∃ p, db.projects.find? h.primaryKey = some p ∧ p.isPublic = true) ∧
          ∀ h ∈ stepHits, ∃ p, hitProject db h = some p ∧ p.isPublic = true) ∧
      ((∃ h ∈ collectionHits, h.highlight = none) ∨
        ∀ h ∈ collectionHits, ∃ k, db.collections.find? h.primaryKey = some k ∧ k.published = some true) :=
  and_congr projectsSearch_onlyVisible_iff collectionsSearch_onlyVisible_iff

/-- The index knows the description of a private project and of a collection that is not published. -/
theorem search_shows_hidden :
    let db : Database := { Database.oneProject "Lamp".toList (some "private".toList) with
      collections := .ofRows [⟨1, "Robots".toList, some 1, some false, some "private".toList, 0⟩] 2
        (by decide) }
    let hits : List Hit := [⟨1, some "a <b>secret</b> lamp".toList⟩]
    (∃ r, projectsSearch (fun _ _ => false) "secret".toList none hits [] db = some r ∧ r.1 = [] ∧
      r.2 = [(1, some "a <b>secret</b> lamp".toList)]) ∧
    ∃ r, collectionsSearch (fun _ _ => false) (fun _ => none) "secret".toList hits db = some r ∧
      r.1.map Collection.published = [some false] ∧ r.2 = [(1, some "a <b>secret</b> lamp".toList)] ∧
      ¬ OnlyVisible db.collections (·.published == some true) r := by
  refine ⟨⟨_, rfl, by decide, by decide⟩, _, rfl, by decide, by decide, ?_⟩
  intro h
  have hpublished := (h.records _ List.mem_cons_self).2
  revert hpublished
  decide

end ApplicationController
