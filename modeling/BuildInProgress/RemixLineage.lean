import BuildInProgress.ProjectAuthors
import BuildInProgress.RemixImages

/-!
# The lineage of remixes

`remix_ancestry` holds the projects a remix descends from, the original first.  `remix` writes it below
the project that is remixed, and the deletion of a project rewrites it in everything that descends from
that project.
-/

open Text Ancestry

namespace Database

/-- The remix ancestries as `remix` writes them: the ids on the way to a project, each of which is the way
to the project of that id as long as that project exists. -/
structure RemixPaths (db : Database) : Prop where
  rendered : ∀ r ∈ db.projects.rows, r.remixAncestry = none ∨ ∃ l, l ≠ [] ∧ r.remixAncestry = some (render l)
  known : ∀ r ∈ db.projects.rows, ∀ i ∈ ancestorIds r.remixAncestry, i < db.projects.next
  above : ∀ r ∈ db.projects.rows, ∀ q ∈ db.projects.rows, ∀ l m,
    ancestorIds r.remixAncestry = l ++ q.id :: m → ancestorIds q.remixAncestry = l

/-- Every project but `p` still has its ancestors without `p`, and is the same if `p` was none of them. -/
def LineageKept (db db' : Database) (p : Nat) : Prop :=
  ∀ r ∈ db.projects.rows, r.id ≠ p → ∃ r' ∈ db'.projects.rows, r'.id = r.id ∧
    ancestorIds r'.remixAncestry = (ancestorIds r.remixAncestry).filter (· ≠ p) ∧
    (p ∉ ancestorIds r.remixAncestry → r' = r)

end Database

namespace Ancestry

theorem childAncestry_eq_render {column : Option Text} (h : column = none ∨ ∃ l, l ≠ [] ∧ column = some (render l))
    (id : Nat) : childAncestry column id = render (ancestorIds column ++ [id]) := by
  rcases h with rfl | ⟨l, hl, rfl⟩
  · rw [ancestorIds_none, List.nil_append]
    exact childAncestry_blank rfl id
  · rw [ancestorIds_render, childAncestry_render hl]

end Ancestry

namespace Database.RemixPaths

variable {db : Database}

/-- A project is a descendant, as the gem asks for it, when the id is among its ancestors. -/
theorem descendant_iff (h : db.RemixPaths) {p r : Project} (hp : p ∈ db.projects.rows) (hr : r ∈ db.projects.rows) :
    descendant (childAncestry p.remixAncestry p.id) r.remixAncestry = true ↔
      p.id ∈ ancestorIds r.remixAncestry := by
  rw [childAncestry_eq_render (h.rendered p hp)]
  have hne : ancestorIds p.remixAncestry ++ [p.id] ≠ [] := by simp
  constructor
  · intro hd
    rcases h.rendered r hr with hnone | ⟨m, -, hm⟩
    · rw [hnone] at hd
      cases hd
    · rw [hm, descendant_render hne] at hd
      rw [hm, ancestorIds_render]
      exact hd.subset (by simp)
  · intro hmem
    obtain ⟨l, m, hsplit⟩ := List.append_of_mem hmem
    have habove := h.above r hr p hp l m hsplit
    rcases h.rendered r hr with hnone | ⟨k, -, hk⟩
    · rw [hnone, ancestorIds_none] at hmem
      cases hmem
    · rw [hk, ancestorIds_render] at hsplit
      rw [hk, descendant_render hne, habove, hsplit]
      exact ⟨m, by simp⟩

/-- No project is twice on one path. -/
theorem not_mem_twice (h : db.RemixPaths) {p r : Project} (hp : p ∈ db.projects.rows) (hr : r ∈ db.projects.rows)
    {l m : List Nat} (hsplit : ancestorIds r.remixAncestry = l ++ p.id :: m) : p.id ∉ l ∧ p.id ∉ m := by
  have hpath := h.above r hr p hp l m hsplit
  constructor
  · intro hmem
    obtain ⟨l₁, l₂, hl⟩ := List.append_of_mem hmem
    have hshort := h.above r hr p hp l₁ (l₂ ++ p.id :: m) (by rw [hsplit, hl, List.append_assoc, List.cons_append])
    have hlen := congrArg List.length ((hpath.symm.trans hshort).symm.trans hl)
    rw [List.length_append, List.length_cons] at hlen
    omega
  · intro hmem
    obtain ⟨m₁, m₂, hm⟩ := List.append_of_mem hmem
    have hlong := h.above r hr p hp (l ++ p.id :: m₁) m₂ (by rw [hsplit, hm, List.append_assoc, List.cons_append])
    have hlen := congrArg List.length (hpath.symm.trans hlong)
    rw [List.length_append, List.length_cons] at hlen
    omega

theorem notMem_own (h : db.RemixPaths) {p : Project} (hp : p ∈ db.projects.rows) :
    p.id ∉ ancestorIds p.remixAncestry := by
  intro hmem
  obtain ⟨l, m, hsplit⟩ := List.append_of_mem hmem
  have hpath := h.above p hp p hp l m hsplit
  have hlen := congrArg List.length (hpath.symm.trans hsplit)
  rw [List.length_append, List.length_cons] at hlen
  omega

end Database.RemixPaths

/-- A new project is a remix only when its lineage is submitted. -/
theorem ProjectsController.remixAncestry_newProject {now untitled i : Nat} {params : List ProjectAttr}
    (h : ∀ v, .remixAncestry v ∉ params) : (newProject now untitled params i).remixAncestry = none := by
  show (params.foldl ProjectAttr.assign blankProject).remixAncestry = none
  have hkept : ∀ (l : List ProjectAttr) (p : Project), (∀ v, .remixAncestry v ∉ l) →
      (l.foldl ProjectAttr.assign p).remixAncestry = p.remixAncestry := by
    intro l
    induction l with
    | nil => exact fun _ _ => rfl
    | cons a l ih =>
      intro p hl
      rw [List.foldl_cons, ih _ fun v hv => hl v (List.mem_cons_of_mem a hv)]
      cases a with
      | remixAncestry v => exact absurd List.mem_cons_self (hl v)
      | _ => rfl
  exact hkept params blankProject h

theorem List.filter_ne_of_notMem {l : List Nat} {i : Nat} (h : i ∉ l) : l.filter (· ≠ i) = l := by
  rw [List.filter_eq_self]
  intro j hj
  rw [decide_eq_true_eq]
  rintro rfl
  exact h hj

/-! ## Deleting a project -/

namespace ProjectsController

open Database

/-- The row of another project once the remixes of `project` have been moved. -/
def adoptedRemix (project r : Project) : Project :=
  if descendant (childAncestry project.remixAncestry project.id) r.remixAncestry then
    { r with remixAncestry := project.remixAncestry }
  else r

theorem adoptedRemix_id (project r : Project) : (adoptedRemix project r).id = r.id := by
  unfold adoptedRemix
  split
  · rfl
  · rfl

/-- A completed deletion moves the remixes and takes the project away. -/
theorem projects_destroy {u : User} {now i : Nat} {db : Database} (hok : (destroy u now i db).1 = .ok) :
    ∃ project, db.projects.find? i = some project ∧
      (destroy u now i db).2.projects.next = db.projects.next ∧
      (destroy u now i db).2.projects.rows = (db.projects.rows.map (adoptedRemix project)).filter (·.id ≠ i) := by
  obtain ⟨project, hproject, -, heq⟩ := destroy_ok hok
  have hforget : (forgetProject db u.id i).projects = db.projects :=
    touches_forgetProject db u.id i .projects (by decide)
  refine ⟨project, hproject, ?_⟩
  rw [heq, (destroyProject_tables _ now i).1, adoptRemixes]
  dsimp only
  rw [hforget]
  exact ⟨rfl, rfl⟩

theorem destroy_of_not_ok {u : User} {now i : Nat} {db : Database} (hno : (destroy u now i db).1 ≠ .ok) :
    (destroy u now i db).2 = db := by
  unfold destroy at hno ⊢
  cases hproject : db.projects.find? i with
  | none => rfl
  | some project =>
    rw [hproject] at hno
    dsimp only at hno ⊢
    rcases authorize_cases (some (Ability.destroyProject db u project)) db _ with ⟨-, heq⟩ | ⟨-, heq⟩
    · rw [heq] at hno
      exact absurd rfl hno
    · exact heq

end ProjectsController

namespace Database.RemixPaths

variable {db : Database} {project r : Project}

open ProjectsController

theorem adoptedRemix_of_notMem (h : db.RemixPaths) (hp : project ∈ db.projects.rows) (hr : r ∈ db.projects.rows)
    (hno : project.id ∉ ancestorIds r.remixAncestry) : adoptedRemix project r = r :=
  if_neg fun hd => hno ((h.descendant_iff hp hr).mp hd)

/-- The path of one project loses the deleted one and nothing else when it ends there. -/
theorem adoptedRemix_path_iff (h : db.RemixPaths) (hp : project ∈ db.projects.rows) (hr : r ∈ db.projects.rows)
    (hmem : project.id ∈ ancestorIds r.remixAncestry) :
    ancestorIds (adoptedRemix project r).remixAncestry = (ancestorIds r.remixAncestry).filter (· ≠ project.id) ↔
      (ancestorIds r.remixAncestry).getLast? = some project.id := by
  have hd := (h.descendant_iff hp hr).mpr hmem
  obtain ⟨l, m, hsplit⟩ := List.append_of_mem hmem
  obtain ⟨hl, hm⟩ := h.not_mem_twice hp hr hsplit
  have hfilter : (ancestorIds r.remixAncestry).filter (· ≠ project.id) = l ++ m := by
    rw [hsplit, List.filter_append, List.filter_ne_of_notMem hl, List.filter_cons_of_neg (by simp),
      List.filter_ne_of_notMem hm]
  -- the controller writes the path above the deleted project
  have hwritten : ancestorIds (adoptedRemix project r).remixAncestry = l := by
    rw [adoptedRemix, if_pos hd]
    exact h.above r hr project hp l m hsplit
  rw [hfilter, hwritten, hsplit]
  cases m with
  | nil => simp
  | cons i m =>
    refine iff_of_false (fun heq => ?_) fun hlast => ?_
    · have hlen := congrArg List.length heq
      rw [List.length_append, List.length_cons] at hlen
      omega
    · rw [List.getLast?_append, List.getLast?_cons_cons] at hlast
      obtain ⟨j, hj⟩ := Option.isSome_iff_exists.mp (List.getLast?_isSome.mpr (List.cons_ne_nil i m))
      rw [hj, Option.some_or] at hlast
      exact hm (Option.some.inj hlast ▸ List.mem_of_getLast? hj)

end Database.RemixPaths

/-- A deletion keeps the lineage of the remaining projects exactly when every project that has the deleted one
among its ancestors is a direct remix of it. -/
theorem lineage_kept_iff {db : Database} (h : db.RemixPaths) {u : User} {now p : Nat}
    (hok : (ProjectsController.destroy u now p db).1 = .ok) :
    db.LineageKept (ProjectsController.destroy u now p db).2 p ↔
      ∀ r ∈ db.projects.rows, p ∈ ancestorIds r.remixAncestry → (ancestorIds r.remixAncestry).getLast? = some p := by
  obtain ⟨project, hproject, -, hrows⟩ := ProjectsController.projects_destroy hok
  obtain ⟨hp, rfl⟩ := Table.find?_eq_some.mp hproject
  rw [Database.LineageKept]
  constructor
  · intro hkept r hr hmem
    have hne : r.id ≠ project.id := by
      intro heq
      have hrp : r = project := Table.eq_of_key hr hp heq
      subst hrp
      exact h.notMem_own hp hmem
    obtain ⟨r', hr', hid, hpath, -⟩ := hkept r hr hne
    rw [hrows] at hr'
    obtain ⟨q, hq, rfl⟩ := List.mem_map.mp (List.mem_filter.mp hr').1
    have hqr : q = r := Table.eq_of_key hq hr ((ProjectsController.adoptedRemix_id project q).symm.trans hid)
    subst hqr
    exact (h.adoptedRemix_path_iff hp hr hmem).mp hpath
  · intro hdirect r hr hne
    have hid := ProjectsController.adoptedRemix_id project r
    refine ⟨ProjectsController.adoptedRemix project r, ?_, hid, ?_, fun hno => h.adoptedRemix_of_notMem hp hr hno⟩
    · rw [hrows, List.mem_filter, decide_eq_true_eq, hid]
      exact ⟨List.mem_map_of_mem hr, hne⟩
    · by_cases hmem : project.id ∈ ancestorIds r.remixAncestry
      · exact (h.adoptedRemix_path_iff hp hr hmem).mpr (hdirect r hr hmem)
      · rw [h.adoptedRemix_of_notMem hp hr hmem]
        exact (List.filter_ne_of_notMem hmem).symm

/-! ## Runs -/

/-- The requests that write lineages. -/
inductive LineageRequest where
  | create (u : User) (now : Nat) (params : List ProjectAttr)
  | remix (u : User) (now p : Nat)
  | destroy (u : User) (now p : Nat)

namespace LineageRequest

def perform (db : Database) : LineageRequest → Database
  | create u now params => (ProjectsController.create u now params db).2
  | remix u now p => (db.remix u now p).2
  | destroy u now p => (ProjectsController.destroy u now p db).2

/-- No lineage is submitted with a new project. -/
def WithoutLineage : LineageRequest → Prop
  | create _ _ params => ∀ v, .remixAncestry v ∉ params
  | _ => True

end LineageRequest

namespace Database.RemixPaths

variable {db db' : Database}

/-- A new project that is no remix, or a remix of a project that exists. -/
theorem concat (h : db.RemixPaths) {x : Project} (hrows : db'.projects.rows = db.projects.rows ++ [x])
    (hnext : db'.projects.next = db.projects.next + 1) (hx : x.id = db.projects.next)
    (hpath : x.remixAncestry = none ∨
      ∃ p ∈ db.projects.rows, x.remixAncestry = some (childAncestry p.remixAncestry p.id)) : db'.RemixPaths := by
  have hids : ancestorIds x.remixAncestry = [] ∨
      ∃ p ∈ db.projects.rows, ancestorIds x.remixAncestry = ancestorIds p.remixAncestry ++ [p.id] := by
    rcases hpath with hnone | ⟨p, hp, hpath⟩
    · rw [hnone]
      exact Or.inl ancestorIds_none
    · rw [hpath, childAncestry_eq_render (h.rendered p hp), ancestorIds_render]
      exact Or.inr ⟨p, hp, rfl⟩
  have hbelow : ∀ i ∈ ancestorIds x.remixAncestry, i < db.projects.next := by
    intro i hi
    rcases hids with hnil | ⟨p, hp, heq⟩
    · rw [hnil] at hi
      cases hi
    · rw [heq] at hi
      rcases List.mem_append.mp hi with hmem | hlast
      · exact h.known p hp i hmem
      · rw [List.mem_singleton.mp hlast]
        exact (db.projects.bound p hp).2
  constructor
  · rw [hrows, List.forall_mem_append, List.forall_mem_singleton]
    refine ⟨h.rendered, ?_⟩
    rcases hpath with hnone | ⟨p, hp, hpath⟩
    · exact Or.inl hnone
    · rw [childAncestry_eq_render (h.rendered p hp)] at hpath
      exact Or.inr ⟨_, by simp, hpath⟩
  · rw [hrows, hnext, List.forall_mem_append, List.forall_mem_singleton]
    exact ⟨fun r hr i hi => Nat.lt_succ_of_lt (h.known r hr i hi), fun i hi => Nat.lt_succ_of_lt (hbelow i hi)⟩
  · rw [hrows]
    intro r hr q hq l m hsplit
    have hmem : q.id ∈ ancestorIds r.remixAncestry := by
      rw [hsplit]
      simp
    -- the new project is on no path yet
    have hq' : q ∈ db.projects.rows := by
      rcases List.mem_append.mp hq with hold | hnew
      · exact hold
      · have hlt : q.id < db.projects.next := by
          rcases List.mem_append.mp hr with hr | hr
          · exact h.known r hr _ hmem
          · rw [List.mem_singleton.mp hr] at hmem
            exact hbelow _ hmem
        rw [List.mem_singleton.mp hnew, hx] at hlt
        exact absurd hlt (Nat.lt_irrefl _)
    rcases List.mem_append.mp hr with hr | hr
    · exact h.above r hr q hq' l m hsplit
    · rw [List.mem_singleton.mp hr] at hsplit hmem
      rcases hids with hnil | ⟨p, hp, heq⟩
      · rw [hnil] at hmem
        cases hmem
      · rw [heq] at hsplit
        rcases List.eq_nil_or_concat m with rfl | ⟨m', j, rfl⟩
        · obtain ⟨hl, hpq⟩ := List.append_inj' hsplit rfl
          have hqp : q = p := Table.eq_of_key hq' hp (List.singleton_inj.mp hpq).symm
          rw [hqp, hl]
        · rw [List.concat_eq_append, ← List.cons_append, ← List.append_assoc] at hsplit
          exact h.above p hp q hq' l m' (List.append_inj' hsplit rfl).1

open ProjectsController in
theorem destroy (h : db.RemixPaths) (u : User) (now p : Nat) : (destroy u now p db).2.RemixPaths := by
  by_cases hok : (ProjectsController.destroy u now p db).1 = .ok
  · obtain ⟨project, hproject, hnext, hrows⟩ := projects_destroy hok
    obtain ⟨hp, rfl⟩ := Table.find?_eq_some.mp hproject
    have hold : ∀ r' ∈ (ProjectsController.destroy u now (Keyed.key project) db).2.projects.rows,
        ∃ r ∈ db.projects.rows, r' = adoptedRemix project r := by
      intro r' hr'
      rw [hrows] at hr'
      obtain ⟨r, hr, rfl⟩ := List.mem_map.mp (List.mem_filter.mp hr').1
      exact ⟨r, hr, rfl⟩
    -- a path is kept, or it becomes the one of the deleted project
    have hcases : ∀ r ∈ db.projects.rows, project.id ∉ ancestorIds r.remixAncestry ∧ adoptedRemix project r = r ∨
        (adoptedRemix project r).remixAncestry = project.remixAncestry := by
      intro r hr
      by_cases hmem : project.id ∈ ancestorIds r.remixAncestry
      · rw [adoptedRemix, if_pos ((h.descendant_iff hp hr).mpr hmem)]
        exact Or.inr rfl
      · exact Or.inl ⟨hmem, h.adoptedRemix_of_notMem hp hr hmem⟩
    constructor
    · intro r' hr'
      obtain ⟨r, hr, rfl⟩ := hold r' hr'
      rcases hcases r hr with ⟨-, hsame⟩ | hmoved
      · rw [hsame]
        exact h.rendered r hr
      · rw [hmoved]
        exact h.rendered project hp
    · intro r' hr'
      obtain ⟨r, hr, rfl⟩ := hold r' hr'
      rw [hnext]
      rcases hcases r hr with ⟨-, hsame⟩ | hmoved
      · rw [hsame]
        exact h.known r hr
      · rw [hmoved]
        exact h.known project hp
    · intro r' hr' q' hq' l m hsplit
      obtain ⟨r, hr, rfl⟩ := hold r' hr'
      obtain ⟨q, hq, rfl⟩ := hold q' hq'
      rw [adoptedRemix_id] at hsplit
      -- the path of `r` before or after: the deleted project is not on it
      have hpath : ∃ x ∈ db.projects.rows, ancestorIds x.remixAncestry = l ++ q.id :: m ∧
          project.id ∉ ancestorIds x.remixAncestry := by
        rcases hcases r hr with ⟨hno, hsame⟩ | hmoved
        · rw [hsame] at hsplit
          exact ⟨r, hr, hsplit, hno⟩
        · rw [hmoved] at hsplit
          exact ⟨project, hp, hsplit, h.notMem_own hp⟩
      obtain ⟨x, hx, hsplit, hno⟩ := hpath
      have habove := h.above x hx q hq l m hsplit
      rw [h.adoptedRemix_of_notMem hp hq]
      · exact habove
      · rw [habove]
        intro hmem
        rw [hsplit] at hno
        exact hno (List.mem_append_left _ hmem)
  · rw [destroy_of_not_ok hok]
    exact h

/-- Projects that are no remixes. -/
theorem of_none (h : ∀ r ∈ db.projects.rows, r.remixAncestry = none) : db.RemixPaths := by
  have hids : ∀ r ∈ db.projects.rows, ancestorIds r.remixAncestry = [] := by
    intro r hr
    rw [h r hr, ancestorIds_none]
  refine ⟨fun r hr => Or.inl (h r hr), fun r hr i hi => ?_, fun r hr q _ l m hsplit => ?_⟩
  · rw [hids r hr] at hi
    cases hi
  · rw [hids r hr] at hsplit
    simp at hsplit

theorem perform (h : db.RemixPaths) {r : LineageRequest} (hr : r.WithoutLineage) :
    (LineageRequest.perform db r).RemixPaths := by
  cases r with
  | create u now params =>
    rcases ProjectsController.saveNew_cases u now (ProjectsController.numUntitled db u) params db with
      ⟨-, heq⟩ | ⟨-, hrows, hnext, -, -⟩
    · rw [LineageRequest.perform, ProjectsController.create, heq]
      exact h
    · exact h.concat hrows hnext rfl (Or.inl (ProjectsController.remixAncestry_newProject hr))
  | remix u now p =>
    rcases db.remix_project u now p with heq | ⟨project, description, hproject, -, hrows, hnext, -, -⟩
    · rw [LineageRequest.perform, heq]
      exact h
    · exact h.concat hrows hnext rfl (Or.inr ⟨project, (Table.find?_eq_some.mp hproject).1, rfl⟩)
  | destroy u now p => exact h.destroy u now p

/-- Whatever is created, remixed and deleted, the lineages are paths. -/
theorem run (h : db.RemixPaths) {rs : List LineageRequest} (hrs : ∀ r ∈ rs, r.WithoutLineage) :
    (Run.after LineageRequest.perform db rs).RemixPaths :=
  Run.invariant (fun _ _ h hr => h.perform hr) h (Run.Along.of_forall hrs)

end Database.RemixPaths

namespace Database

instance (db db' : Database) (p : Nat) : Decidable (db.LineageKept db' p) :=
  inferInstanceAs (Decidable (∀ r ∈ db.projects.rows, r.id ≠ p → ∃ r' ∈ db'.projects.rows, r'.id = r.id ∧
    ancestorIds r'.remixAncestry = (ancestorIds r.remixAncestry).filter (· ≠ p) ∧
    (p ∉ ancestorIds r.remixAncestry → r' = r)))

/-- A lamp, its remix, and the remix of the remix. -/
def remixedTwice : Database :=
  Run.after LineageRequest.perform (oneProject "Lamp".toList (some "public".toList)) [.remix ada 2 1, .remix ada 3 2]

theorem remixPaths_remixedTwice : remixedTwice.RemixPaths :=
  (RemixPaths.of_none (by decide)).run (by simp [LineageRequest.WithoutLineage])

end Database

theorem lineage_kept_remixedTwice :
    Database.remixedTwice.LineageKept (ProjectsController.destroy ada 4 2 .remixedTwice).2 2 :=
  (lineage_kept_iff Database.remixPaths_remixedTwice (by decide +kernel)).mpr (by decide +kernel)

/-- With the original, the remix of the remix loses the project it was made from. -/
theorem intermediate_remix_forgotten :
    Database.remixedTwice.RemixPaths ∧ (ProjectsController.destroy ada 4 1 .remixedTwice).1 = .ok ∧
      ¬ Database.remixedTwice.LineageKept (ProjectsController.destroy ada 4 1 .remixedTwice).2 1 :=
  ⟨Database.remixPaths_remixedTwice, by decide +kernel, by decide +kernel⟩
