import BuildInProgress.Lib.Interleaving
import BuildInProgress.ProjectsController

/-!
# The categories of projects

`categorize` of `app/controllers/projects_controller.rb` and what else writes `categorizations`.  The action handles
its six boxes one after the other, looks whether the project is in the category and then adds or removes a row,
without a transaction.  Requests that run one after the other leave what the last one asked for; requests that
interleave leave what all of them agree on.
-/

open Text

/-- `categories` -/
structure Category where
  id : Nat
  name : Option Text
  deriving DecidableEq, Repr

/-- `categorizations` -/
structure Categorization where
  id : Nat
  categoryId : Nat
  projectId : Nat
  deriving DecidableEq, Repr

instance : Keyed Category := ⟨Category.id⟩
instance : Keyed Categorization := ⟨Categorization.id⟩

/-- The database with the tables of the categories. -/
structure Categorized where
  db : Database
  categories : Table Category
  categorizations : Table Categorization

/-- The boxes of the form, in the order in which `categorize` handles them. -/
inductive CategoryBox where
  | artsAndCrafts | clothing | cooking | electronics | mechanical | other
  deriving DecidableEq, Repr

namespace CategoryBox

/-- The name under which the category is looked up. -/
def name : CategoryBox → Text
  | artsAndCrafts => "Arts & Crafts".toList
  | clothing => "Clothing".toList
  | cooking => "Cooking".toList
  | electronics => "Electronics".toList
  | mechanical => "Mechanical".toList
  | other => "Other".toList

def all : List CategoryBox := [artsAndCrafts, clothing, cooking, electronics, mechanical, other]

theorem mem_all (b : CategoryBox) : b ∈ all := by cases b <;> decide

theorem name_inj {b b' : CategoryBox} (h : b.name = b'.name) : b = b' := by
  revert h
  cases b <;> cases b' <;> decide

end CategoryBox

/-- `can :categorize, Project` -/
def Ability.categorize (db : Database) (u : User) (p : Project) : Bool := db.author p.id u.id

namespace Categorized

/-- `Category.where(:name => name).first` -/
def categoryNamed (s : Categorized) (name : Text) : Option Category := s.categories.rows.find? (·.name = some name)

/-- `Categorization.where("category_id = ? AND project_id = ?", c, p).first` -/
def categorizationOf (s : Categorized) (c p : Nat) : Option Categorization :=
  s.categorizations.rows.find? fun k => k.categoryId = c ∧ k.projectId = p

/-- `project.categories.include? category`, which joins the two tables.  Nil is not included. -/
def includesCategory (s : Categorized) (p : Nat) (category : Option Category) : Bool :=
  category.any fun c => (s.categories.find? c.id).isSome && (s.categorizationOf c.id p).isSome

theorem key_categorization (c p i : Nat) : Keyed.key (⟨i, c, p⟩ : Categorization) = i := rfl

/-- `category.categorizations.create!`; the index on both columns is unique. -/
def createCategorization (s : Categorized) (c p : Nat) : Option Categorized :=
  if (s.categorizationOf c p).isSome then none
  else some { s with categorizations := s.categorizations.insert (fun i => ⟨i, c, p⟩) (key_categorization c p) }

/-- `categorization.destroy` -/
def destroyCategorization (s : Categorized) (k : Categorization) : Categorized :=
  { s with categorizations := s.categorizations.filter (·.id ≠ k.id) }

end Categorized

namespace ProjectsController

/-- `params[box] == "1"` -/
def ticked (params : CategoryBox → Option Text) (b : CategoryBox) : Bool := params b == some ['1']

/-- The `if` of one box; the flag says that it did not raise. -/
def categorizeBox (p : Nat) (s : Categorized) (box : Bool × Option Category) : Bool × Categorized :=
  if box.1 && !s.includesCategory p box.2 then
    match box.2.bind fun c => s.createCategorization c.id p with
    | none => (false, s)
    | some s' => (true, s')
  else if !box.1 && s.includesCategory p box.2 then
    match box.2.bind fun c => s.categorizationOf c.id p with
    | none => (false, s)
    | some k => (true, s.destroyCategorization k)
  else (true, s)

/-- `POST /projects/:id/categorize` -/
def categorize (u : User) (i : Nat) (params : CategoryBox → Option Text) (s : Categorized) : Outcome × Categorized :=
  match s.db.projects.find? i with
  | none => (.notFound, s)
  | some project =>
    if Ability.categorize s.db u project then
      let boxes := CategoryBox.all.map fun b => (ticked params b, s.categoryNamed b.name)
      let (done, s) := Run.each (categorizeBox i) s boxes
      (if done then .ok else .error, s)
    else (.denied, s)

end ProjectsController

namespace CategoriesController

/-- `DELETE /categories/:id`, which asks for no permission.  Without a user the redirection of a page raises, when the
category is gone. -/
def destroy (viewer : Option User) (json : Bool) (i : Nat) (s : Categorized) : Outcome × Categorized :=
  match s.categories.find? i with
  | none => (.notFound, s)
  | some _ =>
    (if json || viewer.isSome then .ok else .error,
      { s with
        categories := s.categories.filter (·.id ≠ i)
        categorizations := s.categorizations.filter (·.categoryId ≠ i) })

end CategoriesController

/-! ## Rows -/

namespace Categorized

variable {s : Categorized} {c p : Nat} {b : CategoryBox}

/-- The project `p` has a row for the category `c`. -/
def Member (s : Categorized) (c p : Nat) : Prop := ∃ k ∈ s.categorizations.rows, k.categoryId = c ∧ k.projectId = p

/-- The project is in the category of the box. -/
def InCategory (s : Categorized) (p : Nat) (b : CategoryBox) : Prop :=
  ∃ c, s.categoryNamed b.name = some c ∧ s.Member c.id p

/-- No two categories have one name, no two rows one category and project, and every row has its category. -/
structure Indexed (s : Categorized) : Prop where
  names : (s.categories.rows.map Category.name).Nodup
  unique : ∀ k ∈ s.categorizations.rows, ∀ k' ∈ s.categorizations.rows, k.categoryId = k'.categoryId →
    k.projectId = k'.projectId → k = k'
  category : ∀ k ∈ s.categorizations.rows, (s.categories.find? k.categoryId).isSome = true

theorem isSome_categorizationOf : (s.categorizationOf c p).isSome = true ↔ s.Member c p := by
  rw [categorizationOf, List.find?_isSome]
  simp only [decide_eq_true_eq]
  exact Iff.rfl

theorem categorizationOf_eq_some {k : Categorization} (h : s.categorizationOf c p = some k) :
    k ∈ s.categorizations.rows ∧ k.categoryId = c ∧ k.projectId = p :=
  ⟨List.mem_of_find?_eq_some h, by simpa using List.find?_some h⟩

theorem categoryNamed_eq_some {name : Text} {category : Category} (h : s.categoryNamed name = some category) :
    category ∈ s.categories.rows ∧ category.name = some name :=
  ⟨List.mem_of_find?_eq_some h, by simpa using List.find?_some h⟩

/-- For a category that was found by its name, only the row is asked for. -/
theorem includesCategory_iff {name : Text} :
    s.includesCategory p (s.categoryNamed name) = true ↔ ∃ c, s.categoryNamed name = some c ∧ s.Member c.id p := by
  rw [includesCategory, Option.any_eq_true]
  apply exists_congr
  intro c
  apply and_congr_right
  intro hc
  have hfound : s.categories.find? c.id = some c := Table.find?_of_mem (categoryNamed_eq_some hc).1
  rw [hfound, Option.isSome_some, Bool.true_and, isSome_categorizationOf]

theorem includesCategory_box : s.includesCategory p (s.categoryNamed b.name) = true ↔ s.InCategory p b :=
  includesCategory_iff

/-- What a row that comes in changes. -/
theorem createCategorization_cases {s' : Categorized} (h : s.createCategorization c p = some s') :
    ¬ s.Member c p ∧ s'.db = s.db ∧ s'.categories = s.categories ∧
      s'.categorizations.next = s.categorizations.next + 1 ∧
      s'.categorizations.rows = s.categorizations.rows ++ [⟨s.categorizations.next, c, p⟩] := by
  rw [createCategorization] at h
  split at h
  · cases h
  · rename_i hno
    obtain rfl := Option.some.inj h
    exact ⟨fun hm => hno (isSome_categorizationOf.mpr hm), rfl, rfl, rfl, rfl⟩

theorem createCategorization_of_not_member (h : ¬ s.Member c p) : ∃ s', s.createCategorization c p = some s' :=
  ⟨_, if_neg fun hm => h (isSome_categorizationOf.mp hm)⟩

theorem member_create {s' : Categorized} (h : s.createCategorization c p = some s') (c' p' : Nat) :
    s'.Member c' p' ↔ s.Member c' p' ∨ c = c' ∧ p = p' := by
  obtain ⟨-, -, -, -, hrows⟩ := createCategorization_cases h
  rw [Member, hrows]
  constructor
  · rintro ⟨k, hk, hpair⟩
    rcases List.mem_append.mp hk with hold | hnew
    · exact Or.inl ⟨k, hold, hpair⟩
    · rw [List.mem_singleton.mp hnew] at hpair
      exact Or.inr hpair
  · rintro (⟨k, hk, hpair⟩ | hpair)
    · exact ⟨k, List.mem_append_left _ hk, hpair⟩
    · exact ⟨_, List.mem_append_right _ (List.mem_singleton_self _), hpair⟩

theorem Indexed.create (h : s.Indexed) {s' : Categorized} (hs : s.createCategorization c p = some s')
    (hc : (s.categories.find? c).isSome = true) : s'.Indexed := by
  obtain ⟨hno, -, hcategories, -, hrows⟩ := createCategorization_cases hs
  have hnew : ∀ k ∈ s.categorizations.rows, ¬ (k.categoryId = c ∧ k.projectId = p) :=
    fun k hk hpair => hno ⟨k, hk, hpair⟩
  refine ⟨hcategories ▸ h.names, ?_, ?_⟩
  · intro k hk k' hk' hcat hproject
    rw [hrows, List.mem_append, List.mem_singleton] at hk hk'
    rcases hk with hk | rfl <;> rcases hk' with hk' | rfl
    · exact h.unique k hk k' hk' hcat hproject
    · exact absurd ⟨hcat, hproject⟩ (hnew k hk)
    · exact absurd ⟨hcat.symm, hproject.symm⟩ (hnew k' hk')
    · rfl
  · intro k hk
    rw [hcategories]
    rw [hrows, List.mem_append, List.mem_singleton] at hk
    rcases hk with hk | rfl
    · exact h.category k hk
    · exact hc

/-- Rows that go leave the others. -/
theorem Indexed.filter (h : s.Indexed) {s' : Categorized} (hcategories : s'.categories = s.categories)
    {keep : Categorization → Bool} (hrows : s'.categorizations.rows = s.categorizations.rows.filter keep) :
    s'.Indexed := by
  have hsub : ∀ k ∈ s'.categorizations.rows, k ∈ s.categorizations.rows :=
    fun k hk => List.mem_of_mem_filter (hrows ▸ hk)
  refine ⟨hcategories ▸ h.names, ?_, fun k hk => hcategories ▸ h.category k (hsub k hk)⟩
  exact fun k hk k' hk' => h.unique k (hsub k hk) k' (hsub k' hk')

theorem Indexed.destroyCategorization (h : s.Indexed) (k : Categorization) : (s.destroyCategorization k).Indexed :=
  h.filter rfl rfl

/-- A destruction takes one pair away, when no other row has its id or its pair. -/
theorem member_destroy {k : Categorization} (hid : ∀ k' ∈ s.categorizations.rows, k'.id = k.id → k' = k)
    (hpair : ∀ k' ∈ s.categorizations.rows, k'.categoryId = k.categoryId → k'.projectId = k.projectId → k' = k)
    (c' p' : Nat) :
    (s.destroyCategorization k).Member c' p' ↔ s.Member c' p' ∧ ¬ (k.categoryId = c' ∧ k.projectId = p') := by
  constructor
  · rintro ⟨k', hk', hcat, hproject⟩
    obtain ⟨hmem, hne⟩ := List.mem_filter.mp hk'
    refine ⟨⟨k', hmem, hcat, hproject⟩, fun hk => ?_⟩
    rw [hpair k' hmem (hcat.trans hk.1.symm) (hproject.trans hk.2.symm)] at hne
    simp at hne
  · rintro ⟨⟨k', hmem, hcat, hproject⟩, hno⟩
    refine ⟨k', List.mem_filter.mpr ⟨hmem, ?_⟩, hcat, hproject⟩
    rw [decide_eq_true_eq]
    intro heq
    rw [hid k' hmem heq] at hcat hproject
    exact hno ⟨hcat, hproject⟩

/-- Two boxes name two categories. -/
theorem box_inj {b' : CategoryBox} {k k' : Category} (hk : s.categoryNamed b.name = some k)
    (hk' : s.categoryNamed b'.name = some k') (hid : k.id = k'.id) : b = b' := by
  obtain ⟨hmem, hname⟩ := categoryNamed_eq_some hk
  obtain ⟨hmem', hname'⟩ := categoryNamed_eq_some hk'
  rw [Table.eq_of_key hmem hmem' hid, hname', Option.some.injEq] at hname
  exact CategoryBox.name_inj hname.symm

/-- What handling the box `b` of a request for the project `p` answers and leaves: the project is in its category
exactly if the box is ticked. -/
structure BoxHandled (p : Nat) (b : CategoryBox) (asked : Bool) (s : Categorized) (r : Bool × Categorized) : Prop where
  done : r.1 = true ↔ (asked = true → (s.categoryNamed b.name).isSome = true)
  db : r.2.db = s.db
  categories : r.2.categories = s.categories
  indexed : r.2.Indexed
  member : ∀ c' p', r.2.Member c' p' ↔
    if (s.categoryNamed b.name).map Category.id = some c' ∧ p = p' then asked = true else s.Member c' p'

/-- Nothing is written for a box that has no category, or agrees with the table. -/
theorem BoxHandled.keep (h : s.Indexed) {asked done : Bool}
    (hdone : done = true ↔ (asked = true → (s.categoryNamed b.name).isSome = true))
    (hsame : ∀ c, s.categoryNamed b.name = some c → (s.Member c.id p ↔ asked = true)) :
    BoxHandled p b asked s (done, s) := by
  refine ⟨hdone, rfl, rfl, h, fun c' p' => ?_⟩
  split
  · rename_i hpair
    obtain ⟨c, hc, rfl⟩ := Option.map_eq_some_iff.mp hpair.1
    rw [← hpair.2]
    exact hsame c hc
  · exact Iff.rfl

theorem BoxHandled.create (h : s.Indexed) {c : Category} (hc : s.categoryNamed b.name = some c) {s' : Categorized}
    (hs : s.createCategorization c.id p = some s') : BoxHandled p b true s (true, s') := by
  obtain ⟨-, hdb, hcategories, -, -⟩ := createCategorization_cases hs
  have hfind : s.categories.find? c.id = some c := Table.find?_of_mem (categoryNamed_eq_some hc).1
  have hfound : (s.categories.find? c.id).isSome = true := by
    rw [hfind]
    rfl
  refine ⟨by simp [hc], hdb, hcategories, h.create hs hfound, fun c' p' => ?_⟩
  rw [member_create hs, hc]
  simp only [Option.map_some, Option.some.injEq]
  split <;> simp_all

theorem BoxHandled.destroy (h : s.Indexed) {c : Category} (hc : s.categoryNamed b.name = some c) {k : Categorization}
    (hk : s.categorizationOf c.id p = some k) : BoxHandled p b false s (true, s.destroyCategorization k) := by
  obtain ⟨hrow, hcat, hproject⟩ := categorizationOf_eq_some hk
  refine ⟨by simp, rfl, rfl, h.destroyCategorization k, fun c' p' => ?_⟩
  rw [member_destroy (fun k' hk' => Table.eq_of_key hk' hrow) (fun k' hk' => h.unique k' hk' k hrow), hcat, hproject, hc]
  simp only [Option.map_some, Option.some.injEq]
  split <;> simp_all

theorem categorizeBox_spec (h : s.Indexed) (p : Nat) (b : CategoryBox) (asked : Bool) :
    BoxHandled p b asked s (ProjectsController.categorizeBox p s (asked, s.categoryNamed b.name)) := by
  rw [ProjectsController.categorizeBox]
  cases hc : s.categoryNamed b.name with
  | none =>
    have hno : s.includesCategory p none = false := rfl
    have hsame : ∀ c, s.categoryNamed b.name = some c → (s.Member c.id p ↔ asked = true) := fun c hsome => by
      rw [hc] at hsome
      cases hsome
    cases asked with
    | true =>
      rw [if_pos (by rw [hno]; rfl)]
      exact .keep h (by simp [hc]) hsame
    | false =>
      rw [if_neg (by simp), if_neg (by rw [hno]; simp)]
      exact .keep h (by simp) hsame
  | some c =>
    have hin : s.includesCategory p (some c) = true ↔ s.Member c.id p := by
      have hiff := @includesCategory_iff s p b.name
      rw [hc] at hiff
      exact hiff.trans (by simp)
    by_cases hmem : s.Member c.id p
    · have hinc := hin.mpr hmem
      cases asked with
      | true =>
        rw [if_neg (by rw [hinc]; simp), if_neg (by simp)]
        refine .keep h (by simp [hc]) fun c' hc' => ?_
        rw [← Option.some.inj (hc.symm.trans hc')]
        exact iff_of_true hmem rfl
      | false =>
        obtain ⟨k, hk⟩ := Option.isSome_iff_exists.mp (isSome_categorizationOf.mpr hmem)
        rw [if_neg (by simp), if_pos (by rw [hinc]; rfl), Option.bind_some, hk]
        exact .destroy h hc hk
    · have hinc : s.includesCategory p (some c) = false := by
        rw [← Bool.not_eq_true, hin]
        exact hmem
      cases asked with
      | true =>
        obtain ⟨s', hs'⟩ := createCategorization_of_not_member hmem
        rw [if_pos (by rw [hinc]; rfl), Option.bind_some, hs']
        exact .create h hc hs'
      | false =>
        rw [if_neg (by simp), if_neg (by rw [hinc]; simp)]
        refine .keep h (by simp) fun c' hc' => ?_
        rw [← Option.some.inj (hc.symm.trans hc')]
        exact iff_of_false hmem (by simp)

/-! ## A request as a whole -/

section Request

open ProjectsController

variable {params : CategoryBox → Option Text}

/-- The box can be handled: it is not ticked, or there is its category. -/
def handles (s : Categorized) (params : CategoryBox → Option Text) (b : CategoryBox) : Bool :=
  !ticked params b || (s.categoryNamed b.name).isSome

/-- The loop handles the boxes up to the first one that is ticked without a category. -/
theorem each_boxes (h : s.Indexed) {boxes : List CategoryBox} (hn : boxes.Nodup) :
    let r := Run.each (categorizeBox p) s (boxes.map fun b => (ticked params b, s.categoryNamed b.name))
    let handled := boxes.takeWhile (s.handles params)
    (r.1 = true ↔ handled = boxes) ∧ r.2.db = s.db ∧ r.2.categories = s.categories ∧ r.2.Indexed ∧
      (∀ c' p', p ≠ p' → (r.2.Member c' p' ↔ s.Member c' p')) ∧
      ∀ b c, s.categoryNamed b.name = some c →
        (r.2.Member c.id p ↔ if b ∈ handled then ticked params b = true else s.Member c.id p) := by
  induction boxes generalizing s with
  | nil => exact ⟨iff_of_true rfl rfl, rfl, rfl, h, fun _ _ _ => Iff.rfl, fun _ _ _ => Iff.rfl⟩
  | cons b boxes ih =>
    obtain ⟨hnot, hn⟩ := List.nodup_cons.mp hn
    obtain ⟨hdone, hdb, hcategories, hindexed, hmember⟩ := categorizeBox_spec h p b (ticked params b)
    generalize hr : categorizeBox p s (ticked params b, s.categoryNamed b.name) = r
      at hdone hdb hcategories hindexed hmember
    have hhandles : s.handles params b = true ↔ r.1 = true := by
      rw [hdone, handles, Bool.or_eq_true, Bool.not_eq_true', ← Bool.not_eq_true, ← imp_iff_not_or]
    have hnamed : ∀ b : CategoryBox, r.2.categoryNamed b.name = s.categoryNamed b.name := by
      intro b
      rw [categoryNamed, hcategories]
      rfl
    rw [List.map_cons, Run.each, hr, List.takeWhile_cons]
    by_cases hok : r.1 = true
    · rw [if_pos hok, if_pos (hhandles.mpr hok)]
      have hrest := ih hindexed hn
      have hsame : r.2.handles params = s.handles params := by
        funext b
        rw [handles, handles, hnamed]
      simp only [hnamed, hsame] at hrest
      obtain ⟨hend, hdb', hcategories', hindexed', hothers, hboxes⟩ := hrest
      refine ⟨by rw [hend, List.cons.injEq, and_iff_right rfl], hdb'.trans hdb, hcategories'.trans hcategories,
        hindexed', ?_, ?_⟩
      · intro c' p' hne
        rw [hothers c' p' hne, hmember, if_neg fun hc => hne hc.2]
      · intro b' c hc
        rw [hboxes b' c hc, hmember]
        by_cases hbb : b' = b
        · have hnotin : b ∉ boxes.takeWhile (s.handles params) :=
            fun hin => hnot ((List.takeWhile_sublist _).subset hin)
          rw [hbb] at hc ⊢
          rw [if_neg hnotin, if_pos ⟨by rw [hc]; rfl, rfl⟩, if_pos List.mem_cons_self]
        · have hother : ¬ ((s.categoryNamed b.name).map Category.id = some c.id ∧ p = p) := by
            rintro ⟨hid, -⟩
            obtain ⟨c', hc', hid⟩ := Option.map_eq_some_iff.mp hid
            exact hbb (box_inj hc hc' hid.symm)
          rw [if_neg hother]
          simp only [List.mem_cons, hbb, false_or]
    · rw [if_neg hok, if_neg fun hc => hok (hhandles.mp hc)]
      refine ⟨iff_of_false hok (by simp), hdb, hcategories, hindexed, ?_, ?_⟩
      · intro c' p' hne
        rw [hmember, if_neg fun hc => hne hc.2]
      · intro b' c hc
        have hstuck : s.categoryNamed b.name = none := by
          cases hb : s.categoryNamed b.name with
          | none => rfl
          | some c => exact absurd (hdone.mpr fun _ => by rw [hb]; rfl) hok
        rw [hmember, hstuck, if_neg (by simp), if_neg List.not_mem_nil]

theorem handled_eq_all : CategoryBox.all.takeWhile (s.handles params) = CategoryBox.all ↔
    ∀ b, ticked params b = true → (s.categoryNamed b.name).isSome = true := by
  rw [List.takeWhile_eq_self_iff]
  constructor
  · intro hall b hb
    have hhandles := hall b b.mem_all
    rw [handles, hb] at hhandles
    exact hhandles
  · intro hall b _
    rw [handles, Bool.or_eq_true, Bool.not_eq_true', ← Bool.not_eq_true, ← imp_iff_not_or]
    exact hall b

/-- What a request does: nothing without the project or as somebody else, and otherwise what the loop does. -/
theorem categorize_cases (u : User) (p : Nat) (params : CategoryBox → Option Text) (s : Categorized) :
    (s.db.projects.find? p = none ∧ categorize u p params s = (.notFound, s)) ∨
      ∃ project, s.db.projects.find? p = some project ∧
        (Ability.categorize s.db u project = false ∧ categorize u p params s = (.denied, s) ∨
          Ability.categorize s.db u project = true ∧
            let r := Run.each (categorizeBox p) s
              (CategoryBox.all.map fun b => (ticked params b, s.categoryNamed b.name))
            categorize u p params s = (if r.1 then .ok else .error, r.2)) := by
  rw [categorize]
  cases hproject : s.db.projects.find? p with
  | none => exact Or.inl ⟨rfl, rfl⟩
  | some project =>
    refine Or.inr ⟨project, rfl, ?_⟩
    cases hauthor : Ability.categorize s.db u project with
    | false => exact Or.inl ⟨rfl, if_neg (by rw [hauthor]; simp)⟩
    | true => exact Or.inr ⟨rfl, if_pos hauthor⟩

/-- When a request comes to its end, and where the project is then. -/
structure Answered (u : User) (p : Nat) (params : CategoryBox → Option Text) (s : Categorized)
    (r : Outcome × Categorized) : Prop where
  ok : r.1 = .ok ↔ (∃ project, s.db.projects.find? p = some project ∧ Ability.categorize s.db u project = true) ∧
    ∀ b, ticked params b = true → (s.categoryNamed b.name).isSome = true
  indexed : r.2.Indexed
  categories : r.2.categories = s.categories
  others : ∀ c' p', p ≠ p' → (r.2.Member c' p' ↔ s.Member c' p')
  boxes : r.1 = .ok → ∀ b c, s.categoryNamed b.name = some c → (r.2.Member c.id p ↔ ticked params b = true)

theorem Answered.refused (h : s.Indexed) {u : User} {o : Outcome} (ho : o ≠ .ok)
    (hno : ∀ project, s.db.projects.find? p = some project → Ability.categorize s.db u project = false) :
    Answered u p params s (o, s) := by
  refine ⟨iff_of_false ho ?_, h, rfl, fun _ _ _ => Iff.rfl, fun hok => absurd hok ho⟩
  rintro ⟨⟨project, hproject, hyes⟩, -⟩
  rw [hno project hproject] at hyes
  cases hyes

theorem categorize_spec (h : s.Indexed) (u : User) (p : Nat) (params : CategoryBox → Option Text) :
    Answered u p params s (categorize u p params s) := by
  rcases categorize_cases u p params s with ⟨hno, hr⟩ | ⟨project, hproject, ⟨hno, hr⟩ | ⟨hyes, hr⟩⟩
  · rw [hr]
    refine .refused h (by decide) fun project hproject => ?_
    rw [hno] at hproject
    cases hproject
  · rw [hr]
    refine .refused h (by decide) fun project' hproject' => ?_
    rw [← Option.some.inj (hproject.symm.trans hproject')]
    exact hno
  · obtain ⟨hdone, -, hcategories, hindexed, hothers, hboxes⟩ := @each_boxes s p params h CategoryBox.all (by decide)
    generalize Run.each (categorizeBox p) s
      (CategoryBox.all.map fun b => (ticked params b, s.categoryNamed b.name)) = loop
      at hr hdone hcategories hindexed hothers hboxes
    have hok : (if loop.1 = true then Outcome.ok else .error) = .ok ↔ loop.1 = true := by
      split <;> simp_all
    rw [hr]
    refine ⟨?_, hindexed, hcategories, hothers, ?_⟩
    · rw [hok, hdone, handled_eq_all, and_iff_right ⟨project, hproject, hyes⟩]
    · intro hend b c hc
      rw [hboxes b c hc, hdone.mp (hok.mp hend), if_pos b.mem_all]

end Request

end Categorized

/-! ## Runs -/

/-- The requests that write the tables of the categories, and any other one. -/
inductive CategoryRequest where
  | categorize (u : User) (p : Nat) (params : CategoryBox → Option Text)
  | destroyCategory (viewer : Option User) (json : Bool) (i : Nat)
  | destroyProject (u : User) (now p : Nat)
  /-- a request that writes other tables -/
  | elsewhere (db : Database)

namespace CategoryRequest

open Categorized

/-- `DELETE /projects/:id`, with `dependent: :destroy` of the categorizations. -/
def destroyProjectOf (u : User) (now p : Nat) (s : Categorized) : Categorized :=
  let r := ProjectsController.destroy u now p s.db
  { s with
    db := r.2
    categorizations := s.categorizations.filter fun k => r.1 ≠ .ok || k.projectId ≠ p }

def perform (s : Categorized) : CategoryRequest → Categorized
  | categorize u p params => (ProjectsController.categorize u p params s).2
  | destroyCategory viewer json i => (CategoriesController.destroy viewer json i s).2
  | destroyProject u now p => destroyProjectOf u now p s
  | elsewhere db => { s with db }

/-- The request neither categorizes the project nor destroys it. -/
def Spares (p : Nat) : CategoryRequest → Prop
  | categorize _ q _ => p ≠ q
  | destroyProject _ _ q => p ≠ q
  | _ => True

/-- What a request leaves of the categories of a project that it spares. -/
structure Leaves (p : Nat) (s s' : Categorized) : Prop where
  named : ∀ b : CategoryBox, ∀ c, s'.categoryNamed b.name = some c → s.categoryNamed b.name = some c
  member : ∀ b : CategoryBox, ∀ c, s'.categoryNamed b.name = some c → (s'.Member c.id p ↔ s.Member c.id p)

theorem leaves_of_eq {p : Nat} {s s' : Categorized} (hcategories : s'.categories = s.categories)
    (hmember : ∀ c, s'.Member c p ↔ s.Member c p) : Leaves p s s' where
  named b c hc := by rwa [categoryNamed, hcategories] at hc
  member _ c _ := hmember c.id

theorem categorize_step {s : Categorized} (h : s.Indexed) (u : User) (q : Nat) (params : CategoryBox → Option Text) :
    (ProjectsController.categorize u q params s).2.Indexed ∧
      ∀ p, p ≠ q → Leaves p s (ProjectsController.categorize u q params s).2 := by
  obtain ⟨-, hindexed, hcategories, hothers, -⟩ := categorize_spec h u q params
  exact ⟨hindexed, fun p hp => leaves_of_eq hcategories fun c => hothers c p (Ne.symm hp)⟩

theorem destroyCategory_step {s : Categorized} (h : s.Indexed) (viewer : Option User) (json : Bool) (i : Nat) :
    (CategoriesController.destroy viewer json i s).2.Indexed ∧
      ∀ p, Leaves p s (CategoriesController.destroy viewer json i s).2 := by
  rw [CategoriesController.destroy]
  cases hfind : s.categories.find? i with
  | none => exact ⟨h, fun p => leaves_of_eq rfl fun _ => Iff.rfl⟩
  | some category =>
    have hsub : ∀ c ∈ (s.categories.filter (·.id ≠ i)).rows, c ∈ s.categories.rows ∧ c.id ≠ i := fun c hc => by
      simpa using List.mem_filter.mp hc
    refine ⟨⟨?_, ?_, ?_⟩, fun p => ⟨?_, ?_⟩⟩
    · exact h.names.sublist (List.filter_sublist.map _)
    · intro k hk k' hk'
      exact h.unique k (List.mem_of_mem_filter hk) k' (List.mem_of_mem_filter hk')
    · intro k hk
      obtain ⟨hrow, hne⟩ := List.mem_filter.mp hk
      rw [decide_eq_true_eq] at hne
      obtain ⟨c, hc⟩ := Option.isSome_iff_exists.mp (h.category k hrow)
      obtain ⟨hcrow, hid⟩ := Table.find?_eq_some.mp hc
      have hid : c.id = k.categoryId := hid
      refine Table.isSome_find?.mpr (List.mem_map.mpr ⟨c, List.mem_filter.mpr ⟨hcrow, ?_⟩, hid⟩)
      rw [decide_eq_true_eq, hid]
      exact hne
    · intro b c hc
      obtain ⟨hrow, hname⟩ := categoryNamed_eq_some hc
      obtain ⟨hrow, -⟩ := hsub c hrow
      -- no other category has the name
      cases hb : s.categoryNamed b.name with
      | none =>
        have hno := List.find?_eq_none.mp hb c hrow
        simp [hname] at hno
      | some c' =>
        obtain ⟨hrow', hname'⟩ := categoryNamed_eq_some hb
        rw [List.inj_on_of_nodup_map h.names hrow' hrow (hname'.trans hname.symm)]
    · intro b c hc
      obtain ⟨-, hne⟩ := hsub c (categoryNamed_eq_some hc).1
      constructor
      · rintro ⟨k, hk, hpair⟩
        exact ⟨k, List.mem_of_mem_filter hk, hpair⟩
      · rintro ⟨k, hk, hcat, hproject⟩
        refine ⟨k, List.mem_filter.mpr ⟨hk, ?_⟩, hcat, hproject⟩
        rw [decide_eq_true_eq, hcat]
        exact hne

theorem destroyProject_step {s : Categorized} (h : s.Indexed) (u : User) (now q : Nat) :
    (destroyProjectOf u now q s).Indexed ∧ ∀ p, p ≠ q → Leaves p s (destroyProjectOf u now q s) := by
  refine ⟨h.filter rfl rfl, fun p hp => leaves_of_eq rfl fun c => ?_⟩
  constructor
  · rintro ⟨k, hk, hpair⟩
    exact ⟨k, List.mem_of_mem_filter hk, hpair⟩
  · rintro ⟨k, hk, hcat, hproject⟩
    refine ⟨k, List.mem_filter.mpr ⟨hk, ?_⟩, hcat, hproject⟩
    rw [hproject]
    simp [hp]

theorem perform_step {s : Categorized} (h : s.Indexed) (r : CategoryRequest) :
    (perform s r).Indexed ∧ ∀ p, r.Spares p → Leaves p s (perform s r) := by
  cases r with
  | categorize u q params => exact categorize_step h u q params
  | destroyCategory viewer json i => exact ⟨(destroyCategory_step h viewer json i).1,
      fun p _ => (destroyCategory_step h viewer json i).2 p⟩
  | destroyProject u now q => exact destroyProject_step h u now q
  | elsewhere db => exact ⟨⟨h.names, h.unique, h.category⟩, fun p _ => leaves_of_eq rfl fun _ => Iff.rfl⟩

theorem indexed_after {s : Categorized} (h : s.Indexed) (rs : List CategoryRequest) :
    (Run.after perform s rs).Indexed :=
  Run.invariant (P := fun _ _ => True) (I := Indexed) (fun _ r hs _ => (perform_step hs r).1) h
    (Run.Along.of_forall (A := fun _ => True) fun _ _ => trivial)

/-- Along requests that spare a project, it stays in the categories that stay. -/
theorem leaves_after {s : Categorized} (h : s.Indexed) {p : Nat} {rs : List CategoryRequest}
    (hrs : ∀ r ∈ rs, r.Spares p) : Leaves p s (Run.after perform s rs) := by
  induction rs generalizing s with
  | nil => exact leaves_of_eq rfl fun _ => Iff.rfl
  | cons r rs ih =>
    obtain ⟨hr, hrs⟩ := List.forall_mem_cons.mp hrs
    obtain ⟨hindexed, hstep⟩ := perform_step h r
    have hstep := hstep p hr
    have hrest := ih hindexed hrs
    refine ⟨fun b c hc => hstep.named b c (hrest.named b c hc), fun b c hc => ?_⟩
    exact (hrest.member b c hc).trans (hstep.member b c (hrest.named b c hc))

end CategoryRequest

open Categorized CategoryRequest in
/-- The last request decides: `categorize` comes to its end exactly if an author asks and every ticked box has its
category, and then the project is in the categories that were ticked, as long as they exist, whatever was requested
before and whatever else is requested afterwards. -/
theorem categorize_last_wins {s : Categorized} (h : s.Indexed) (rs rs' : List CategoryRequest) (u : User) {p : Nat}
    (params : CategoryBox → Option Text) (hrs' : ∀ r ∈ rs', r.Spares p) :
    let before := Run.after perform s rs
    let r := ProjectsController.categorize u p params before
    let later := Run.after perform r.2 rs'
    (r.1 = .ok ↔ (∃ project, before.db.projects.find? p = some project ∧ Ability.categorize before.db u project = true) ∧
      ∀ b, ProjectsController.ticked params b = true → (before.categoryNamed b.name).isSome = true) ∧
    later.Indexed ∧
    (r.1 = .ok → ∀ b, later.InCategory p b ↔
      ProjectsController.ticked params b = true ∧ (later.categoryNamed b.name).isSome = true) := by
  intro before r later
  obtain ⟨hok, hindexed, hcategories, -, hboxes⟩ := categorize_spec (indexed_after h rs) u p params
  refine ⟨hok, indexed_after hindexed rs', fun hend b => ?_⟩
  have hlater : Leaves p r.2 later := leaves_after hindexed hrs'
  have hmember : ∀ c, later.categoryNamed b.name = some c →
      (later.Member c.id p ↔ ProjectsController.ticked params b = true) := by
    intro c hc
    have hnamed := hlater.named b c hc
    have hnamed : before.categoryNamed b.name = some c := by rwa [categoryNamed, hcategories] at hnamed
    exact (hlater.member b c hc).trans (hboxes hend b c hnamed)
  constructor
  · rintro ⟨c, hc, hmem⟩
    exact ⟨(hmember c hc).mp hmem, by rw [hc]; rfl⟩
  · rintro ⟨hticked, hsome⟩
    obtain ⟨c, hc⟩ := Option.isSome_iff_exists.mp hsome
    exact ⟨c, hc, (hmember c hc).mpr hticked⟩

/-- A project of one user and two of the categories. -/
def Categorized.twoCategories : Categorized where
  db := .oneProject "Lamp".toList none
  categories := .ofRows [⟨1, some "Clothing".toList⟩, ⟨2, some "Cooking".toList⟩] 3 (by decide)
  categorizations := .ofRows [] 1 (by decide)

theorem Categorized.indexed_twoCategories : twoCategories.Indexed where
  names := by decide +kernel
  unique := fun _ hk => by cases hk
  category := fun _ hk => by cases hk

/-- The project is put into both categories, and one of them is destroyed. -/
theorem categorize_two :
    let both (b : CategoryBox) : Option Text := if b = .clothing ∨ b = .cooking then some ['1'] else none
    let s := (ProjectsController.categorize ada 1 both .twoCategories).2
    let later := Run.after CategoryRequest.perform s [.destroyCategory none true 1]
    ¬ later.InCategory 1 .clothing ∧ later.InCategory 1 .cooking := by
  intro both s later
  obtain ⟨hok, -, hlast⟩ := categorize_last_wins Categorized.indexed_twoCategories [] [.destroyCategory none true 1]
    ada (p := 1) both (by simp [CategoryRequest.Spares])
  have hlast := hlast (hok.mpr ⟨⟨_, rfl, by decide +kernel⟩, fun b => by cases b <;> decide +kernel⟩)
  exact ⟨fun hin => absurd ((hlast .clothing).mp hin).2 (by decide +kernel),
    (hlast .cooking).mpr ⟨by decide +kernel, by decide +kernel⟩⟩
