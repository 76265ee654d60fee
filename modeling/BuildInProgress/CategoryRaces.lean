import BuildInProgress.Categories

/-!
# Concurrent requests for the categories of projects

`categorize` cut where it accesses the tables of the categories: the six names are looked up, then each box is looked
at, and a row is created, or looked up and destroyed.  Two requests that ask for the same can get in each other's way,
and one of them then raises, but what they agree on comes out.
-/

open Text

structure CategorizeRequest where
  user : User
  project : Nat
  params : CategoryBox → Option Text

/-- The tables, and the requests that `categorize` has come to its end for. -/
structure CategorizeServer where
  store : Categorized
  answered : List CategorizeRequest

/-- Where a request goes on at its next turn. -/
inductive CategorizePoint where
  | received (r : CategorizeRequest)
  /-- The categories are looked up, and these boxes are left. -/
  | boxes (r : CategorizeRequest) (found : CategoryBox → Option Category) (rest : List CategoryBox)
  /-- The box is ticked, and the project was not in the category. -/
  | create (r : CategorizeRequest) (found : CategoryBox → Option Category) (b : CategoryBox) (rest : List CategoryBox)
  /-- The box is not ticked, and the project was in the category. -/
  | lookUp (r : CategorizeRequest) (found : CategoryBox → Option Category) (b : CategoryBox) (rest : List CategoryBox)
  | destroy (r : CategorizeRequest) (found : CategoryBox → Option Category) (k : Categorization) (b : CategoryBox)
      (rest : List CategoryBox)

namespace CategorizePoint

open ProjectsController

/-- One turn; `db` are the other tables at that moment. -/
def access (db : Database) (point : CategorizePoint) (x : CategorizeServer) :
    CategorizeServer × Option CategorizePoint :=
  let s : Categorized := { x.store with db }
  match point with
  | received r =>
    (⟨s, x.answered⟩, (db.projects.find? r.project).bind fun project =>
      if Ability.categorize db r.user project then
        some (boxes r (fun b => s.categoryNamed b.name) CategoryBox.all)
      else none)
  | boxes r _ [] => (⟨s, x.answered ++ [r]⟩, none)
  | boxes r found (b :: rest) =>
    let included := s.includesCategory r.project (found b)
    (⟨s, x.answered⟩, some <|
      if ticked r.params b && !included then create r found b rest
      else if !ticked r.params b && included then lookUp r found b rest
      else boxes r found rest)
  | create r found b rest =>
    match (found b).bind fun c => s.createCategorization c.id r.project with
    | none => (⟨s, x.answered⟩, none)
    | some s => (⟨s, x.answered⟩, some (boxes r found rest))
  | lookUp r found b rest =>
    (⟨s, x.answered⟩, ((found b).bind fun c => s.categorizationOf c.id r.project).map fun k => destroy r found k b rest)
  | destroy r found k _ rest => (⟨s.destroyCategorization k, x.answered⟩, some (boxes r found rest))

open Interleaving

/-- The loop over the boxes that are left. -/
theorem alone_boxes (r : CategorizeRequest) (s : Categorized) (answered : List CategorizeRequest)
    (found : CategoryBox → Option Category) (rest : List CategoryBox) {s' : Categorized} (hdb : s'.db = s.db) :
    let loop := Run.each (categorizeBox r.project) s' (rest.map fun b => (ticked r.params b, found b))
    Alone access s.db (boxes r found rest) ⟨s', answered⟩
      ⟨loop.2, if loop.1 = true then answered ++ [r] else answered⟩ := by
  induction rest generalizing s' with
  | nil =>
    rw [← hdb]
    exact .last rfl
  | cons b rest ih =>
    have hs' : ({ s' with db := s.db } : Categorized) = s' := by rw [← hdb]
    rw [List.map_cons, Run.each]
    by_cases hcreate : (ticked r.params b && !s'.includesCategory r.project (found b)) = true
    · have haccess : access s.db (boxes r found (b :: rest)) ⟨s', answered⟩ =
          (⟨s', answered⟩, some (create r found b rest)) := by
        rw [access, hs', if_pos hcreate]
      refine .more haccess ?_
      cases hresult : (found b).bind fun c => s'.createCategorization c.id r.project with
      | none =>
        have hbox : categorizeBox r.project s' (ticked r.params b, found b) = (false, s') := by
          rw [categorizeBox, if_pos hcreate]
          simp only [hresult]
        have hturn : access s.db (create r found b rest) ⟨s', answered⟩ = (⟨s', answered⟩, none) := by
          rw [access, hs']
          simp only [hresult]
        rw [hbox]
        exact .last hturn
      | some s'' =>
        have hbox : categorizeBox r.project s' (ticked r.params b, found b) = (true, s'') := by
          rw [categorizeBox, if_pos hcreate]
          simp only [hresult]
        have hturn : access s.db (create r found b rest) ⟨s', answered⟩ =
            (⟨s'', answered⟩, some (boxes r found rest)) := by
          rw [access, hs']
          simp only [hresult]
        rw [hbox]
        obtain ⟨c, -, hc⟩ := Option.bind_eq_some_iff.mp hresult
        exact .more hturn (ih ((Categorized.createCategorization_cases hc).2.1.trans hdb))
    · by_cases hlook : (!ticked r.params b && s'.includesCategory r.project (found b)) = true
      · have haccess : access s.db (boxes r found (b :: rest)) ⟨s', answered⟩ =
            (⟨s', answered⟩, some (lookUp r found b rest)) := by
          rw [access, hs', if_neg hcreate, if_pos hlook]
        refine .more haccess ?_
        cases hresult : (found b).bind fun c => s'.categorizationOf c.id r.project with
        | none =>
          have hbox : categorizeBox r.project s' (ticked r.params b, found b) = (false, s') := by
            rw [categorizeBox, if_neg hcreate, if_pos hlook]
            simp only [hresult]
          have hturn : access s.db (lookUp r found b rest) ⟨s', answered⟩ = (⟨s', answered⟩, none) := by
            rw [access, hs', hresult]
            rfl
          rw [hbox]
          exact .last hturn
        | some k =>
          have hbox : categorizeBox r.project s' (ticked r.params b, found b) =
              (true, s'.destroyCategorization k) := by
            rw [categorizeBox, if_neg hcreate, if_pos hlook]
            simp only [hresult]
          have hturn : access s.db (lookUp r found b rest) ⟨s', answered⟩ =
              (⟨s', answered⟩, some (destroy r found k b rest)) := by
            rw [access, hs', hresult]
            rfl
          have hdestroy : access s.db (destroy r found k b rest) ⟨s', answered⟩ =
              (⟨s'.destroyCategorization k, answered⟩, some (boxes r found rest)) := by
            rw [access, hs']
          rw [hbox]
          exact .more hturn (.more hdestroy (@ih (s'.destroyCategorization k) hdb))
      · have haccess : access s.db (boxes r found (b :: rest)) ⟨s', answered⟩ =
            (⟨s', answered⟩, some (boxes r found rest)) := by
          rw [access, hs', if_neg hcreate, if_neg hlook]
        have hbox : categorizeBox r.project s' (ticked r.params b, found b) = (true, s') :=
          (if_neg hcreate).trans (if_neg hlook)
        rw [hbox]
        exact .more haccess (ih hdb)

/-- Without interruption a request does what `categorize` does, and is answered if that comes to its end. -/
theorem alone_categorize (r : CategorizeRequest) (s : Categorized) (answered : List CategorizeRequest) :
    let result := ProjectsController.categorize r.user r.project r.params s
    Alone access s.db (received r) ⟨s, answered⟩
      ⟨result.2, if result.1 = .ok then answered ++ [r] else answered⟩ := by
  intro result
  have hresult : result = ProjectsController.categorize r.user r.project r.params s := rfl
  rcases Categorized.categorize_cases r.user r.project r.params s with
    ⟨hno, hr⟩ | ⟨project, hproject, ⟨hno, hr⟩ | ⟨hyes, hr⟩⟩
  · rw [hresult, hr]
    refine .last ?_
    rw [access, hno]
    rfl
  · rw [hresult, hr]
    refine .last ?_
    rw [access, hproject, Option.bind_some, hno]
    rfl
  · rw [hresult, hr]
    have haccess : access s.db (received r) ⟨s, answered⟩ =
        (⟨s, answered⟩, some (boxes r (fun b => s.categoryNamed b.name) CategoryBox.all)) := by
      rw [access, hproject, Option.bind_some, hyes]
      rfl
    have hrest := alone_boxes r s answered (fun b => s.categoryNamed b.name) CategoryBox.all rfl
    generalize Run.each (categorizeBox r.project) s
      (CategoryBox.all.map fun b => (ticked r.params b, s.categoryNamed b.name)) = loop at hrest ⊢
    dsimp only at hrest
    cases hdone : loop.1 with
    | true =>
      rw [hdone] at hrest
      exact .more haccess hrest
    | false =>
      rw [hdone] at hrest
      exact .more haccess hrest

/-! ## What requests that agree know -/

end CategorizePoint

/-- A request for the project ticks the box if `v`, and does not otherwise. -/
def CategorizeRequest.Agrees (p : Nat) (b : CategoryBox) (v : Bool) (r : CategorizeRequest) : Prop :=
  r.project = p → ProjectsController.ticked r.params b = v

section Agreement

open Categorized

variable {p : Nat} {b : CategoryBox} {v : Bool} {x y : Categorized}

/-- What a turn of a request that agrees may do to the tables. -/
structure Agreeing (p : Nat) (b : CategoryBox) (v : Bool) (x y : Categorized) : Prop where
  categories : y.categories = x.categories
  indexed : y.Indexed
  settled : (x.InCategory p b ↔ v = true) → (y.InCategory p b ↔ v = true)
  next : x.categorizations.next ≤ y.categorizations.next
  rows : ∀ k ∈ y.categorizations.rows, k ∈ x.categorizations.rows ∨ x.categorizations.next ≤ k.id ∧
    ((x.categoryNamed b.name).map Category.id = some k.categoryId → k.projectId = p → v = true)

theorem Agreeing.named (h : Agreeing p b v x y) (name : Text) : y.categoryNamed name = x.categoryNamed name := by
  rw [categoryNamed, h.categories]
  rfl

theorem inCategory_iff {c : Category} (hc : x.categoryNamed b.name = some c) : x.InCategory p b ↔ x.Member c.id p := by
  constructor
  · rintro ⟨c', hc', hmem⟩
    rw [hc, Option.some.injEq] at hc'
    rwa [hc']
  · exact fun hmem => ⟨c, hc, hmem⟩

theorem agreeing_elsewhere (h : x.Indexed) (db : Database) : Agreeing p b v x { x with db } :=
  ⟨rfl, ⟨h.names, h.unique, h.category⟩, id, Nat.le_refl _, fun _ hk => Or.inl hk⟩

/-- Creating the row of a ticked box. -/
theorem agreeing_create (h : x.Indexed) {b' : CategoryBox} {q : Nat} {asked : Bool}
    (hagrees : q = p → b' = b → asked = v) (hasked : asked = true) {c : Category} (hc : x.categoryNamed b'.name = some c)
    (hy : x.createCategorization c.id q = some y) : Agreeing p b v x y := by
  obtain ⟨-, -, hcategories, hnext, hrows⟩ := createCategorization_cases hy
  have hfound : (x.categories.find? c.id).isSome = true := by
    rw [show x.categories.find? c.id = some c from Table.find?_of_mem (categoryNamed_eq_some hc).1]
    rfl
  have hnamed : ∀ name, y.categoryNamed name = x.categoryNamed name := fun name => by
    rw [categoryNamed, hcategories]
    rfl
  have hpair : ∀ c' : Category, x.categoryNamed b.name = some c' → c.id = c'.id → q = p → v = true := by
    intro c' hc' hid hq
    rw [← hagrees hq (box_inj hc hc' hid)]
    exact hasked
  refine ⟨hcategories, h.create hy hfound, ?_, by omega, ?_⟩
  · intro hsettled
    cases hb : x.categoryNamed b.name with
    | none =>
      have hno : ∀ {z : Categorized}, z.categoryNamed b.name = none → ¬ z.InCategory p b := by
        rintro z hz ⟨c', hc', -⟩
        rw [hz] at hc'
        cases hc'
      rw [← hsettled]
      exact iff_of_false (hno ((hnamed _).trans hb)) (hno hb)
    | some c' =>
      rw [inCategory_iff hb] at hsettled
      rw [inCategory_iff ((hnamed _).trans hb), member_create hy, hsettled, or_iff_left_iff_imp]
      exact fun hnew => hpair c' hb hnew.1 hnew.2
  · intro k hk
    rw [hrows, List.mem_append, List.mem_singleton] at hk
    rcases hk with hk | rfl
    · exact Or.inl hk
    · refine Or.inr ⟨Nat.le_refl _, fun hcat hq => ?_⟩
      obtain ⟨c', hc', hid⟩ := Option.map_eq_some_iff.mp hcat
      exact hpair c' hc' hid.symm hq

/-- The row that a request has looked up, or nothing in its place. -/
structure LookedUp (k : Categorization) (x : Categorized) : Prop where
  id : ∀ k' ∈ x.categorizations.rows, k'.id = k.id → k' = k
  old : k.id < x.categorizations.next

theorem LookedUp.agreeing {k : Categorization} (h : LookedUp k x) (ha : Agreeing p b v x y) : LookedUp k y where
  id k' hk' hid := by
    rcases ha.rows k' hk' with hold | ⟨hnew, -⟩
    · exact h.id k' hold hid
    · have := h.old
      omega
  old := Nat.lt_of_lt_of_le h.old ha.next

/-- Destroying the row of a box that is not ticked. -/
theorem agreeing_destroy (h : x.Indexed) {b' : CategoryBox} {asked : Bool} {k : Categorization}
    (hagrees : k.projectId = p → b' = b → asked = v) (hasked : asked = false) (hk : LookedUp k x)
    (hcat : (x.categoryNamed b'.name).map Category.id = some k.categoryId) :
    Agreeing p b v x (x.destroyCategorization k) := by
  refine ⟨rfl, h.destroyCategorization k, ?_, Nat.le_refl _, fun k' hk' => Or.inl (List.mem_of_mem_filter hk')⟩
  intro hsettled
  have hsub : (x.destroyCategorization k).InCategory p b → x.InCategory p b := by
    rintro ⟨c, hc, k', hk', hpair⟩
    exact ⟨c, hc, k', List.mem_of_mem_filter hk', hpair⟩
  refine ⟨fun hin => hsettled.mp (hsub hin), fun hv => ?_⟩
  obtain ⟨c, hc, k', hk', hpair⟩ := hsettled.mpr hv
  refine ⟨c, hc, k', List.mem_filter.mpr ⟨hk', ?_⟩, hpair⟩
  rw [decide_eq_true_eq]
  intro hid
  -- it would be the row of the box itself, which is not ticked
  obtain rfl := hk.id k' hk' hid
  obtain ⟨c', hc', hid'⟩ := Option.map_eq_some_iff.mp hcat
  have hasked' := hagrees hpair.2 (box_inj hc' hc (hid'.trans hpair.1))
  rw [hasked, hv] at hasked'
  cases hasked'

/-- A request on its way: the categories that it has found are still right, and what it has passed is settled. -/
structure Underway (p : Nat) (b : CategoryBox) (v : Bool) (r : CategorizeRequest)
    (found : CategoryBox → Option Category) (rest : List CategoryBox) (x : Categorized) : Prop where
  agrees : r.Agrees p b v
  found : ∀ b, found b = x.categoryNamed b.name
  past : r.project = p → b ∉ rest → (x.InCategory p b ↔ v = true)

variable {r : CategorizeRequest} {found : CategoryBox → Option Category} {rest : List CategoryBox}

theorem Underway.agreeing (h : Underway p b v r found rest x) (ha : Agreeing p b v x y) :
    Underway p b v r found rest y where
  agrees := h.agrees
  found b := (h.found b).trans (ha.named b.name).symm
  past hp hb := ha.settled (h.past hp hb)

/-- What is known of a request at each point. -/
def CategorizePoint.Right (p : Nat) (b : CategoryBox) (v : Bool) : CategorizePoint → Categorized → Prop
  | received r, _ => r.Agrees p b v
  | boxes r found rest, x => Underway p b v r found rest x
  | create r found b' rest, x => Underway p b v r found (b' :: rest) x ∧ ProjectsController.ticked r.params b' = true
  | lookUp r found b' rest, x => Underway p b v r found (b' :: rest) x ∧ ProjectsController.ticked r.params b' = false
  | destroy r found k b' rest, x =>
    Underway p b v r found (b' :: rest) x ∧ ProjectsController.ticked r.params b' = false ∧ LookedUp k x ∧
      (found b').map Category.id = some k.categoryId ∧ k.projectId = r.project ∧
      (r.project = p → b' = b → ∀ k' ∈ x.categorizations.rows, k'.categoryId = k.categoryId → k'.projectId = p → k' = k)

theorem CategorizePoint.Right.agreeing {point : CategorizePoint} (h : point.Right p b v x) (ha : Agreeing p b v x y) :
    point.Right p b v y := by
  cases point with
  | received r => exact h
  | boxes r found rest => exact Underway.agreeing h ha
  | create r found b' rest => exact ⟨h.1.agreeing ha, h.2⟩
  | lookUp r found b' rest => exact ⟨h.1.agreeing ha, h.2⟩
  | destroy r found k b' rest =>
    obtain ⟨hunder, hticked, hlooked, hcat, hproject, hpair⟩ := h
    refine ⟨hunder.agreeing ha, hticked, hlooked.agreeing ha, hcat, hproject, ?_⟩
    intro hp hb k' hk' hcat' hproject'
    rcases ha.rows k' hk' with hold | ⟨-, hnew⟩
    · exact hpair hp hb k' hold hcat' hproject'
    · -- nobody who agrees creates the row again
      rw [hunder.found, hb, ← hcat'] at hcat
      have hv := hnew hcat hproject'
      have hagrees := hunder.agrees hp
      rw [← hb, hticked, hv] at hagrees
      cases hagrees

theorem Agreeing.trans {z : Categorized} (hxy : Agreeing p b v x y) (hyz : Agreeing p b v y z) :
    Agreeing p b v x z where
  categories := hyz.categories.trans hxy.categories
  indexed := hyz.indexed
  settled h := hyz.settled (hxy.settled h)
  next := Nat.le_trans hxy.next hyz.next
  rows k hk := by
    rcases hyz.rows k hk with hk | ⟨hold, hnew⟩
    · exact hxy.rows k hk
    · rw [hxy.named] at hnew
      exact Or.inr ⟨Nat.le_trans hxy.next hold, hnew⟩

/-- A box is passed when the project is in its category as the request asks. -/
theorem Underway.pass {b' : CategoryBox} (h : Underway p b v r found (b' :: rest) x)
    (hb : r.project = p → b' = b → (x.InCategory p b ↔ ProjectsController.ticked r.params b' = true)) :
    Underway p b v r found rest x where
  agrees := h.agrees
  found := h.found
  past hp hnot := by
    by_cases hbb : b' = b
    · rw [hb hp hbb, hbb, h.agrees hp]
    · exact h.past hp fun hin => (List.mem_cons.mp hin).elim (fun heq => hbb heq.symm) hnot

open CategorizePoint in
/-- What a request has to know when it has looked at a box. -/
theorem Underway.next {b' : CategoryBox} (h : Underway p b v r found (b' :: rest) x) :
    CategorizePoint.Right p b v (if ProjectsController.ticked r.params b' && !x.includesCategory r.project (found b') then
      create r found b' rest
    else if !ProjectsController.ticked r.params b' && x.includesCategory r.project (found b') then
      lookUp r found b' rest
    else boxes r found rest) x := by
  cases hticked : ProjectsController.ticked r.params b' <;> cases hincluded : x.includesCategory r.project (found b')
  · -- the box is not ticked and the project not in the category
    refine h.pass fun hp hbb => ?_
    rw [h.found, hbb, hp, ← Bool.not_eq_true, includesCategory_box] at hincluded
    exact iff_of_false hincluded (by simp [hticked])
  · exact ⟨h, hticked⟩
  · exact ⟨h, hticked⟩
  · refine h.pass fun hp hbb => ?_
    rw [h.found, hbb, hp, includesCategory_box] at hincluded
    exact iff_of_true hincluded hticked

open CategorizePoint in
/-- One turn leaves the tables agreeing, and its own request with what it has to know. -/
theorem access_right {x : CategorizeServer} (hx : x.store.Indexed) {point : CategorizePoint}
    (h : point.Right p b v x.store) (db : Database) :
    Agreeing p b v x.store (access db point x).1.store ∧
      (∀ next, (access db point x).2 = some next → next.Right p b v (access db point x).1.store) ∧
      ∀ r ∈ (access db point x).1.answered, r ∈ x.answered ∨ (r.project = p → (x.store.InCategory p b ↔ v = true)) := by
  -- the other tables are read as they are
  have helse : Agreeing p b v x.store { x.store with db } := agreeing_elsewhere hx db
  have hs := h.agreeing helse
  have hindexed := helse.indexed
  rw [access.eq_def]
  dsimp only
  generalize ({ x.store with db } : Categorized) = s at helse hs hindexed
  cases point with
  | received r =>
    refine ⟨helse, ?_, fun r hr => Or.inl hr⟩
    intro next hnext
    obtain ⟨project, -, hnext⟩ := Option.bind_eq_some_iff.mp hnext
    split at hnext
    · obtain rfl := Option.some.inj hnext
      exact ⟨hs, fun _ => rfl, fun _ hnot => absurd b.mem_all hnot⟩
    · cases hnext
  | boxes r found rest =>
    cases rest with
    | nil =>
      refine ⟨helse, fun next hnext => (by cases hnext), ?_⟩
      intro r' hr'
      rcases List.mem_append.mp hr' with hold | hnew
      · exact Or.inl hold
      · rw [List.mem_singleton.mp hnew]
        exact Or.inr fun hp => Underway.past h hp List.not_mem_nil
    | cons b' rest =>
      refine ⟨helse, ?_, fun r hr => Or.inl hr⟩
      intro next hnext
      obtain rfl := Option.some.inj hnext
      exact Underway.next hs
  | create r found b' rest =>
    obtain ⟨hunder, hticked⟩ : Underway p b v r found (b' :: rest) s ∧ _ := hs
    dsimp only
    cases hcreate : (found b').bind fun c => s.createCategorization c.id r.project with
    | none => exact ⟨helse, fun next hnext => (by cases hnext), fun r hr => Or.inl hr⟩
    | some s' =>
      obtain ⟨c, hc, hs'⟩ := Option.bind_eq_some_iff.mp hcreate
      rw [hunder.found] at hc
      have hagree : Agreeing p b v s s' :=
        agreeing_create hindexed (fun hq hb => by rw [hb]; exact hunder.agrees hq) hticked hc hs'
      refine ⟨helse.trans hagree, ?_, fun r hr => Or.inl hr⟩
      intro next hnext
      obtain rfl := Option.some.inj hnext
      refine (hunder.agreeing hagree).pass fun hp hbb => ?_
      rw [hbb] at hc
      rw [inCategory_iff ((hagree.named _).trans hc), member_create hs']
      exact iff_of_true (Or.inr ⟨rfl, hp⟩) hticked
  | lookUp r found b' rest =>
    obtain ⟨hunder, hticked⟩ : Underway p b v r found (b' :: rest) s ∧ _ := hs
    refine ⟨helse, ?_, fun r hr => Or.inl hr⟩
    intro next hnext
    obtain ⟨k, hk, rfl⟩ := Option.map_eq_some_iff.mp hnext
    obtain ⟨c, hc, hk⟩ := Option.bind_eq_some_iff.mp hk
    obtain ⟨hrow, hcat, hproject⟩ := categorizationOf_eq_some hk
    refine ⟨hunder, hticked, ⟨fun k' hk' => Table.eq_of_key hk' hrow, (s.categorizations.bound k hrow).2⟩, ?_,
      hproject, ?_⟩
    · rw [hc, Option.map_some, hcat]
    · intro hp _ k' hk' hcat' hproject'
      exact hindexed.unique k' hk' k hrow hcat' (by rw [hproject', hproject, hp])
  | destroy r found k b' rest =>
    obtain ⟨hunder, hticked, hlooked, hcat, hproject, hpair⟩ : Underway p b v r found (b' :: rest) s ∧ _ := hs
    rw [hunder.found] at hcat
    have hagree : Agreeing p b v s (s.destroyCategorization k) :=
      agreeing_destroy hindexed (fun hq hb => by rw [hb]; exact hunder.agrees (hproject ▸ hq)) hticked hlooked hcat
    refine ⟨helse.trans hagree, ?_, fun r hr => Or.inl hr⟩
    intro next hnext
    obtain rfl := Option.some.inj hnext
    refine (hunder.agreeing hagree).pass fun hp hbb => iff_of_false ?_ (by simp [hticked])
    rintro ⟨c, hc, k', hk', hcat', hproject'⟩
    have hc : s.categoryNamed b.name = some c := hc
    rw [hbb, hc, Option.map_some, Option.some.injEq] at hcat
    obtain ⟨hrow, hne⟩ := List.mem_filter.mp hk'
    rw [hpair hp hbb k' hrow (hcat'.trans hcat) hproject', decide_eq_true_eq] at hne
    exact hne rfl

/-- Whether the project is in the category of the box as the requests ask. -/
def Categorized.AsAsked (p : Nat) (b : CategoryBox) (v : Bool) (x : Categorized) : Prop :=
  x.InCategory p b ↔ v = true

/-- The tables once it is so that the project is in the category as asked: by `settled`, or by an answered request. -/
def CategorizeServer.Settles (p : Nat) (b : CategoryBox) (v : Bool) (settled : Prop) (x : CategorizeServer) : Prop :=
  x.store.Indexed ∧ (settled ∨ (∃ r ∈ x.answered, r.project = p) → x.store.AsAsked p b v)

open Interleaving in
/-- What every access keeps, for the tables and for all requests on their way. -/
theorem keeps_settles (settled : Prop) :
    Keeps (fun r : {r : CategorizeRequest // r.Agrees p b v} => CategorizePoint.received r.1) CategorizePoint.access
      (CategorizeServer.Settles p b v settled) (fun point x => point.Right p b v x.store) := by
  constructor
  · exact fun r x _ => r.2
  · intro db point x hx hpoint
    obtain ⟨hagree, -, hanswered⟩ := access_right hx.1 hpoint db
    refine ⟨hagree.indexed, fun hsettled => ?_⟩
    rcases hsettled with hstart | ⟨r, hr, hp⟩
    · exact hagree.settled (hx.2 (Or.inl hstart))
    · rcases hanswered r hr with hold | hnew
      · exact hagree.settled (hx.2 (Or.inr ⟨r, hold, hp⟩))
      · exact hagree.settled (hnew hp)
  · exact fun db point x hx hpoint => (access_right hx.1 hpoint db).2.1
  · exact fun db point x hx hpoint q hq => hq.agreeing (access_right hx.1 hpoint db).1

end Agreement

open Interleaving in
/-- However requests interleave, and whatever happens to the other tables meanwhile, no row is there twice.  What all
requests for a project agree on about a box stays from the first moment on at which it is so, whatever requests are on
their way then, and is so when one of them has come to its end. -/
theorem categorize_agreement {s : Categorized} (h : s.Indexed) {p : Nat} {b : CategoryBox} {v : Bool}
    (es es' : List (Event {r : CategorizeRequest // r.Agrees p b v} Database)) :
    let server (es : List (Event {r : CategorizeRequest // r.Agrees p b v} Database)) : CategorizeServer :=
      (Run.after (step (fun r => CategorizePoint.received r.1) CategorizePoint.access) ⟨⟨s, []⟩, []⟩ es).shared
    (server (es ++ es')).store.Indexed ∧
      ((server es).store.AsAsked p b v ∨ (∃ r ∈ (server (es ++ es')).answered, r.project = p) →
        (server (es ++ es')).store.AsAsked p b v) := by
  intro server
  have hrun : ∀ (settled : Prop) (es : List (Event {r : CategorizeRequest // r.Agrees p b v} Database)) z,
      Sound (CategorizeServer.Settles p b v settled) (fun point x => point.Right p b v x.store) z →
      Sound (CategorizeServer.Settles p b v settled) (fun point x => point.Right p b v x.store)
        (Run.after (step (fun r : {r : CategorizeRequest // r.Agrees p b v} => CategorizePoint.received r.1)
          CategorizePoint.access) z es) := by
    intro settled es z hz
    exact Run.invariant (P := fun _ _ => True) (I := Sound _ _) (fun _ e hs _ => (keeps_settles settled).step hs e) hz
      (Run.Along.of_forall (A := fun _ => True) fun _ _ => trivial)
  -- up to the moment nothing is known yet but from an answered request
  have hmoment := hrun False es ⟨⟨s, []⟩, []⟩
    ⟨⟨h, fun hsettled => hsettled.elim False.elim fun ⟨r, hr, _⟩ => absurd hr List.not_mem_nil⟩,
      fun _ hp => absurd hp List.not_mem_nil⟩
  have hlater := hrun ((server es).store.AsAsked p b v) es' _
    ⟨⟨hmoment.shared.1, fun hsettled => hsettled.elim id fun hanswered => hmoment.shared.2 (Or.inr hanswered)⟩,
      hmoment.points⟩
  rw [← Run.after_append] at hlater
  exact hlater.shared

open Interleaving in
/-- Two requests tick one box, and both find the project outside the category.  The second one raises. -/
theorem categorize_twice :
    let ticks (b : CategoryBox) : Option Text := if b = .clothing then some ['1'] else none
    let r : {r : CategorizeRequest // r.Agrees 1 .clothing true} :=
      ⟨⟨ada, 1, ticks⟩, fun _ => by decide +kernel⟩
    let turn (k : Nat) : Event {r : CategorizeRequest // r.Agrees 1 .clothing true} Database :=
      .turn k Categorized.twoCategories.db
    let x := (Run.after (step (fun r => CategorizePoint.received r.1) CategorizePoint.access)
      ⟨⟨.twoCategories, []⟩, []⟩
      ([.arrive r, .arrive r] ++ [0, 1, 0, 1, 0, 1, 0, 1, 0, 0, 0, 0, 0].map turn)).shared
    x.answered.length = 1 ∧ x.store.InCategory 1 .clothing := by
  intro ticks r turn x
  have hlength : x.answered.length = 1 := by decide +kernel
  refine ⟨hlength, ?_⟩
  obtain ⟨a, ha⟩ := List.length_eq_one_iff.mp hlength
  have hall : x.answered.all fun a => a.project == 1 := by decide +kernel
  rw [ha, List.all_cons, List.all_nil, Bool.and_true, beq_iff_eq] at hall
  have hagree := categorize_agreement Categorized.indexed_twoCategories [.arrive r, .arrive r]
    ([0, 1, 0, 1, 0, 1, 0, 1, 0, 0, 0, 0, 0].map turn)
  exact (hagree.2 (Or.inr ⟨a, ha ▸ List.mem_cons_self, hall⟩)).mpr rfl
