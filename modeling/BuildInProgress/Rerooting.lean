import BuildInProgress.PublishedRows
import BuildInProgress.RootDestroy

/-!
# The paths below a destroyed root

When a root with one child goes, its id is taken out of the ancestries of all other steps with a substitution of
text.  The substitution also cuts the end off every component whose digits end in those of the id.
-/

open Text Ancestry Database

namespace Database

/-- The project `p` has the root `r` with the one child `k`; every other path starts with `r` and goes on, as the
process map writes it. -/
structure OneChild (db : Database) (p : Nat) (r k : Step) : Prop where
  root : r ∈ db.projectSteps p
  zero : r.ancestry = some ['0']
  child : k ∈ db.projectSteps p
  first : k.ancestry = some (render [r.id])
  below : ∀ s ∈ db.projectSteps p, s ≠ r → s ≠ k →
    ∃ m, m ≠ [] ∧ r.id ∉ m ∧ s.ancestry = some (render (r.id :: m))
  valid : ∀ s ∈ db.projectSteps p, s.valid = true

/-- The child is the root now, and every other path is what it was without `r`. -/
structure Rerooted (db db' : Database) (p : Nat) (r k : Step) : Prop where
  gone : ∀ s ∈ db'.projectSteps p, s.id ≠ r.id
  child : ∃ k' ∈ db'.projectSteps p, k'.id = k.id ∧ k'.ancestry = some ['0']
  others : ∀ s ∈ db.projectSteps p, s ≠ r → s ≠ k → ∃ s' ∈ db'.projectSteps p, s'.id = s.id ∧
    ancestorIds s'.ancestry = (ancestorIds s.ancestry).filter (· ≠ r.id)

end Database

/-- What a destruction reads of another step. -/
def Step.lineage (s : Step) : Nat × Option Nat × Option Text := (s.id, s.projectId, s.ancestry)

namespace StepsController

/-- A step of the project after the loop over the ancestries. -/
def afterLoop (now : Nat) (d s : Step) : Step := if (rerootedRow now d s).valid then rerootedRow now d s else s

theorem afterLoop_rest (now : Nat) (d s : Step) :
    (afterLoop now d s).id = s.id ∧ (afterLoop now d s).projectId = s.projectId := by
  unfold afterLoop
  split
  · exact ⟨rfl, rfl⟩
  · exact ⟨rfl, rfl⟩

/-- What `destroy` does once the step is gone keeps ids, projects and ancestries. -/
theorem lineage_afterDestroy (u : User) (now : Nat) (project : Project) (d : Step) (db : Database) :
    (afterDestroy u now project d db).steps.rows.map Step.lineage = db.steps.rows.map Step.lineage :=
  map_afterDestroy (fun _ _ _ => rfl) u now project d db

end StepsController

namespace Database.OneChild

open StepsController

variable {db : Database} {p now : Nat} {r k s : Step} {u : User}

theorem pos (h : db.OneChild p r k) : 0 < r.id := (db.steps.bound r (mem_projectSteps.mp h.root).1).1

theorem ancestry (h : db.OneChild p r k) (hs : s ∈ db.projectSteps p) (hsr : s ≠ r) :
    ∃ m, s.ancestry = some (render (r.id :: m)) ∧ r.id ∉ m ∧ (m = [] ↔ s = k) := by
  by_cases hsk : s = k
  · rw [hsk]
    exact ⟨[], h.first, List.not_mem_nil, iff_of_true rfl rfl⟩
  · obtain ⟨m, hm, hr, ha⟩ := h.below s hs hsr hsk
    exact ⟨m, ha, hr, iff_of_false hm hsk⟩

/-- The guard counts the one child. -/
theorem guard (h : db.OneChild p r k) : rootGuard db p r = false := by
  have honly : ∀ s ∈ (db.projectSteps p).filter (·.ancestry = some (toS r.id)), s = k := by
    intro s hs
    obtain ⟨hmem, ha⟩ := List.mem_filter.mp hs
    rw [decide_eq_true_eq, ← render_singleton] at ha
    by_cases hsr : s = r
    · rw [hsr, h.zero, ← render_zero, Option.some.injEq, render_inj] at ha
      have hpos := h.pos
      have hzero := (List.cons.inj ha).1
      omega
    · obtain ⟨m, hm, -, hk⟩ := h.ancestry hmem hsr
      rw [hm, Option.some.injEq, render_inj] at ha
      exact hk.mp (List.cons.inj ha).2
  have hnodup : ((db.projectSteps p).filter (·.ancestry = some (toS r.id))).Nodup :=
    (List.Nodup.of_map _ (db.nodup_projectSteps p)).filter _
  have hlength : ((db.projectSteps p).filter (·.ancestry = some (toS r.id))).length ≤ 1 := by
    generalize (db.projectSteps p).filter (·.ancestry = some (toS r.id)) = l at honly hnodup
    match l, honly, hnodup with
    | [], _, _ => exact Nat.zero_le 1
    | [_], _, _ => exact Nat.le_refl 1
    | a :: b :: _, honly, hnodup =>
      have hab : a = b := (honly a (by simp)).trans (honly b (by simp)).symm
      rw [hab] at hnodup
      simp at hnodup
  unfold rootGuard
  rw [Bool.and_eq_false_iff, decide_eq_false_iff_not]
  exact Or.inr (by omega)

/-- The destruction gets through: the root is gone, and every other step of the project is there with its new
ancestry. -/
theorem destroyed (h : db.OneChild p r k) {key : StepKey} (hfind : db.findStep key = some r)
    (hallowed : Ability.destroyStep db u r = some true) (now : Nat) :
    (destroy u now p key db).1 = .ok ∧ (∀ s ∈ (destroy u now p key db).2.projectSteps p, s.id ≠ r.id) ∧
    ∀ s ∈ db.projectSteps p, s ≠ r →
      ∃ s' ∈ (destroy u now p key db).2.projectSteps p, s'.id = s.id ∧
        s'.ancestry = (adopted now r (afterLoop now r s)).ancestry := by
  obtain ⟨hrow, hp⟩ := mem_projectSteps.mp h.root
  obtain ⟨project, hproject⟩ : ∃ project, db.projects.find? p = some project := by
    rw [Ability.destroyStep, hp, Ability.authorOf, Option.bind_some] at hallowed
    cases hproject : db.projects.find? p with
    | none =>
      rw [hproject] at hallowed
      cases hallowed
    | some project => exact ⟨project, rfl⟩
  have hmem : ∀ s, s ∈ (db.projectSteps p).filter (·.id ≠ r.id) ↔ s ∈ db.projectSteps p ∧ s ≠ r := by
    intro s
    rw [List.mem_filter, decide_eq_true_eq]
    apply and_congr_right
    intro hs
    exact not_congr ⟨fun hid => Table.eq_of_key (mem_projectSteps.mp hs).1 hrow hid, congrArg Step.id⟩
  -- every other step has an ancestry, so the loop does not stop
  obtain ⟨hdone, hrows⟩ := rows_reroot now r (l := (db.projectSteps p).filter (·.id ≠ r.id))
    (fun s hs => by
      obtain ⟨m, hm, -⟩ := h.ancestry ((hmem s).mp hs).1 ((hmem s).mp hs).2
      rw [hm]
      exact Option.some_ne_none _)
    ((db.nodup_projectSteps p).sublist (List.filter_sublist.map _))
    (fun s hs => (mem_projectSteps.mp ((hmem s).mp hs).1).1)
  have heq : destroy u now p key db = (.ok, afterDestroy u now project r
      ((forgetStep (reroot now r ((db.projectSteps p).filter (·.id ≠ r.id)) db).2 r).destroyStep now r)) := by
    rw [destroy, hproject]
    dsimp only
    rw [hfind]
    dsimp only
    rw [hallowed, authorize, h.guard, if_neg Bool.false_ne_true, if_pos h.zero, if_pos hdone]
  rw [heq]
  have hlineage := lineage_afterDestroy u now project r
    ((forgetStep (reroot now r ((db.projectSteps p).filter (·.id ≠ r.id)) db).2 r).destroyStep now r)
  generalize afterDestroy u now project r
    ((forgetStep (reroot now r ((db.projectSteps p).filter (·.id ≠ r.id)) db).2 r).destroyStep now r) = db' at hlineage
  rw [rows_destroyStep, steps_forgetStep] at hlineage
  refine ⟨rfl, ?_, ?_⟩
  · intro s hs hid
    have hin := List.mem_map_of_mem (f := Step.lineage) (mem_projectSteps.mp hs).1
    rw [hlineage] at hin
    obtain ⟨t, ht, heq'⟩ := List.mem_map.mp hin
    have hne := (List.mem_filter.mp ht).2
    rw [decide_eq_true_eq] at hne
    exact hne ((congrArg Prod.fst heq').trans hid)
  intro s hs hsr
  -- the row of `s` after each part
  have hrow₁ : afterLoop now r s ∈ (reroot now r ((db.projectSteps p).filter (·.id ≠ r.id)) db).2.steps.rows := by
    rw [hrows]
    refine List.mem_map.mpr ⟨s, (mem_projectSteps.mp hs).1, ?_⟩
    have hin := (hmem s).mpr ⟨hs, hsr⟩
    unfold afterLoop
    by_cases hv : (rerootedRow now r s).valid = true
    · rw [if_pos ⟨hin, hv⟩, if_pos hv]
    · rw [if_neg fun hc => hv hc.2, if_neg hv]
  obtain ⟨hid₁, hproject₁⟩ := afterLoop_rest now r s
  obtain ⟨hid₂, -, -, hproject₂⟩ := StepTree.adopted_rest now r (afterLoop now r s)
  have hrow₂ : (adopted now r (afterLoop now r s)).lineage ∈ db'.steps.rows.map Step.lineage := by
    rw [hlineage]
    refine List.mem_map_of_mem (List.mem_filter.mpr ⟨List.mem_map_of_mem hrow₁, ?_⟩)
    rw [decide_eq_true_eq, hid₂, hid₁]
    exact fun hid => hsr (Table.eq_of_key (mem_projectSteps.mp hs).1 hrow hid)
  obtain ⟨s', hs', heq'⟩ := List.mem_map.mp hrow₂
  have hid' : s'.id = (adopted now r (afterLoop now r s)).id := congrArg Prod.fst heq'
  have hproject' : s'.projectId = (adopted now r (afterLoop now r s)).projectId := congrArg (fun x => x.2.1) heq'
  refine ⟨s', mem_projectSteps.mpr ⟨hs', ?_⟩, ?_, congrArg (fun x => x.2.2) heq'⟩
  · rw [hproject', hproject₂, hproject₁, (mem_projectSteps.mp hs).2]
  · rw [hid', hid₂, hid₁]

end Database.OneChild

namespace StepsController

section

variable {db : Database} {p now : Nat} {r k s : Step} {u : User} {m : List Nat}

theorem childAncestry_zero (hr : r.ancestry = some ['0']) : r.childAncestry = render [0, r.id] := by
  rw [Step.childAncestry, hr, ← render_zero, childAncestry_render (by simp)]
  rfl

/-- The adoption leaves a path alone that does not start at `"0/"`. -/
theorem adopted_eq (hr : r.ancestry = some ['0']) (hs : s.ancestry = some (render m)) (hm : ¬ [0, r.id] <+: m) :
    (adopted now r s).ancestry = some (render m) := by
  have hdesc : ¬ r.isDescendant s = true := by
    rw [Step.isDescendant, childAncestry_zero hr, hs, descendant_render (by simp)]
    exact hm
  rw [adopted, if_neg hdesc, hs]

/-- The adoption never makes a path longer. -/
theorem length_adopted_le (now : Nat) (r s : Step) :
    (ancestorIds (adopted now r s).ancestry).length ≤ (ancestorIds s.ancestry).length := by
  unfold adopted
  split
  · show (ancestorIds (some (render ((ancestorIds s.ancestry).filter (· ≠ r.id))))).length ≤ _
    rw [ancestorIds_render]
    exact List.length_filter_le _ _
  · exact Nat.le_refl _

/-- The child of the root gets the ancestry `"0"`. -/
theorem child_rerooted (h : db.OneChild p r k) (now : Nat) :
    (adopted now r (afterLoop now r k)).ancestry = some ['0'] := by
  have hpos : 0 < k.id := (db.steps.bound k (mem_projectSteps.mp h.child).1).1
  have hrow : rerootedRow now r k = { k with ancestry := some (render [0]), updatedAt := now } := by
    rw [rerootedRow, h.first, Option.map_some, rerooted, if_pos (render_singleton r.id), render_zero]
  have hvalid : (rerootedRow now r k).valid = true := by
    refine (Step.valid_path (t := rerootedRow now r k) (h.valid k h.child) rfl rfl (by rw [hrow]) (by simp)).mpr ?_
    rw [List.mem_singleton]
    omega
  rw [afterLoop, if_pos hvalid, ← render_zero]
  refine adopted_eq h.zero (by rw [hrow]) fun hp => ?_
  exact absurd hp.length_le (by simp)

/-- What the loop makes of a longer path. -/
theorem rerootedRow_long (now : Nat) (hs : s.ancestry = some (render (r.id :: m))) (hm : m ≠ []) :
    (rerootedRow now r s).ancestry = some (gsub (toS r.id ++ ['/']) [] (render (r.id :: m))) := by
  have hbare : render (r.id :: m) ≠ toS r.id := by
    rw [← render_singleton]
    intro heq
    exact hm (List.cons.inj (render_injective heq)).2
  rw [rerootedRow, hs, Option.map_some, rerooted, if_neg hbare]

/-- A path whose components stand apart from the digits of the root's id loses the root and nothing else. -/
theorem path_rerooted (hr : r.ancestry = some ['0']) (hvalid : s.valid = true)
    (hs : s.ancestry = some (render (r.id :: m))) (hm : m ≠ []) (hrm : r.id ∉ m)
    (hapart : ∀ i ∈ m.dropLast, ¬ toS r.id <:+ toS i) :
    (adopted now r (afterLoop now r s)).ancestry = some (render m) := by
  have hrow : rerootedRow now r s = { s with ancestry := some (render m), updatedAt := now } := by
    -- only the component of the root is cut out, and the last one has no slash behind it
    have hcut : gsub (toS r.id ++ ['/']) [] (render (r.id :: m)) = render m := by
      have hlast := List.dropLast_append_getLast hm
      have hkeep : (m.dropLast).filter (· ≠ r.id) = m.dropLast := by
        rw [List.filter_eq_self]
        intro i hi
        rw [decide_eq_true_eq]
        intro heq
        exact hrm (heq ▸ List.mem_of_mem_dropLast hi)
      rw [← hlast, ← List.cons_append, gsub_render, List.filter_cons_of_neg (by simp), hkeep]
      intro i hi hne
      rcases List.mem_cons.mp hi with heq | hi
      · exact absurd heq hne
      · exact hapart i hi
    have hancestry := rerootedRow_long now hs hm
    rw [hcut] at hancestry
    rw [← hancestry]
    rfl
  have hown : s.id ∉ m := by
    rw [Step.valid, Bool.and_eq_true, hs, ancestorIds_render, List.contains_eq_mem, Bool.not_eq_true',
      decide_eq_false_iff_not] at hvalid
    exact fun hmem => hvalid.2 (List.mem_cons_of_mem _ hmem)
  have hv : (rerootedRow now r s).valid = true :=
    (Step.valid_path (t := rerootedRow now r s) hvalid rfl rfl (by rw [hrow]) hm).mpr hown
  rw [afterLoop, if_pos hv]
  exact adopted_eq hr (by rw [hrow]) fun hp => hrm (hp.subset (by simp))

/-- Where another component in front of the last one ends in the digits of the root's id, the path does not come
out: the substitution leaves too few components, and a row it makes invalid keeps the root. -/
theorem path_cut (hr : r.ancestry = some ['0']) (hpos : 0 < r.id) (hs : s.ancestry = some (render (r.id :: m)))
    {i : Nat} (hi : i ∈ m.dropLast) (hsuffix : toS r.id <:+ toS i) :
    ancestorIds (adopted now r (afterLoop now r s)).ancestry ≠ m := by
  have hm : m ≠ [] := by
    intro hnil
    rw [hnil] at hi
    cases hi
  unfold afterLoop
  split
  -- each component that ends in the digits loses its slash, which leaves one component less
  · intro heq
    have hlast := List.dropLast_append_getLast hm
    have hcount : (ancestorIds (rerootedRow now r s).ancestry).length ≤
        ((r.id :: m.dropLast).filter fun i => ¬ toS r.id <:+ toS i).length + 1 := by
      rw [rerootedRow_long now hs hm, ← count_gsub_render r.id (r.id :: m.dropLast) (m.getLast hm), List.cons_append, hlast,
        ancestorIds, List.length_map]
      exact length_split_le '/' _
    have hfewer : ((r.id :: m.dropLast).filter fun i => ¬ toS r.id <:+ toS i).length < m.dropLast.length := by
      rw [List.filter_cons_of_neg (by simp)]
      exact List.length_filter_lt_length_iff_exists.mpr ⟨i, hi, by simpa using hsuffix⟩
    have hadopted := length_adopted_le now r (rerootedRow now r s)
    rw [heq] at hadopted
    have hlength : m.dropLast.length = m.length - 1 := List.length_dropLast
    omega
  · -- the row keeps its path, with the root in front
    rw [adopted_eq hr hs, ancestorIds_render]
    · intro heq
      exact absurd (congrArg List.length heq) (by simp)
    · intro hp
      have hzero := (List.cons_prefix_cons.mp hp).1
      omega

end

end StepsController

open StepsController

/-- A request that takes another step leaves the root where it is. -/
theorem StepsController.root_left {db : Database} {p : Nat} {r : Step} {u : User} {now : Nat} {key : StepKey}
    (hr : r ∈ db.projectSteps p) (hfind : db.findStep key ≠ some r) (hok : (destroy u now p key db).1 = .ok) :
    ∃ s ∈ (destroy u now p key db).2.projectSteps p, s.id = r.id := by
  obtain ⟨project, d, -, hd, hstanding, -⟩ := rows_destroy hok
  obtain ⟨hrow, hp⟩ := mem_projectSteps.mp hr
  have hne : r.id ≠ d.id := by
    intro hid
    rw [hd, Table.eq_of_key (mem_of_findStep hd) hrow hid.symm] at hfind
    exact hfind rfl
  have hmem : r.standing ∈ (destroy u now p key db).2.steps.rows.map Step.standing := by
    rw [hstanding]
    exact List.mem_filter.mpr ⟨List.mem_map_of_mem hrow, decide_eq_true hne⟩
  obtain ⟨s, hs, heq⟩ := List.mem_map.mp hmem
  exact ⟨s, mem_projectSteps.mpr ⟨hs, (congrArg (fun x => x.2.1) heq).trans hp⟩, congrArg Prod.fst heq⟩

/-- A root with one child is taken out of every path exactly when the request finds it and no component in front of
the last one ends in the digits of its id. -/
theorem reroot_exact_iff {db : Database} {p : Nat} {r k : Step} {u : User} (h : db.OneChild p r k)
    (hallowed : Ability.destroyStep db u r = some true) (now : Nat) (key : StepKey) :
    ((destroy u now p key db).1 = .ok ∧ db.Rerooted (destroy u now p key db).2 p r k) ↔
      db.findStep key = some r ∧ DigitsApart db p r := by
  by_cases hfind : db.findStep key = some r
  swap
  · refine iff_of_false (fun hexact => ?_) (fun hc => hfind hc.1)
    obtain ⟨s, hs, hid⟩ := root_left h.root hfind hexact.1
    exact hexact.2.gone s hs hid
  rw [and_iff_right hfind]
  obtain ⟨hok, hgone, hrows⟩ := h.destroyed hfind hallowed now
  have hzero : ¬ k = r := by
    intro heq
    have hfirst := h.first
    rw [heq, h.zero, ← render_zero, Option.some.injEq, render_inj] at hfirst
    have hpos := h.pos
    have hid := (List.cons.inj hfirst).1
    omega
  have hfilter : ∀ m : List Nat, r.id ∉ m → (r.id :: m).filter (· ≠ r.id) = m := by
    intro m hm
    rw [List.filter_cons_of_neg (by simp), List.filter_eq_self]
    intro i hi
    rw [decide_eq_true_eq]
    exact fun heq => hm (heq ▸ hi)
  -- the components are those of a path below the root, so `path_cut` and `path_rerooted` decide
  constructor
  · intro hexact s hs i hi hne hsuffix
    by_cases hsr : s = r
    · rw [hsr, h.zero, ← render_zero, ancestorIds_render] at hi
      cases hi
    obtain ⟨m, ha, hrm, hk⟩ := h.ancestry hs hsr
    rw [ha, ancestorIds_render] at hi
    have hm : m ≠ [] := by
      intro hnil
      rw [hnil] at hi
      cases hi
    rw [List.dropLast_cons_of_ne_nil hm, List.mem_cons] at hi
    obtain ⟨s', hs', hid, hpath⟩ := hexact.2.others s hs hsr fun heq => hm (hk.mpr heq)
    obtain ⟨s'', hs'', hid', hpath'⟩ := hrows s hs hsr
    have hsame : s' = s'' :=
      Table.eq_of_key (mem_projectSteps.mp hs').1 (mem_projectSteps.mp hs'').1 (hid.trans hid'.symm)
    rw [ha, ancestorIds_render, hfilter m hrm, hsame, hpath'] at hpath
    exact path_cut h.zero h.pos ha (hi.resolve_left hne) hsuffix hpath
  · intro hapart
    refine ⟨hok, hgone, ?_, ?_⟩
    · obtain ⟨k', hk', hid, hpath⟩ := hrows k h.child hzero
      exact ⟨k', hk', hid, hpath.trans (child_rerooted h now)⟩
    · intro s hs hsr hsk
      obtain ⟨s', hs', hid, hpath⟩ := hrows s hs hsr
      obtain ⟨m, hm, hrm, ha⟩ := h.below s hs hsr hsk
      refine ⟨s', hs', hid, ?_⟩
      rw [hpath, ha, ancestorIds_render, hfilter m hrm, path_rerooted h.zero (h.valid s hs) ha hm hrm, ancestorIds_render]
      intro i hi
      refine hapart s hs i ?_ ?_
      · rw [ha, ancestorIds_render, List.dropLast_cons_of_ne_nil hm]
        exact List.mem_cons_of_mem _ hi
      · exact fun heq => hrm (heq ▸ List.mem_of_mem_dropLast hi)

/-- The root 11, its child `k`, `s` below `k` and `t` below `s`, all in project 1. -/
def stepChain (k s t : Nat) : List Step :=
  let step (i : Nat) (position : Int) (ancestry : Text) : Step :=
    { blankStep i 1 0 with name := "Saw".toList, position, ancestry := some ancestry }
  [step 11 0 ['0'], step k 1 (render [11]), step s 2 (render [11, k]), step t 3 (render [11, k, s])]

/-- What `OneChild` asks of the other paths, read off the ids. -/
theorem Database.OneChild.of_tails {db : Database} {p : Nat} {r k : Step}
    (h : r ∈ db.projectSteps p ∧ r.ancestry = some ['0'] ∧ k ∈ db.projectSteps p ∧ k.ancestry = some (render [r.id]) ∧
      (∀ s ∈ db.projectSteps p, s ≠ r → s ≠ k → (ancestorIds s.ancestry).tail ≠ [] ∧
        r.id ∉ (ancestorIds s.ancestry).tail ∧ s.ancestry = some (render (r.id :: (ancestorIds s.ancestry).tail))) ∧
      ∀ s ∈ db.projectSteps p, s.valid = true) : db.OneChild p r k where
  root := h.1
  zero := h.2.1
  child := h.2.2.1
  first := h.2.2.2.1
  below := fun s hs hsr hsk => ⟨_, h.2.2.2.2.1 s hs hsr hsk⟩
  valid := h.2.2.2.2.2

/-- Steps 11 to 14 in a row. -/
def Database.fourInARow : Database :=
  { oneProject "Lamp".toList none with steps := .ofRows (stepChain 12 13 14) 15 (by decide) }

theorem reroot_exact_four :
    ∃ r k, fourInARow.OneChild 1 r k ∧ (destroy ada 5 1 (.ofId r.id) fourInARow).1 = .ok ∧
      fourInARow.Rerooted (destroy ada 5 1 (.ofId r.id) fourInARow).2 1 r k := by
  have hone : fourInARow.OneChild 1 (stepChain 12 13 14)[0] (stepChain 12 13 14)[1] := .of_tails (by decide +kernel)
  exact ⟨_, _, hone, (reroot_exact_iff hone (by decide +kernel) 5 _).mpr (by decide +kernel)⟩

/-- The root 11, its child 211 and the step 300 below: `gsub` makes 2300 of 211/300. -/
def Database.digitsMeet : Database :=
  { oneProject "Lamp".toList none with steps := .ofRows (stepChain 211 300 400) 401 (by decide) }

theorem reroot_joins_digits :
    ∃ r k, digitsMeet.OneChild 1 r k ∧ Ability.destroyStep digitsMeet ada r = some true ∧
      digitsMeet.findStep (.ofId r.id) = some r ∧
      ¬ digitsMeet.Rerooted (destroy ada 5 1 (.ofId r.id) digitsMeet).2 1 r k := by
  refine ⟨(stepChain 211 300 400)[0], (stepChain 211 300 400)[1], .of_tails (by decide +kernel), by decide +kernel,
    by decide +kernel, ?_⟩
  intro h
  obtain ⟨s, hs, hid, hpath⟩ := h.others (stepChain 211 300 400)[3] (by decide +kernel) (by decide +kernel)
    (by decide +kernel)
  have hjoined : ∀ s ∈ (destroy ada 5 1 (.ofId 11) digitsMeet).2.projectSteps 1, s.id = 400 →
      ancestorIds s.ancestry = [2300] := by decide +kernel
  have hbefore : (ancestorIds (stepChain 211 300 400)[3].ancestry).filter (· ≠ 11) = [211, 300] := by decide +kernel
  exact absurd ((hjoined s hs hid).symm.trans (hpath.trans hbefore)) (by decide)
