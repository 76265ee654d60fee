import BuildInProgress.StepRuns

/-!
# Destroying the root

`destroy` refuses a root that the process map has written with `"0"` and that has two or more
children written with its bare id.  Any other root goes: the controller takes its id out of the
ancestries as text, the ancestry gem takes it out of what still counts as a descendant, and every
child of the root ends at the top.
-/

open Text Ancestry StepsController

namespace Text

/-- Taking the text `d/` out of a path takes out the component `d`, except at the end, when no other
component in front of the last ends in the digits of `d`. -/
theorem gsub_render {d : Nat} {m : List Nat} (h : ∀ i ∈ m, i ≠ d → ¬ toS d <:+ toS i) (x : Nat) :
    gsub (toS d ++ ['/']) [] (render (m ++ [x])) = render (m.filter (· ≠ d) ++ [x]) := by
  induction m with
  | nil =>
    rw [List.nil_append, List.filter_nil, List.nil_append, render_singleton]
    exact gsub_of_notMem (show '/' ∈ _ by simp) [] (toS x) (slash_notMem_toS x)
  | cons a m ih =>
    have ih := ih fun i hi => h i (List.mem_cons_of_mem _ hi)
    rw [List.cons_append, render_cons (by simp)]
    by_cases ha : a = d
    · subst ha
      rw [gsub_match, List.nil_append, ih]
      simp
    · rw [gsub_field (slash_notMem_toS d) [] (toS a) _ (slash_notMem_toS a)
        (h a List.mem_cons_self ha), ih, List.filter_cons_of_pos (by simpa using ha),
        List.cons_append, render_cons (by simp)]

end Text

namespace StepsController

/-- The steps directly below `d`, in either encoding. -/
def childrenOf (db : Database) (p : Nat) (d : Step) : List Step :=
  (db.projectSteps p).filter (·.ancestry.map getParent = some (toS d.id))

/-- No component in front of the last one of an ancestry ends in the digits of `d`, except `d`. -/
def DigitsApart (db : Database) (p : Nat) (d : Step) : Prop :=
  ∀ s ∈ db.projectSteps p, ∀ i ∈ (ancestorIds s.ancestry).dropLast, i ≠ d.id → ¬ toS d.id <:+ toS i

instance (db : Database) (p : Nat) (d : Step) : Decidable (DigitsApart db p d) :=
  inferInstanceAs (Decidable (∀ s ∈ db.projectSteps p, ∀ i ∈ (ancestorIds s.ancestry).dropLast,
    i ≠ d.id → ¬ toS d.id <:+ toS i))

/-- The root can be destroyed without leaving two roots: the user may not do it, or the guard holds,
or there is at most one child and the substitution hits nothing but the root's id. -/
def RootOk (p : Nat) (db : Database) (u : User) (d : Step) : Prop :=
  db.author p u.id = false ∨ rootGuard db p d = true ∨
    ((childrenOf db p d).length ≤ 1 ∧ (d.ancestry = some ['0'] → DigitsApart db p d))

instance (p : Nat) (db : Database) (u : User) (d : Step) : Decidable (RootOk p db u d) :=
  inferInstanceAs (Decidable (_ ∨ _ ∨ _ ∧ (_ → _)))

/-! ## The loop over the ancestries -/

/-- A row after the loop. -/
def rerootedRow (now : Nat) (d s : Step) : Step :=
  { s with ancestry := s.ancestry.map (rerooted d), updatedAt := now }

/-- The loop writes the rows that stay valid. -/
theorem rows_reroot (now : Nat) (d : Step) {l : List Step} {db : Database} (hanc : ∀ s ∈ l, s.ancestry ≠ none)
    (hn : (l.map Step.id).Nodup) (hrows : ∀ s ∈ l, s ∈ db.steps.rows) :
    (reroot now d l db).1 = true ∧ (reroot now d l db).2.steps.rows = db.steps.rows.map fun s =>
      if s ∈ l ∧ (rerootedRow now d s).valid = true then rerootedRow now d s else s := by
  induction l generalizing db with
  | nil =>
    refine ⟨rfl, (List.map_eq_self_of_forall fun s _ => if_neg fun hc => ?_).symm⟩
    cases hc.1
  | cons s l ih =>
    obtain ⟨a, ha⟩ := Option.ne_none_iff_exists'.mp (hanc s List.mem_cons_self)
    rw [List.map_cons, List.nodup_cons] at hn
    have hsl : ∀ t ∈ l, t.id ≠ s.id := fun t ht heq => hn.1 (List.mem_map.mpr ⟨t, ht, heq⟩)
    -- the row of `s` is written, if it can be
    have hone : ((db.saveStep (some now) { s with ancestry := some (rerooted d a) }).getD db).steps.rows =
        db.steps.rows.map fun r => if r.id = s.id ∧ (rerootedRow now d s).valid = true then rerootedRow now d s else r := by
      have hrow : rerootedRow now d s = { s with ancestry := some (rerooted d a), updatedAt := now } := by
        rw [rerootedRow, ha, Option.map_some]
      have hvalid : ({ s with ancestry := some (rerooted d a) } : Step).valid = (rerootedRow now d s).valid := by
        rw [hrow]
        rfl
      rw [Database.saveStep]
      by_cases hv : (rerootedRow now d s).valid = true
      · rw [if_pos (hvalid.trans hv), Option.getD_some, Database.rows_storeStep]
        apply List.map_congr_left
        intro r _
        by_cases hid : r.id = s.id
        · rw [if_pos (by exact hid), if_pos ⟨hid, hv⟩, hrow]
          rfl
        · rw [if_neg (by exact hid), if_neg fun hc => hid hc.1]
      · rw [if_neg (by rw [hvalid]; exact hv), Option.getD_none]
        exact (List.map_eq_self_of_forall fun r _ => if_neg fun hc => hv hc.2).symm
    obtain ⟨hdone, hrest⟩ := @ih ((db.saveStep (some now) { s with ancestry := some (rerooted d a) }).getD db)
      (fun t ht => hanc t (List.mem_cons_of_mem s ht)) hn.2 (fun t ht => by
        rw [hone]
        exact List.mem_map.mpr ⟨t, hrows t (List.mem_cons_of_mem s ht), if_neg fun hc => hsl t ht hc.1⟩)
    rw [reroot, ha]
    dsimp only
    refine ⟨hdone, ?_⟩
    rw [hrest, hone, List.map_map]
    apply List.map_congr_left
    intro r hr
    rw [Function.comp]
    by_cases hid : r.id = s.id
    · obtain rfl : r = s := Table.eq_of_key hr (hrows s List.mem_cons_self) hid
      have hnot : ∀ x : Step, x.id = r.id → x ∉ l := fun x hx hmem => hsl x hmem hx
      by_cases hv : (rerootedRow now d r).valid = true
      · have hfirst : (if r.id = r.id ∧ (rerootedRow now d r).valid = true then rerootedRow now d r else r) =
            rerootedRow now d r := if_pos ⟨rfl, hv⟩
        rw [hfirst, if_neg fun hc => hnot (rerootedRow now d r) rfl hc.1, if_pos ⟨List.mem_cons_self, hv⟩]
      · have hfirst : (if r.id = r.id ∧ (rerootedRow now d r).valid = true then rerootedRow now d r else r) = r :=
          if_neg fun hc => hv hc.2
        rw [hfirst, if_neg fun hc => hnot _ rfl hc.1, if_neg fun hc => hv hc.2]
    · have hmem : r ∈ s :: l ↔ r ∈ l := by
        rw [List.mem_cons]
        exact ⟨fun hc => hc.resolve_left fun heq => hid (congrArg Step.id heq), Or.inr⟩
      have hfirst : (if r.id = s.id ∧ (rerootedRow now d s).valid = true then rerootedRow now d s else r) = r :=
        if_neg fun hc => hid hc.1
      rw [hfirst]
      simp only [hmem]

theorem projectSteps_reroot (db : Database) (now : Nat) {p : Nat} {d : Step}
    (hanc : ∀ s ∈ db.projectSteps p, s.id ≠ d.id → s.ancestry ≠ none)
    (hvalid : ∀ s ∈ db.projectSteps p, s.id ≠ d.id → (rerootedRow now d s).valid = true) :
    let r := reroot now d ((db.projectSteps p).filter (·.id ≠ d.id)) db
    r.1 = true ∧ r.2.projectSteps p =
      (db.projectSteps p).map fun s => if s.id ≠ d.id then rerootedRow now d s else s := by
  have hmem : ∀ s, s ∈ (db.projectSteps p).filter (·.id ≠ d.id) ↔ s ∈ db.projectSteps p ∧ s.id ≠ d.id := by
    intro s
    rw [List.mem_filter, decide_eq_true_eq]
  obtain ⟨hdone, hrows⟩ := rows_reroot now d (l := (db.projectSteps p).filter (·.id ≠ d.id))
    (fun s hs => hanc s ((hmem s).mp hs).1 ((hmem s).mp hs).2)
    ((db.nodup_projectSteps p).sublist (List.filter_sublist.map _))
    (fun s hs => (Database.mem_projectSteps.mp ((hmem s).mp hs).1).1)
  refine ⟨hdone, ?_⟩
  rw [Database.projectSteps, hrows, List.filter_map, Database.projectSteps]
  have hproj : ((fun s : Step => decide (s.projectId = some p)) ∘ fun s =>
      if s ∈ (db.projectSteps p).filter (·.id ≠ d.id) ∧ (rerootedRow now d s).valid = true then rerootedRow now d s
      else s) = fun s => decide (s.projectId = some p) := by
    funext s
    rw [Function.comp]
    split <;> rfl
  rw [Database.projectSteps] at hproj
  rw [hproj]
  apply List.map_congr_left
  intro s hs
  by_cases hid : s.id ≠ d.id
  · rw [if_pos ⟨(hmem s).mpr ⟨hs, hid⟩, hvalid s hs hid⟩, if_pos hid]
  · rw [if_neg fun hc => hid ((hmem s).mp hc.1).2, if_neg hid]

end StepsController

/-! ## The tree without its root -/

namespace StepTree

variable {db : Database} {p : Nat} {free : Int} {ns : List Step} {d : Step}

/-- Every path starts at the root, behind a zero only if the root holds `"0"`. -/
theorem path_from_root (h : StepTree free ns) (hd : d ∈ ns) (hd0 : d.position = 0) {s : Step}
    (hs : s ∈ ns) (hsd : s ≠ d) {l : List Nat} (hl : s.ancestry = some (render l)) :
    (∃ m, l = d.id :: m ∧ d.id ∉ m) ∨
      (d.ancestry = some ['0'] ∧ ∃ m, l = 0 :: d.id :: m ∧ d.id ∉ m) := by
  have hdpos := h.pos d hd
  revert hsd l
  refine h.parent_induction
    (P := fun s => s ≠ d → ∀ {l : List Nat}, s.ancestry = some (render l) →
      (∃ m, l = d.id :: m ∧ d.id ∉ m) ∨
        (d.ancestry = some ['0'] ∧ ∃ m, l = 0 :: d.id :: m ∧ d.id ∉ m)) ?_ ?_ hs
  · intro s hs h0 hsd
    exact absurd (h.eq_of_position hs hd (by omega)) hsd
  · intro s _ _ q hq _ hc ih _ l hl
    by_cases hqd : q = d
    · -- a child of the root
      subst hqd
      rcases hc with ⟨lq, hlq, hqa, hsa⟩ | ⟨-, hsa⟩
      · have hzero := path_of_topLevel (h.root q hq hd0) hlq hqa
        rw [hl, Option.some.injEq, render_inj, hzero] at hsa
        rw [hzero, render_zero] at hqa
        exact Or.inr ⟨hqa, [], hsa, by simp⟩
      · rw [hl, Option.some.injEq, render_inj] at hsa
        exact Or.inl ⟨[], hsa, by simp⟩
    · have hqid : d.id ≠ q.id := fun he => hqd (h.eq_of_id hq hd he.symm)
      rcases hc with ⟨lq, hlq, hqa, hsa⟩ | ⟨hqt, -⟩
      · rw [hl, Option.some.injEq, render_inj] at hsa
        subst hsa
        rcases ih hqd hqa with ⟨m, rfl, hm⟩ | ⟨h0, m, rfl, hm⟩
        · exact Or.inl ⟨m ++ [q.id], by simp, by simp [hm, hqid]⟩
        · exact Or.inr ⟨h0, m ++ [q.id], by simp, by simp [hm, hqid]⟩
      · have hq0 := (h.topLevel_iff_position hq).mp hqt
        exact absurd (h.eq_of_position hq hd (by omega)) hqd

/-- What the loop and the adoption together make of a path below a root with the ancestry `"0"`. -/
theorem rerooted_path (h : StepTree free ns) (hd : d ∈ ns) (hd0 : d.position = 0)
    (hda : d.ancestry = some ['0']) {s : Step} (hs : s ∈ ns) (hsd : s ≠ d) {l : List Nat}
    (hl : s.ancestry = some (render l))
    (hdigits : ∀ i ∈ l.dropLast, i ≠ d.id → ¬ toS d.id <:+ toS i) :
    ∃ l', l' ≠ [] ∧ rerooted d (render l) = render l' ∧ s.id ∉ l' ∧
      (if d.isDescendant { s with ancestry := some (render l') } = true then
        adopt d.id (some (render l')) else render l') =
        if l.filter (· ≠ d.id) = [] then ['0'] else render (l.filter (· ≠ d.id)) := by
  have hdpos := h.pos d hd
  have hspos := h.pos s hs
  have hne0 : (0 : Nat) ≠ d.id := by omega
  have hsl : s.id ∉ l := by
    refine h.notMem_path hs (fun h0 => hsd (h.eq_of_position hs hd (by omega))) hl
  have hkeep : ∀ m : List Nat, d.id ∉ m → m.filter (· ≠ d.id) = m := fun _ hm => filter_ne_of_notMem hm
  have hchild : d.childAncestry = render [0, d.id] := by
    rw [Step.childAncestry, hda, ← render_zero, childAncestry_render (by simp)]
    rfl
  have hdesc : ∀ m : List Nat, d.isDescendant { s with ancestry := some (render m) } = true ↔
      [0, d.id] <+: m := by
    intro m
    rw [Step.isDescendant, hchild]
    exact descendant_render (by simp)
  -- the loop takes the id out of all but the last place of the path
  have hgsub : ∀ m x, l = m ++ [x] → l ≠ [d.id] →
      rerooted d (render l) = render (m.filter (· ≠ d.id) ++ [x]) := by
    intro m x hm hne
    have hbare : render l ≠ toS d.id := by
      rw [← render_singleton]
      exact fun he => hne (render_injective he)
    rw [rerooted, if_neg hbare, hm, gsub_render]
    intro i hi
    exact hdigits i (by rw [hm, List.dropLast_concat]; exact hi)
  rcases h.path_from_root hd hd0 hs hsd hl with ⟨m, rfl, hm⟩ | ⟨-, m, rfl, hm⟩
  · rcases List.eq_nil_or_concat m with rfl | ⟨m', x, rfl⟩
    · -- the child becomes the root
      refine ⟨[0], by simp, ?_, by simp; omega, ?_⟩
      · rw [rerooted, if_pos (render_singleton d.id), render_zero]
      · rw [if_neg (by rw [hdesc]; simp), if_pos (by simp), render_zero]
    · rw [List.concat_eq_append] at hm hl hsl hgsub ⊢
      have hfilter : (d.id :: (m' ++ [x])).filter (· ≠ d.id) = m' ++ [x] := by
        rw [List.filter_cons_of_neg (by simp), hkeep _ hm]
      refine ⟨m' ++ [x], by simp, ?_, fun hmem => hsl (List.mem_cons_of_mem _ hmem), ?_⟩
      · rw [hgsub (d.id :: m') x rfl (by simp), List.filter_cons_of_neg (by simp),
          hkeep m' fun h' => hm (List.mem_append_left _ h')]
      · rw [if_neg fun hp => hm (((hdesc _).mp hp).subset (by simp)), hfilter, if_neg (by simp)]
  · rcases List.eq_nil_or_concat m with rfl | ⟨m', x, rfl⟩
    · -- the loop leaves this child alone, the adoption takes the root out
      have hfilter : [0, d.id].filter (· ≠ d.id) = [0] := by simp [hne0]
      refine ⟨[0, d.id], by simp, ?_, hsl, ?_⟩
      · rw [hgsub [0] d.id rfl (by simp), hkeep [0] (by simp; omega)]
        rfl
      · rw [if_pos ((hdesc _).mpr (List.prefix_refl _)), adopt_render, hfilter, if_neg (by simp)]
    · rw [List.concat_eq_append] at hm hl hsl hgsub ⊢
      have hfilter : (0 :: d.id :: (m' ++ [x])).filter (· ≠ d.id) = 0 :: (m' ++ [x]) := by
        rw [List.filter_cons_of_pos (by simpa using hne0), List.filter_cons_of_neg (by simp),
          hkeep _ hm]
      refine ⟨0 :: (m' ++ [x]), by simp, ?_, ?_, ?_⟩
      · rw [hgsub (0 :: d.id :: m') x rfl (by simp), List.filter_cons_of_pos (by simpa using hne0),
          List.filter_cons_of_neg (by simp), hkeep m' fun h' => hm (List.mem_append_left _ h')]
        rfl
      · intro hmem
        rcases List.mem_cons.mp hmem with h0 | hmem
        · omega
        · exact hsl (List.mem_cons_of_mem _ (List.mem_cons_of_mem _ hmem))
      · rw [if_neg fun hp => ?_, hfilter, if_neg (by simp)]
        rw [hdesc, List.cons_prefix_cons] at hp
        exact hm (hp.2.subset (by simp))

/-- Two members of a list of at most one element are the same. -/
theorem children_unique (hlen : (childrenOf db p d).length ≤ 1) {s t : Step}
    (hs : s ∈ db.projectSteps p) (ht : t ∈ db.projectSteps p) (hcs : ChildOf d s) (hct : ChildOf d t) :
    s = t := by
  have hmem : ∀ x ∈ db.projectSteps p, ChildOf d x → x ∈ childrenOf db p d := fun x hx hc =>
    List.mem_filter.mpr ⟨hx, decide_eq_true hc.getParent_eq⟩
  have hs' := hmem s hs hcs
  have ht' := hmem t ht hct
  cases hc : childrenOf db p d with
  | nil => simp [hc] at hs'
  | cons x xs =>
    have hxs : xs = [] := by
      rw [hc, List.length_cons] at hlen
      exact List.length_eq_zero_iff.mp (by omega)
    rw [hc, hxs, List.mem_singleton] at hs' ht'
    rw [hs', ht']

/-- A root with the ancestry `"0"` that passes the guard. -/
theorem destroyRoot_zero (h : StepTree (db.projectSteps p).length (db.projectSteps p))
    (hd : d ∈ db.projectSteps p) (hd0 : d.position = 0) (hda : d.ancestry = some ['0'])
    (hlen : (childrenOf db p d).length ≤ 1) (hdigits : DigitsApart db p d) (u : User) (now : Nat)
    {project : Project} (hproject : project.id = p) :
    let r := reroot now d ((db.projectSteps p).filter (·.id ≠ d.id)) db
    let db'' := afterDestroy u now project d ((forgetStep r.2 d).destroyStep now d)
    r.1 = true ∧ StepTree (db''.projectSteps p).length (db''.projectSteps p) := by
  have hne : ∀ s : Step, s.id ≠ d.id → s ≠ d := fun s hid he => hid (congrArg Step.id he)
  have hpos0 : ∀ s ∈ db.projectSteps p, s ≠ d → s.position ≠ 0 := fun s hs hsd h0 =>
    hsd (h.eq_of_position hs hd (by omega))
  have hpath : ∀ s ∈ db.projectSteps p, s ≠ d → ∀ l, s.ancestry = some (render l) →
      ∃ l', l' ≠ [] ∧ rerooted d (render l) = render l' ∧ s.id ∉ l' ∧
      (if d.isDescendant { s with ancestry := some (render l') } = true then
        adopt d.id (some (render l')) else render l') =
        if l.filter (· ≠ d.id) = [] then ['0'] else render (l.filter (· ≠ d.id)) := by
    intro s hs hsd l hl
    apply h.rerooted_path hd hd0 hda hs hsd hl
    intro i hi
    exact hdigits s hs i (by rw [hl, ancestorIds_render]; exact hi)
  obtain ⟨hdone, hrows⟩ := projectSteps_reroot (p := p) (d := d) db now
    (by
      intro s hs hid
      obtain ⟨l, -, hl, -⟩ := h.path hs (hpos0 s hs (hne s hid))
      simp [hl])
    (by
      intro s hs hid
      obtain ⟨l, -, hl, -⟩ := h.path hs (hpos0 s hs (hne s hid))
      obtain ⟨l', hl', hre, hnot, -⟩ := hpath s hs (hne s hid) l hl
      have hfmt : pattern (render l') = true := pattern_render hl'
      simp [rerootedRow, hl, hre, Step.valid, Step.validNew, h.named s hs, validFormat, hfmt, hnot])
  refine ⟨hdone, ?_⟩
  -- the row of a step below the root, after the loop and the adoption
  have hadopt : ∀ s ∈ db.projectSteps p, s ≠ d → ∀ l, s.ancestry = some (render l) →
      (Database.adopted now d (if s.id ≠ d.id then rerootedRow now d s else s)).ancestry =
        some (if l.filter (· ≠ d.id) = [] then ['0'] else render (l.filter (· ≠ d.id))) := by
    intro s hs hsd l hl
    obtain ⟨l', -, hre, -, hfinal⟩ := hpath s hs hsd l hl
    have hid : s.id ≠ d.id := fun he => hsd (h.eq_of_id hs hd he)
    have hrow : (rerootedRow now d s).ancestry = some (render l') := by
      rw [rerootedRow, hl, Option.map_some, hre]
    have hdesc : d.isDescendant (rerootedRow now d s) =
        d.isDescendant { s with ancestry := some (render l') } := by
      rw [Step.isDescendant, hrow, Step.isDescendant]
    rw [if_pos hid, Database.adopted, hdesc, ← hfinal]
    split
    · rw [hrow]
    · exact hrow
  have hrest : ∀ s : Step, (if s.id ≠ d.id then rerootedRow now d s else s).id = s.id := by
    intro s
    split <;> rfl
  refine h.afterDestroy_destroyStep hd (fun _ s hs t ht => children_unique hlen hs ht) hrows ?_ u now hproject ?_
  · intro s
    split <;> exact ⟨rfl, rfl, rfl, rfl⟩
  · intro s hs hsd
    refine ⟨(adopted_rest now d _).1.trans (hrest s), ?_, ?_, ?_⟩
    · exact fun ht => absurd ((h.topLevel_iff_position hs).mp ht) (hpos0 s hs hsd)
    · intro l hl hnil
      have ha := hadopt s hs hsd l hl
      rw [if_pos hnil] at ha
      exact topLevel_iff.mpr (Or.inr (Or.inr ha))
    · intro l hl hnil
      rw [hadopt s hs hsd l hl, if_neg hnil]

/-- A root whose ancestry is nil or empty: only the gem touches the other rows. -/
theorem destroyRoot_blank (h : StepTree (db.projectSteps p).length (db.projectSteps p))
    (hd : d ∈ db.projectSteps p) (hd0 : d.position = 0) (hda : d.ancestry ≠ some ['0'])
    (hlen : (childrenOf db p d).length ≤ 1) (u : User) (now : Nat) {project : Project}
    (hproject : project.id = p) :
    let db'' := afterDestroy u now project d ((forgetStep db d).destroyStep now d)
    StepTree (db''.projectSteps p).length (db''.projectSteps p) := by
  have hblank : blankColumn d.ancestry = true := by
    rcases topLevel_iff.mp (h.root d hd hd0) with ha | ha | ha
    · rw [ha]
      rfl
    · rw [ha]
      rfl
    · exact absurd ha hda
  have hadopt : ∀ s ∈ db.projectSteps p, s ≠ d → ∀ l, s.ancestry = some (render l) →
      (Database.adopted now d s).ancestry = some (render (l.filter (· ≠ d.id))) := by
    intro s hs hsd l hl
    rcases h.path_from_root hd hd0 hs hsd hl with ⟨m, rfl, -⟩ | ⟨ha, -⟩
    · have hdesc : d.isDescendant s = true := by
        rw [Step.isDescendant, Step.childAncestry, childAncestry_blank hblank, hl,
          descendant_render (by simp)]
        exact ⟨m, rfl⟩
      rw [Database.adopted, if_pos hdesc, hl, adopt_render]
    · exact absurd ha hda
  refine h.afterDestroy_destroyStep hd (fun _ s hs t ht => children_unique hlen hs ht) (f := id) (by simp)
    (fun s => ⟨rfl, rfl, rfl, rfl⟩) u now hproject fun s hs hsd => ?_
  refine .of_path (adopted_rest now d s).1 ?_ (hadopt s hs hsd)
  rw [Bool.eq_false_iff]
  exact fun ht => hsd (h.eq_of_position hs hd (((h.topLevel_iff_position hs).mp ht).trans hd0.symm))

theorem destroyRoot (h : StepTree (db.projectSteps p).length (db.projectSteps p)) {key : StepKey}
    (hfind : db.findStep key = some d) (hd : d ∈ db.projectSteps p) (ht : d.topLevel = true) (u : User) (now : Nat)
    (hok : RootOk p db u d) :
    StepTree (((StepsController.destroy u now p key db).2).projectSteps p).length
      (((StepsController.destroy u now p key db).2).projectSteps p) := by
  have hd0 := (h.topLevel_iff_position hd).mp ht
  have hproj := (Database.mem_projectSteps.mp hd).2
  rw [StepsController.destroy]
  cases hproject : db.projects.find? p with
  | none => exact h
  | some project =>
    have hid := (Table.find?_eq_some.mp hproject).2
    dsimp only
    rw [hfind]
    dsimp only
    rcases authorize_cases (Ability.destroyStep db u d) db _ with ⟨hauth, heq⟩ | ⟨-, heq⟩
    · rw [heq]
      rcases hok with hno | hguard | ⟨hlen, hdigits⟩
      · rw [Ability.destroyStep, hproj, Ability.authorOf, Option.bind_some, hproject, Option.map_some,
          show project.id = p from hid, hno] at hauth
        cases hauth
      · rw [if_pos hguard]
        exact h
      · split
        · exact h
        · by_cases hda : d.ancestry = some ['0']
          · obtain ⟨hdone, htree⟩ :=
              h.destroyRoot_zero hd hd0 hda hlen (hdigits hda) u now hid
            rw [if_pos hda, if_pos hdone]
            exact htree
          · rw [if_neg hda, if_pos rfl]
            exact h.destroyRoot_blank hd hd0 hda hlen u now hid
    · rw [heq]
      exact h

end StepTree

/-! ## Runs with destroys of any step -/

/-- No request of the run leaves a gap or two roots behind, is made on a map without some name, or finds a wrong
step. -/
def StepRequest.KeepsRoot (p : Nat) (db : Database) : StepRequest → Prop
  | submitForm u now parent fields =>
    NamesShown p db ∧ FormOk p db u parent fields ∧ FindsSteps p db (submitForm u now parent fields)
  | saveMap _ => NamesShown p db
  | destroy u _ key => ∀ d ∈ db.findStep key, Ability.destroyStep db u d = some true → rootGuard db p d = false →
      d ∈ db.projectSteps p ∧ (d.topLevel = true → RootOk p db u d)
  | r => FindsSteps p db r

instance (p : Nat) (db : Database) : ∀ r, Decidable (StepRequest.KeepsRoot p db r)
  | .create u now html parent fields =>
    inferInstanceAs (Decidable (StepRequest.FindsSteps p db (.create u now html parent fields)))
  | .submitForm _ _ _ _ => inferInstanceAs
      (Decidable (StepRequest.NamesShown _ _ ∧ StepRequest.FormOk _ _ _ _ _ ∧ StepRequest.FindsSteps _ _ _))
  | .saveMap _ => inferInstanceAs (Decidable (StepRequest.NamesShown p db))
  | .destroy u _ key => inferInstanceAs (Decidable (∀ d ∈ db.findStep key, Ability.destroyStep db u d = some true → _))

/-- A destroy of a root with two children that keeps a single root is one that is refused. -/
theorem StepsController.destroy_refused {db : Database} {p : Nat} {d : Step} {key : StepKey}
    (hfind : db.findStep key = some d) (hd : d ∈ db.projectSteps p) (hchildren : 2 ≤ (childrenOf db p d).length)
    {u : User} (hok : RootOk p db u d) (now : Nat) :
    (destroy u now p key db).1 ≠ .ok ∧ (destroy u now p key db).2 = db := by
  have hproj := (Database.mem_projectSteps.mp hd).2
  rw [destroy]
  cases hproject : db.projects.find? p with
  | none => exact ⟨by simp, rfl⟩
  | some project =>
    have hid : project.id = p := (Table.find?_eq_some.mp hproject).2
    have hperm : Ability.destroyStep db u d = some (db.author p u.id) := by
      rw [Ability.destroyStep, hproj, Ability.authorOf, Option.bind_some, hproject, Option.map_some,
        hid]
    dsimp only
    rw [hfind]
    dsimp only
    rw [hperm]
    cases hauthor : db.author p u.id with
    | false => exact ⟨by simp [authorize], rfl⟩
    | true =>
      rcases hok with hno | hguard | ⟨hlen, -⟩
      · rw [hauthor] at hno
        cases hno
      · rw [authorize, if_pos hguard]
        exact ⟨by simp, rfl⟩
      · omega

/-- Along every run from a project without steps, of creates, saves of the map and destroys of any step, at most one step
stands at the top, as long as no web form leaves a gap, the maps show the names of all steps, no id is taken for the
position of a wrong step and a root is destroyed only with the guard in force or with at most one child; and then a root
with two children stays. -/
theorem single_root (db : Database) (p : Nat) (hempty : db.projectSteps p = [])
    (rs : List StepRequest)
    (hrs : Run.Along (StepRequest.perform p) (StepRequest.OnProject p) db rs)
    (hok : Run.Along (StepRequest.perform p) (StepRequest.KeepsRoot p) db rs) :
    let db' := Run.after (StepRequest.perform p) db rs
    (∀ s ∈ db'.projectSteps p, ∀ t ∈ db'.projectSteps p,
      s.topLevel = true → t.topLevel = true → s = t) ∧
    ∀ d ∈ db'.projectSteps p, d.topLevel = true → 2 ≤ (childrenOf db' p d).length →
      ∀ u now key, db'.findStep key = some d → RootOk p db' u d →
        (destroy u now p key db').1 ≠ .ok ∧ (destroy u now p key db').2 = db' := by
  have htree : StepTree ((Run.after (StepRequest.perform p) db rs).projectSteps p).length
      ((Run.after (StepRequest.perform p) db rs).projectSteps p) := by
    refine Run.invariant
      (P := fun db r => StepRequest.OnProject p db r ∧ StepRequest.KeepsRoot p db r)
      (I := fun db => StepTree (db.projectSteps p).length (db.projectSteps p)) ?_ ?_ ?_
    · intro db r h ⟨hon, hkeep⟩
      cases r with
      | create u now html parent fields => exact h.perform_create hon.1 hon.2 hkeep u now html
      | submitForm u now parent fields => exact h.perform_submitForm hkeep.1 hon.1 hon.2 u now hkeep.2.1 hkeep.2.2
      | saveMap drops => exact h.perform_saveMap hkeep drops
      | destroy u now key =>
        rcases destroy_spec u now p key db with ⟨-, -, hsame⟩ | ⟨-, d, -, hfind, hallowed, hguard, -, -⟩
        · have hsame : StepRequest.perform p db (.destroy u now key) = db := hsame
          rw [hsame]
          exact h
        · obtain ⟨hd, hroot⟩ := hkeep d hfind hallowed hguard
          by_cases ht : d.topLevel = true
          · exact h.destroyRoot hfind hd ht u now (hroot ht)
          · exact h.destroy hfind hd (by simpa using ht) u now
    · rw [hempty]
      exact StepTree.empty
    · exact hrs.and hok
  refine ⟨?_, fun d hd _ hc u now key hfind hr => destroy_refused hfind hd hc hr now⟩
  intro s hs t ht hs0 ht0
  have hs' := (htree.topLevel_iff_position hs).mp hs0
  have ht' := (htree.topLevel_iff_position ht).mp ht0
  exact htree.eq_of_position hs ht (by omega)

/-- The map is saved, the root cannot go while it has two children, and goes once it has one. -/
theorem single_root_rerooted :
    let rs := fourSteps ++ [.saveMap [], .destroy ada 5 (.ofId 11), .destroy ada 6 (.ofId 14), .destroy ada 7 (.ofId 11)]
    let db := Run.after (StepRequest.perform 1) .stepless rs
    (db.orderedSteps 1).map (fun s => (s.id, s.ancestry)) =
      [(12, some ['0']), (13, some "12".toList)] ∧
    ∀ s ∈ db.projectSteps 1, ∀ t ∈ db.projectSteps 1,
      s.topLevel = true → t.topLevel = true → s = t :=
  ⟨by decide +kernel, (single_root .stepless 1 rfl _ (by decide +kernel) (by decide +kernel)).1⟩

/-- A root created without the process map has a nil ancestry, so the guard lets it go with two
children, and both end at the top. -/
theorem destroyed_root_leaves_two :
    let db := Database.stepless
    let db' := Run.after (StepRequest.perform 1) db fourSteps
    let db'' := Run.after (StepRequest.perform 1) db (fourSteps ++ [.destroy ada 4 (.ofId 11)])
    db.projectSteps 1 = [] ∧
    Run.Along (StepRequest.perform 1) (StepRequest.OnProject 1) db (fourSteps ++ [.destroy ada 4 (.ofId 11)]) ∧
    (∃ d ∈ db'.projectSteps 1, d.id = 11 ∧ d.topLevel = true ∧
      (childrenOf db' 1 d).length = 2 ∧ (destroy ada 4 1 (.ofId 11) db').1 = .ok) ∧
    ¬ ∀ s ∈ db''.projectSteps 1, ∀ t ∈ db''.projectSteps 1,
      s.topLevel = true → t.topLevel = true → s = t := by
  decide +kernel
