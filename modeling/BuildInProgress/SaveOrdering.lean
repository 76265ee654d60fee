import BuildInProgress.StepRuns
import BuildInProgress.Frame

/-!
# The two requests of the web form

`saveOrdering` sends `update_ancestry` with the map and submits the form of the new step without
waiting for an answer, so the server may handle the two requests in either order.  When the form comes
first, the new step takes the ancestry of its parent as the row has it, and the map then writes the
parent anew: without the zero that rows created below a saved root carry in front.
-/

open Text Ancestry StepsController

/-- The ancestry starts with `"0/"`. -/
def Step.zeroed (s : Step) : Bool :=
  match ancestorIds s.ancestry with
  | 0 :: _ :: _ => true
  | _ => false

namespace StepTree

variable {db : Database} {p : Nat} {free : Int}

/-! ## Columns and drawn paths -/

/-- The column of a step below the root is its path in the map, perhaps after a zero. -/
theorem path_drawn (h : StepTree free (db.projectSteps p)) {s : Step} (hs : s ∈ db.projectSteps p) :
    ∀ l, (s.id, l) ∈ (drawnForest (db.orderedSteps p)).paths [] →
      (s.position = 0 → l = []) ∧
      (s.position ≠ 0 → l ≠ [] ∧ (s.ancestry = some (render l) ∨ s.ancestry = some (render (0 :: l)))) := by
  have hpos : ∀ s ∈ db.orderedSteps p, 0 < s.id := fun s hs => h.pos s (Database.mem_orderedSteps.mp hs)
  obtain ⟨-, hroots, hkids⟩ := drawnForest_spec (db.nodup_orderedSteps p) hpos h.drawable
  have hbelow : ∀ s ∈ db.projectSteps p, ∀ x, s.id ∈ (drawnForest (db.orderedSteps p)).childrenOf x →
      s.drawnBelow = some x := by
    intro s hs x hx
    rw [hkids] at hx
    obtain ⟨t, ht, hid⟩ := List.mem_map.mp hx
    rw [List.mem_filter, decide_eq_true_eq] at ht
    rw [← h.eq_of_id (Database.mem_orderedSteps.mp ht.1) hs hid]
    exact ht.2
  -- from a parent to its children: the map puts the id of the step below the path of the parent
  refine h.parent_induction (P := fun s => ∀ l, (s.id, l) ∈ (drawnForest (db.orderedSteps p)).paths [] →
      (s.position = 0 → l = []) ∧
      (s.position ≠ 0 → l ≠ [] ∧ (s.ancestry = some (render l) ∨ s.ancestry = some (render (0 :: l))))) ?_ ?_ hs
  · intro s hs h0 l hl
    refine ⟨fun _ => ?_, fun hne => absurd h0 hne⟩
    rcases Forest.roots_or_childrenOf hl with ⟨hnil, -⟩ | ⟨t, x, -, hx, -⟩
    · exact hnil
    · have hd := hbelow s hs x hx
      rw [Step.drawnBelow_of_top (h.root s hs h0)] at hd
      cases hd
  · intro s hs hs0 q hq _ hc ih l hl
    refine ⟨fun h0 => absurd h0 hs0, fun _ => ?_⟩
    have hdrawn : s.drawnBelow = some q.id := by
      obtain ⟨m, hm⟩ := hc.path
      exact Step.drawnBelow_of_parent hm (afterLast_render_concat m q.id) (h.pos q hq)
    rcases Forest.roots_or_childrenOf hl with ⟨-, hroot⟩ | ⟨t, x, rfl, hx, ht⟩
    · -- a root of the map is drawn below nothing
      rw [hroots] at hroot
      obtain ⟨r, hr, hid⟩ := List.mem_map.mp hroot
      rw [List.mem_filter, decide_eq_true_eq] at hr
      rw [h.eq_of_id (Database.mem_orderedSteps.mp hr.1) hs hid, hdrawn] at hr
      cases hr.2
    · have hxq : x = q.id := Option.some.inj ((hbelow s hs x hx).symm.trans hdrawn)
      subst hxq
      obtain ⟨hroot, hchild⟩ := ih t ht
      refine ⟨by simp, ?_⟩
      by_cases hq0 : q.position = 0
      · have htop := h.root q hq hq0
        rw [hroot hq0]
        rcases hc with ⟨m, hm, hqa, hsa⟩ | ⟨-, hsa⟩
        · rw [path_of_topLevel htop hm hqa] at hsa
          exact Or.inr hsa
        · exact Or.inl hsa
      · obtain ⟨-, hcol⟩ := hchild hq0
        rcases hc with ⟨m, -, hqa, hsa⟩ | ⟨htop, -⟩
        · rcases hcol with hcol | hcol
          · rw [hqa, Option.some.injEq, render_inj] at hcol
            rw [hsa, hcol]
            exact Or.inl rfl
          · rw [hqa, Option.some.injEq, render_inj] at hcol
            rw [hsa, hcol]
            exact Or.inr rfl
        · exact absurd ((h.topLevel_iff_position hq).mp htop) hq0

theorem ne_zero_of_drawn (h : StepTree free (db.projectSteps p)) {i : Nat} {l : List Nat}
    (hl : (i, l) ∈ (drawnForest (db.orderedSteps p)).paths []) : ∀ j ∈ l, j ≠ 0 := by
  have hpos : ∀ s ∈ db.orderedSteps p, 0 < s.id := fun s hs => h.pos s (Database.mem_orderedSteps.mp hs)
  have hperm := (drawnForest_spec (db.nodup_orderedSteps p) hpos h.drawable).1
  intro j hj
  obtain ⟨t, ht, hsub⟩ := Forest.mem_paths_prefix hl
  rw [List.nil_append] at ht
  dsimp only at ht
  subst ht
  obtain ⟨t, ht, rfl⟩ := List.mem_map.mp (hperm.mem_iff.mp (hsub hj))
  exact Nat.ne_of_gt (hpos t ht)

/-- Without a zero in front the map writes the column as it is. -/
theorem ancestry_drawn (h : StepTree free (db.projectSteps p)) {s : Step} (hs : s ∈ db.projectSteps p)
    (hs0 : s.position ≠ 0) {l : List Nat} (hl : (s.id, l) ∈ (drawnForest (db.orderedSteps p)).paths []) :
    s.zeroed = false ↔ s.ancestry = some (Dom.ancestryText l) := by
  obtain ⟨hne, hcol⟩ := (h.path_drawn hs l hl).2 hs0
  have htext : Dom.ancestryText l = render l := if_neg hne
  have hhead := h.ne_zero_of_drawn hl
  rw [htext, Step.zeroed]
  rcases hcol with hcol | hcol
  · rw [hcol, ancestorIds_render]
    refine iff_of_true ?_ rfl
    cases l with
    | nil => rfl
    | cons a l =>
      have ha := hhead a List.mem_cons_self
      split
      · rename_i heq
        rw [List.cons.injEq] at heq
        exact absurd heq.1 ha
      · rfl
  · rw [hcol, ancestorIds_render, Option.some.injEq, render_inj]
    refine iff_of_false ?_ fun heq => ?_
    · cases l with
      | nil => exact absurd rfl hne
      | cons a l => simp
    · have hlen := congrArg List.length heq
      rw [List.length_cons] at hlen
      omega

end StepTree

/-! ## Either order -/

namespace StepRequest

/-- The requests of the web form when the form is handled before the map. -/
def formFirst (p : Nat) (db : Database) (u : User) (now : Nat) (parent : Option Nat)
    (fields : List StepAttr) : Database :=
  match formMap p db parent with
  | none => db
  | some d =>
    let params := StepAttr.formParams (parent.map .ofId) fields (some (d.position "newStep".toList))
    (updateAncestry p (createStepMapArray d) (StepsController.create u now true p params db).2).2

/-- The requests of the web form when the map is handled before the form. -/
def mapFirst (p : Nat) (db : Database) (u : User) (now : Nat) (parent : Option Nat)
    (fields : List StepAttr) : Database :=
  perform p db (.submitForm u now parent fields)

end StepRequest

namespace Database

/-- `Step.find` takes the step with this id for the text of the id. -/
def FindsId (db : Database) (i : Nat) : Prop := (db.findStep (.ofId i)).map Step.id = some i

instance (db : Database) (i : Nat) : Decidable (db.FindsId i) := inferInstanceAs (Decidable (_ = _))

/-- The new step is there, and hangs below the step `i`. -/
def HangsBelow (db : Database) (p new i : Nat) : Prop :=
  ∃ x ∈ db.projectSteps p, x.id = new ∧ x.ancestry.map getParent = some (toS i)

instance (db : Database) (p new i : Nat) : Decidable (db.HangsBelow p new i) :=
  inferInstanceAs (Decidable (∃ x ∈ db.projectSteps p, _))

theorem findStep_of_findsId {db : Database} {q : Step} (hq : q ∈ db.steps.rows) (h : db.FindsId q.id) :
    db.findStep (.ofId q.id) = some q := by
  obtain ⟨t, ht, hid⟩ := Option.map_eq_some_iff.mp h
  rw [ht, Table.eq_of_key (mem_of_findStep ht) hq hid]

theorem getParent_childAncestry (s : Step) : getParent s.childAncestry = toS s.id := by
  have hslash := slash_notMem_toS s.id
  rw [Step.childAncestry, getParent]
  cases s.ancestry with
  | none => exact afterLast_of_notMem '/' _ hslash
  | some a =>
    rw [childAncestry]
    split
    · exact afterLast_of_notMem '/' _ hslash
    · exact afterLast_append '/' a _ hslash

/-- A new step hangs below what `Step.find` has taken for its parent. -/
theorem findsId_of_parentAncestry {db : Database} {i : Nat}
    (h : (parentAncestry db (some (.ofId i))).map getParent = some (toS i)) : db.FindsId i := by
  rw [parentAncestry, Option.bind_some, Option.map_map, Option.map_eq_some_iff] at h
  obtain ⟨t, ht, hparent⟩ := h
  rw [Function.comp, getParent_childAncestry, toS_inj] at hparent
  rw [FindsId, ht, Option.map_some, hparent]

end Database

namespace StepTree

variable {db : Database} {p : Nat} {fields : List StepAttr} {project : Project} {q : Step} {u : User}

/-- Every position that a map writes is below the number of its items. -/
theorem lt_length_itemClasses {d : Dom} : ∀ e ∈ createStepMapArray d, e.position < (d.itemClasses.length : Int) := by
  intro e he
  obtain ⟨⟨item, i⟩, hi, rfl⟩ := List.mem_map.mp he
  rw [List.mem_zipIdx_iff_getElem?] at hi
  have hlt := (List.getElem?_eq_some_iff.mp hi).1
  rw [Dom.itemClasses, List.length_map]
  exact Int.ofNat_lt.mpr hlt

theorem position_lt_length (d : Dom) (cls : Text) : d.position cls ≤ (d.itemClasses.length : Int) - 1 := by
  rw [Dom.position]
  split
  · omega
  · rename_i i hi
    have hlt := (List.findIdx?_eq_some_iff_getElem.mp hi).1
    rw [Dom.itemClasses, List.length_map]
    omega

/-- A step whose script does not run has no item, and with the new one there are more rows than the map has
positions. -/
theorem namesShown_of_formFirst (h : StepTree (db.projectSteps p).length (db.projectSteps p))
    (hmarkup : ∀ s ∈ db.projectSteps p, s.NoMarkup) (hq : q ∈ db.projectSteps p)
    (hf : StepRequest.PlainFields fields) (now : Nat)
    (hnew : ∃ x ∈ (StepRequest.formFirst p db u now (some q.id) fields).projectSteps p, x.id = db.steps.next)
    (hshaped : TreeShaped (StepRequest.formFirst p db u now (some q.id) fields) p) : StepRequest.NamesShown p db := by
  have hold : ∀ s ∈ db.projectSteps p, s.id ≠ db.steps.next := fun s hs =>
    Nat.ne_of_lt (db.steps.bound s (Database.mem_projectSteps.mp hs).1).2
  by_contra hno
  obtain ⟨t, ht, hplain⟩ : ∃ t ∈ db.orderedSteps p, (scriptName t).isSome = false := by
    rw [StepRequest.NamesShown] at hno
    push Not at hno
    obtain ⟨t, ht, hplain⟩ := hno
    refine ⟨t, ht, Bool.eq_false_iff.mpr fun hsome => hplain ?_⟩
    exact Step.plainName_iff.mpr ⟨hsome, hmarkup t (Database.mem_orderedSteps.mp ht)⟩
  rw [StepRequest.formFirst] at hnew hshaped
  cases hmap : StepRequest.formMap p db (some q.id) with
  | none =>
    rw [hmap] at hnew
    obtain ⟨x, hx, hid⟩ := hnew
    exact hold x hx hid
  | some d =>
    rw [hmap] at hnew hshaped
    dsimp only at hnew hshaped
    -- the items of the map
    obtain ⟨org, hdraw, rfl⟩ := Option.map_eq_some_iff.mp hmap
    have hids := db.nodup_orderedSteps p
    have hitems := length_itemClasses_loadProcessMap (distinct_drawList hdraw hids) (some q.id)
    have hscripts := length_itemClasses_drawList hdraw hids
    have hfewer : ((db.orderedSteps p).filter fun s => (scriptName s).isSome).length < (db.projectSteps p).length := by
      rw [← (db.perm_orderedSteps p).length_eq]
      exact List.length_filter_lt_length_iff_exists.mpr ⟨t, ht, by simp [hplain]⟩
    have hwritten := lt_length_itemClasses (d := loadProcessMap org (some q.id))
    have hbox := position_lt_length (loadProcessMap org (some q.id)) "newStep".toList
    generalize loadProcessMap org (some q.id) = d at hitems hwritten hbox hnew hshaped
    -- the rows before the map is written
    have hparent : StepRequest.ParentOk p db ((some q.id).map .ofId) := ⟨q, hq, (toI_toS q.id).symm⟩
    have hcreate := create_formParams u now true p db hparent hf (some (d.position "newStep".toList))
    generalize (StepsController.create u now true p (StepAttr.formParams ((some q.id).map .ofId) fields
      (some (d.position "newStep".toList))) db).2 = db₁ at hcreate hnew hshaped
    have hmapped : ∀ s ∈ (updateAncestry p (createStepMapArray d) db₁).2.projectSteps p, ∃ s₁ ∈ db₁.projectSteps p,
        s₁.id = s.id ∧ (s.position = s₁.position ∨ s.position < (d.itemClasses.length : Int)) := by
      intro s hs
      rcases updateAncestry_eq p (createStepMapArray d) db₁ with heq | ⟨-, heq⟩
      · rw [heq] at hs
        exact ⟨s, hs, rfl, Or.inl rfl⟩
      · rw [heq, projectSteps_foldl_updateEntry] at hs
        obtain ⟨s₁, hs₁, rfl⟩ := List.mem_map.mp hs
        refine ⟨s₁, hs₁, (foldl_remapped_id _ s₁).symm, ?_⟩
        rcases position_foldl_remapped (createStepMapArray d) s₁ with hpos | ⟨e, he, -, hpos⟩
        · exact Or.inl hpos
        · exact Or.inr (hpos ▸ hwritten e he)
    have hlength : ((updateAncestry p (createStepMapArray d) db₁).2.projectSteps p).length = (db₁.projectSteps p).length := by
      rcases updateAncestry_eq p (createStepMapArray d) db₁ with heq | ⟨-, heq⟩
      · rw [heq]
      · rw [heq, projectSteps_foldl_updateEntry, List.length_map]
    obtain ⟨x, hx, hid⟩ := hnew
    obtain ⟨x₁, hx₁, hid₁, -⟩ := hmapped x hx
    rcases hcreate with ⟨heq, -⟩ | ⟨y, heq, -, -, -, -, hpos⟩
    · rw [heq] at hx₁
      exact hold x₁ hx₁ (hid₁.trans hid)
    · -- one of the rows is the last one
      rw [heq, List.length_append, List.length_singleton] at hlength
      have hlast : ((db.projectSteps p).length : Int) ∈
          ((updateAncestry p (createStepMapArray d) db₁).2.orderedSteps p).map Step.position := by
        rw [hshaped.positions, hlength]
        exact List.mem_map_of_mem (List.mem_range.mpr (Nat.lt_succ_self _))
      obtain ⟨s, hs, hposition⟩ := List.mem_map.mp hlast
      obtain ⟨s₁, hs₁, -, hs⟩ := hmapped s (Database.mem_orderedSteps.mp hs)
      rw [heq, List.mem_append, List.mem_singleton] at hs₁
      rw [Option.getD_some] at hpos
      rcases hs₁ with hs₁ | rfl
      · have hrange := (h.range s₁ hs₁).2
        omega
      · omega

/-- The map of the form, and the steps once both requests are handled: the map writes the old ones, and a new one is
as it was built. -/
theorem projectSteps_formFirst (hproject : db.projects.find? p = some project)
    (h : StepTree (db.projectSteps p).length (db.projectSteps p)) (hnames : StepRequest.NamesShown p db) (hq : q ∈ db.projectSteps p)
    (hf : StepRequest.PlainFields fields) (u : User) (now : Nat) :
    ∃ (d : Dom) (gap : Nat), StepRequest.formMap p db (some q.id) = some d ∧
      gap ≤ (db.projectSteps p).length ∧
      StepTree gap (((createStepMapArray d).foldl updateEntry db).projectSteps p) ∧
      (∃ q' ∈ ((createStepMapArray d).foldl updateEntry db).projectSteps p, q'.id = q.id ∧ q'.position < gap ∧
        ∃ l, (q.id, l) ∈ (drawnForest (db.orderedSteps p)).paths [] ∧
          q'.ancestry = some (Dom.ancestryText l)) ∧
      ((¬ (db.author p u.id = true ∧ blank (StepAttr.nameOf fields) = false ∧
          validFormat (StepsController.parentAncestry db (some (.ofId q.id))) = true) ∧
          (StepRequest.formFirst p db u now (some q.id) fields).projectSteps p =
            ((createStepMapArray d).foldl updateEntry db).projectSteps p) ∨
        ∃ x, (StepRequest.formFirst p db u now (some q.id) fields).projectSteps p =
            ((createStepMapArray d).foldl updateEntry db).projectSteps p ++ [x] ∧ x.id = db.steps.next ∧
          x.position = (gap : Int) ∧ x.ancestry = StepsController.parentAncestry db (some (.ofId q.id)) ∧ blank x.name = false) := by
  have hparent : StepRequest.ParentOk p db ((some q.id).map .ofId) := ⟨q, hq, (toI_toS q.id).symm⟩
  obtain ⟨d, gap, hmap, hpos, hle, htree, -, hbefore, hpaths, hkeys⟩ := h.formMap hnames hparent
  refine ⟨d, gap, hmap, hle, htree, ?_, ?_⟩
  · obtain ⟨l, hl, hql⟩ := hpaths q hq
    have hmem : (createStepMapArray d).foldl remapped q ∈
        ((createStepMapArray d).foldl updateEntry db).projectSteps p := by
      rw [projectSteps_foldl_updateEntry]
      exact List.mem_map_of_mem hq
    refine ⟨_, hmem, foldl_remapped_id _ q, hbefore _ hmem ?_, l, hl, hql⟩
    rw [foldl_remapped_id]
  · rw [StepRequest.formFirst, hmap]
    dsimp only
    rw [hpos]
    -- the project is still there when the map comes
    have hkept := (sameProjects_create db u now true p (StepAttr.formParams ((some q.id).map .ofId) fields
      (some (gap : Int)))).isSome_find? p
    have hcreate := create_formParams u now true p db hparent hf (some (gap : Int))
    generalize (StepsController.create u now true p (StepAttr.formParams ((some q.id).map .ofId) fields
      (some (gap : Int))) db).2 = db₁ at hcreate hkept
    rw [hproject, Option.isSome_some, Option.isSome_iff_exists] at hkept
    obtain ⟨project', hproject'⟩ := hkept
    rw [updateAncestry, hproject']
    dsimp only
    rcases hcreate with ⟨heq, hno⟩ | ⟨x, heq, hid, hanc, hxname, hblank, hxpos⟩
    · refine Or.inl ⟨fun hyes => hno ⟨by rw [hproject]; simp, hyes⟩, by rw [heq]⟩
    · refine Or.inr ⟨x, ?_, hid, hxpos, hanc, by rw [hxname]; exact hblank⟩
      rw [projectSteps_foldl_updateEntry, projectSteps_foldl_updateEntry, heq, List.map_append,
        List.map_singleton, foldl_remapped_of_notMem fun e he heq => ?_]
      have hlt := hkeys e he
      rw [← heq, hid] at hlt
      exact Nat.lt_irrefl _ hlt

theorem next_updateStep (stamp : Option Nat) (i : Nat) (f : Step → Step) :
    (db.updateStep stamp i f).steps.next = db.steps.next := by
  rw [Database.updateStep]
  split
  · rfl
  · rw [Database.saveStep]
    split
    · rw [Option.getD_some, Database.storeStep, Database.steps_checkDecision]
      rfl
    · rfl

theorem next_foldl_updateEntry (es : List MapEntry) (db : Database) :
    (es.foldl updateEntry db).steps.next = db.steps.next := by
  induction es generalizing db with
  | nil => rfl
  | cons e es ih => rw [List.foldl_cons, ih, updateEntry, next_updateStep, next_updateStep]

/-- Among rows that were there before there is none with the next id. -/
theorem eq_of_next {steps : List Step} {next : Nat} (hold : ∀ s ∈ steps, s.id < next) {x y : Step}
    (hy : y ∈ steps ++ [x]) (hid : y.id = next) : y = x := by
  rcases List.mem_append.mp hy with hy | hy
  · exact absurd hid (Nat.ne_of_lt (hold y hy))
  · exact List.mem_singleton.mp hy

theorem id_lt_next {es : List MapEntry} : ∀ s ∈ (es.foldl updateEntry db).projectSteps p, s.id < db.steps.next := by
  rw [projectSteps_foldl_updateEntry]
  intro s hs
  obtain ⟨t, ht, rfl⟩ := List.mem_map.mp hs
  rw [foldl_remapped_id]
  exact (db.steps.bound t (Database.mem_projectSteps.mp ht).1).2

/-- When the form comes first and its step hangs below the chosen parent, `Step.find` has found that one. -/
theorem findsId_of_formFirst (hproject : db.projects.find? p = some project)
    (h : StepTree (db.projectSteps p).length (db.projectSteps p)) (hnames : StepRequest.NamesShown p db) (hq : q ∈ db.projectSteps p)
    (hf : StepRequest.PlainFields fields) (now : Nat)
    (hbelow : (StepRequest.formFirst p db u now (some q.id) fields).HangsBelow p db.steps.next q.id) :
    db.FindsId q.id := by
  obtain ⟨d, gap, -, -, -, -, ⟨-, heq⟩ | ⟨x, heq, hid, -, hanc, -⟩⟩ := projectSteps_formFirst hproject h hnames hq hf u now
  all_goals
    obtain ⟨y, hy, hnext, hparent⟩ := hbelow
    rw [heq] at hy
  · exact absurd hnext (Nat.ne_of_lt (id_lt_next y hy))
  · rw [eq_of_next id_lt_next hy hnext, hanc] at hparent
    exact Database.findsId_of_parentAncestry hparent

/-- When the map comes last, the new step is a child of its parent if the column of the parent starts
with no zero. -/
theorem of_formFirst (hproject : db.projects.find? p = some project)
    (h : StepTree (db.projectSteps p).length (db.projectSteps p)) (hnames : StepRequest.NamesShown p db) (hq : q ∈ db.projectSteps p)
    (hauthor : db.author p u.id = true) (hname : blank (StepAttr.nameOf fields) = false)
    (hf : StepRequest.PlainFields fields) (now : Nat) (hfinds : db.FindsId q.id) (hzero : q.zeroed = false) :
    let db' := StepRequest.formFirst p db u now (some q.id) fields
    StepTree (db'.projectSteps p).length (db'.projectSteps p) ∧ db'.HangsBelow p db.steps.next q.id := by
  obtain ⟨d, gap, -, hle, htree, ⟨q', hq', hqid, hlt, l, hl, hql⟩, hsteps⟩ :=
    projectSteps_formFirst hproject h hnames hq hf u now
  obtain ⟨hanc, hformat⟩ := h.parentAncestry hq
    (Database.findStep_of_findsId (Database.mem_projectSteps.mp hq).1 hfinds)
  rw [hanc] at hsteps
  obtain ⟨x, hsteps, hid, hpos, hanc, hxname⟩ := hsteps.resolve_left fun hno => hno.1 ⟨hauthor, hname, hformat⟩
  have hchild : ChildOf q x := ChildOf.of_childAncestry hanc (h.column hq)
  -- the map writes the parent when the new step already has its path
  have hchild' : ChildOf q' x := by
    by_cases hq0 : q.position = 0
    · have hql0 : q'.ancestry = some ['0'] := by
        rw [hql, (h.path_drawn hq l hl).1 hq0]
        rfl
      rcases hchild with ⟨m, hm, hqa, hxa⟩ | ⟨-, hxa⟩
      · rw [path_of_topLevel (h.root q hq hq0) hm hqa] at hxa
        exact Or.inl ⟨[0], by simp, by rw [hql0, render_zero], by rw [hxa, hqid]⟩
      · exact Or.inr ⟨topLevel_iff.mpr (Or.inr (Or.inr hql0)), by rw [hxa, hqid]⟩
    · have hsame : q'.ancestry = q.ancestry := hql.trans ((h.ancestry_drawn hq hq0 hl).mp hzero).symm
      rcases hchild with ⟨m, hm, hqa, hxa⟩ | ⟨htop, -⟩
      · exact Or.inl ⟨m, hm, hsame.trans hqa, by rw [hxa, hqid]⟩
      · exact absurd ((h.topLevel_iff_position hq).mp htop) hq0
  dsimp only
  refine ⟨?_, x, by rw [hsteps]; simp, hid, hchild.getParent_eq⟩
  rw [hsteps, List.length_append, List.length_singleton]
  have hlength : (((createStepMapArray d).foldl updateEntry db).projectSteps p).length =
      (db.projectSteps p).length := by
    rw [projectSteps_foldl_updateEntry, List.length_map]
  have hgap := (htree.range q' hq').1
  refine htree.concat ?_ (by rw [hid]; exact db.steps.next_pos) hxname hpos (Int.natCast_nonneg _)
    (by rw [hlength]; exact_mod_cast hle) (fun hzero => by omega) fun _ => ⟨q', hq', hlt, hchild'⟩
  -- the id of the new step was not drawn before
  intro t ht heq
  exact absurd (heq.trans hid) (Nat.ne_of_lt (id_lt_next t ht))

/-- When the map comes last and takes a zero off the parent, the new step keeps it. -/
theorem zeroed_of_formFirst (hproject : db.projects.find? p = some project)
    (h : StepTree (db.projectSteps p).length (db.projectSteps p)) (hnames : StepRequest.NamesShown p db) (hq : q ∈ db.projectSteps p)
    (hauthor : db.author p u.id = true) (hname : blank (StepAttr.nameOf fields) = false)
    (hf : StepRequest.PlainFields fields) (now : Nat) (hfinds : db.FindsId q.id)
    (hshaped : TreeShaped (StepRequest.formFirst p db u now (some q.id) fields) p) :
    q.zeroed = false := by
  obtain ⟨d, gap, -, -, -, ⟨q', hq', hqid, -, l, hl, hql⟩, hsteps⟩ := projectSteps_formFirst hproject h hnames hq hf u now
  obtain ⟨hanc, hformat⟩ := h.parentAncestry hq
    (Database.findStep_of_findsId (Database.mem_projectSteps.mp hq).1 hfinds)
  rw [hanc] at hsteps
  obtain ⟨x, hsteps, -, -, hanc, -⟩ := hsteps.resolve_left fun hno => hno.1 ⟨hauthor, hname, hformat⟩
  have hchild : ChildOf q x := ChildOf.of_childAncestry hanc (h.column hq)
  by_contra hzero
  by_cases hq0 : q.position = 0
  · -- a root has at most a zero alone
    apply hzero
    rcases topLevel_iff.mp (h.root q hq hq0) with ha | ha | ha
    · rw [Step.zeroed, ha]
      rfl
    · rw [Step.zeroed, ha]
      rfl
    · rw [Step.zeroed, ha]
      rfl
  · obtain ⟨hne, hcol⟩ := (h.path_drawn hq l hl).2 hq0
    have htext : Dom.ancestryText l = render l := if_neg hne
    have hqa : q.ancestry = some (render (0 :: l)) := by
      refine hcol.resolve_left fun hcol => hzero ?_
      rw [h.ancestry_drawn hq hq0 hl, htext]
      exact hcol
    have hq'0 : q'.topLevel = false := by
      by_contra htop
      rw [Bool.not_eq_false] at htop
      have hl0 := path_of_topLevel htop hne (hql.trans (congrArg some htext))
      exact h.ne_zero_of_drawn hl 0 (by rw [hl0]; exact List.mem_cons_self) rfl
    have hx : x ∈ (StepRequest.formFirst p db u now (some q.id) fields).projectSteps p := by
      rw [hsteps]
      simp
    have hxa := hshaped.child q' (by rw [hsteps]; exact List.mem_append_left _ hq') hq'0 x hx
      (by rw [hqid]; exact hchild.getParent_eq)
    -- the step keeps the zero and the parent loses it: their paths differ in length
    rw [hanc, hql, htext, Option.map_some, Option.some.injEq, Step.childAncestry, hqa,
      childAncestry_render (by simp), hqid, ← render_concat hne, render_inj] at hxa
    have hlen := congrArg List.length hxa
    simp at hlen

/-- The steps once the form is handled behind the map. -/
theorem projectSteps_mapFirst (hproject : db.projects.find? p = some project)
    (h : StepTree (db.projectSteps p).length (db.projectSteps p)) (hnames : StepRequest.NamesShown p db) (hq : q ∈ db.projectSteps p)
    (hf : StepRequest.PlainFields fields) (u : User) (now : Nat) {d : Dom}
    (hmap : StepRequest.formMap p db (some q.id) = some d) :
    let db' := (updateAncestry p (createStepMapArray d) db).2
    (¬ (db.author p u.id = true ∧ blank (StepAttr.nameOf fields) = false ∧
        validFormat (StepsController.parentAncestry db' (some (.ofId q.id))) = true) ∧
        (StepRequest.mapFirst p db u now (some q.id) fields).projectSteps p = db'.projectSteps p) ∨
      ∃ x, (StepRequest.mapFirst p db u now (some q.id) fields).projectSteps p = db'.projectSteps p ++ [x] ∧
        x.id = db.steps.next ∧ x.ancestry = StepsController.parentAncestry db' (some (.ofId q.id)) := by
  have hparent : StepRequest.ParentOk p db ((some q.id).map .ofId) := ⟨q, hq, (toI_toS q.id).symm⟩
  obtain ⟨d', gap, hmap', -, -, -, hparent', -⟩ := h.formMap hnames hparent
  obtain rfl : d' = d := Option.some.inj (hmap'.symm.trans hmap)
  have hwrite : (updateAncestry p (createStepMapArray d') db).2 = (createStepMapArray d').foldl updateEntry db := by
    rw [updateAncestry, hproject]
  obtain ⟨ss, ds, hsame⟩ := Database.SameButSteps.foldl_updateEntry (createStepMapArray d') db
  dsimp only
  rw [StepRequest.mapFirst, StepRequest.perform, hmap]
  dsimp only
  rw [hwrite]
  rcases create_formParams u now true p _ hparent' hf (some (d'.position "newStep".toList)) with
    ⟨heq, hno⟩ | ⟨x, heq, hid, hanc, -⟩
  · refine Or.inl ⟨fun hyes => hno ⟨?_, ?_, hyes.2⟩, by rw [heq]⟩
    · rw [hsame, show ({ db with steps := ss, decisions := ds } : Database).projects = db.projects from rfl, hproject]
      simp
    · rw [hsame]
      exact hyes.1
  · exact Or.inr ⟨x, heq, hid.trans (next_foldl_updateEntry _ db), hanc⟩

/-- When the map comes first and the step of the form hangs below the chosen parent, `Step.find` has found that one. -/
theorem findsId_of_mapFirst (hproject : db.projects.find? p = some project)
    (h : StepTree (db.projectSteps p).length (db.projectSteps p)) (hnames : StepRequest.NamesShown p db) (hq : q ∈ db.projectSteps p)
    (hf : StepRequest.PlainFields fields) (now : Nat) {d : Dom} (hmap : StepRequest.formMap p db (some q.id) = some d)
    (hbelow : (StepRequest.mapFirst p db u now (some q.id) fields).HangsBelow p db.steps.next q.id) :
    (updateAncestry p (createStepMapArray d) db).2.FindsId q.id := by
  have hold : ∀ s ∈ (updateAncestry p (createStepMapArray d) db).2.projectSteps p, s.id < db.steps.next := by
    rw [updateAncestry, hproject]
    exact id_lt_next
  obtain ⟨y, hy, hnext, hparent⟩ := hbelow
  rcases projectSteps_mapFirst hproject h hnames hq hf u now hmap with ⟨-, heq⟩ | ⟨x, heq, hid, hanc⟩
  all_goals rw [heq] at hy
  · exact absurd hnext (Nat.ne_of_lt (hold y hy))
  · rw [eq_of_next hold hy hnext, hanc] at hparent
    exact Database.findsId_of_parentAncestry hparent

theorem of_mapFirst (hproject : db.projects.find? p = some project)
    (h : StepTree (db.projectSteps p).length (db.projectSteps p)) (hnames : StepRequest.NamesShown p db) (hq : q ∈ db.projectSteps p)
    (hauthor : db.author p u.id = true) (hname : blank (StepAttr.nameOf fields) = false)
    (hf : StepRequest.PlainFields fields) (now : Nat) (hfinds : ∀ d ∈ StepRequest.formMap p db (some q.id),
      (updateAncestry p (createStepMapArray d) db).2.FindsId q.id) :
    let db' := StepRequest.mapFirst p db u now (some q.id) fields
    StepTree (db'.projectSteps p).length (db'.projectSteps p) ∧ db'.HangsBelow p db.steps.next q.id := by
  have hparent : StepRequest.ParentOk p db ((some q.id).map .ofId) := ⟨q, hq, (toI_toS q.id).symm⟩
  obtain ⟨d, gap, hmap, hpos, -, htree, -, hbefore, -, -⟩ := h.formMap hnames hparent
  have hwrite : (updateAncestry p (createStepMapArray d) db).2 = (createStepMapArray d).foldl updateEntry db := by
    rw [updateAncestry, hproject]
  -- the row of the parent once the map is written
  have hq' : (createStepMapArray d).foldl remapped q ∈
      ((createStepMapArray d).foldl updateEntry db).projectSteps p := by
    rw [projectSteps_foldl_updateEntry]
    exact List.mem_map_of_mem hq
  have hqid := foldl_remapped_id (createStepMapArray d) q
  have hfind : ((createStepMapArray d).foldl updateEntry db).findStep (.ofId q.id) =
      some ((createStepMapArray d).foldl remapped q) := by
    have hfound := hfinds d hmap
    rw [hwrite, ← hqid] at hfound
    rw [← hqid]
    exact Database.findStep_of_findsId (Database.mem_projectSteps.mp hq').1 hfound
  have hfindsSteps : StepRequest.FindsSteps p db (.submitForm u now (some q.id) fields) := by
    intro d' hmap' key hkey
    obtain rfl : d = d' := Option.some.inj (hmap.symm.trans hmap')
    obtain rfl := Option.some.inj hkey
    rw [hwrite, hpos]
    exact ⟨_, hq', hfind, hbefore _ hq' (congrArg some hqid.symm)⟩
  refine ⟨h.perform_submitForm hnames hparent hf u now (Or.inl ⟨hauthor, hname⟩) hfindsSteps, ?_⟩
  obtain ⟨hanc, hformat⟩ := htree.parentAncestry hq' hfind
  have hsteps := projectSteps_mapFirst hproject h hnames hq hf u now hmap
  dsimp only at hsteps
  rw [hwrite, hanc] at hsteps
  obtain ⟨x, hsteps, hid, hxanc⟩ := hsteps.resolve_left fun hno => hno.1 ⟨hauthor, hname, hformat⟩
  refine ⟨x, by rw [hsteps]; simp, hid, ?_⟩
  rw [hxanc, Option.map_some, Database.getParent_childAncestry, hqid]

/-- The rows that a destroy adopts are those drawn below the step, at any depth. -/
theorem adopted_iff (h : StepTree free (db.projectSteps p)) {s c : Step} (hs : s ∈ db.projectSteps p)
    (htop : s.topLevel = false) (hc : c ∈ db.projectSteps p) :
    s.isDescendant c = true ↔ s.id ∈ ancestorIds c.ancestry := by
  have hs0 : s.position ≠ 0 := by
    intro h0
    rw [h.root s hs h0] at htop
    cases htop
  obtain ⟨ls, hls, hsa, -⟩ := h.path hs hs0
  by_cases hc0 : c.position = 0
  · -- the root lists nothing or a zero
    have hid := h.pos s hs
    have hchild : s.childAncestry = render (ls ++ [s.id]) := by
      rw [Step.childAncestry, hsa, childAncestry_render hls]
    have hne : ls ++ [s.id] ≠ [] := by simp
    rw [Step.isDescendant, hchild]
    rcases topLevel_iff.mp (h.root c hc hc0) with ha | ha | ha
    · rw [ha, ancestorIds_none]
      exact iff_of_false (by simp [descendant]) List.not_mem_nil
    · rw [ha, ← render_nil, descendant_render hne, ancestorIds_render]
      exact iff_of_false (fun hp => hne (List.prefix_nil.mp hp)) List.not_mem_nil
    · rw [ha, ← render_zero, descendant_render hne, ancestorIds_render]
      constructor
      · intro hp
        exact hp.subset (by simp)
      · intro hmem
        rw [List.mem_singleton] at hmem
        omega
  · obtain ⟨lc, -, hca, -⟩ := h.path hc hc0
    rw [h.isDescendant_iff hs hs0 hls hsa hc hc0 hca, hca, ancestorIds_render]

end StepTree

/-- The project is shaped as a tree, and the destroy of a step below the root will adopt what is drawn
below it. -/
structure Mappable (db : Database) (p : Nat) : Prop where
  shaped : TreeShaped db p
  adopted : ∀ s ∈ db.projectSteps p, s.topLevel = false → ∀ c ∈ db.projectSteps p,
    s.isDescendant c = true ↔ s.id ∈ ancestorIds c.ancestry

theorem StepTree.mappable {db : Database} {p : Nat}
    (h : StepTree (db.projectSteps p).length (db.projectSteps p)) : Mappable db p :=
  ⟨h.treeShaped, fun _ hs htop _ hc => h.adopted_iff hs htop hc⟩

/-- Both orders keep the tree, with the new step below the chosen parent, exactly when the page shows the names of all
steps, `Step.find` takes the parent for its id in either order and the column of the parent does not start with a zero
and a slash. -/
theorem both_orders_mappable_iff {db : Database} {p : Nat} {project : Project}
    (hproject : db.projects.find? p = some project)
    (h : StepTree (db.projectSteps p).length (db.projectSteps p)) (hmarkup : ∀ s ∈ db.projectSteps p, s.NoMarkup)
    {q : Step} (hq : q ∈ db.projectSteps p) {u : User} (hauthor : db.author p u.id = true) {fields : List StepAttr}
    (hname : blank (StepAttr.nameOf fields) = false) (hf : StepRequest.PlainFields fields) (now : Nat) :
    (∀ db' ∈ [StepRequest.mapFirst p db u now (some q.id) fields, StepRequest.formFirst p db u now (some q.id) fields],
      Mappable db' p ∧ db'.HangsBelow p db.steps.next q.id) ↔
    StepRequest.NamesShown p db ∧ db.FindsId q.id ∧ (∀ d ∈ StepRequest.formMap p db (some q.id),
      (updateAncestry p (createStepMapArray d) db).2.FindsId q.id) ∧ q.zeroed = false := by
  rw [List.forall_mem_cons, List.forall_mem_singleton]
  constructor
  · rintro ⟨⟨-, hmapped⟩, hshaped, hformed⟩
    obtain ⟨x, hx, hid, -⟩ := id hformed
    have hnames := h.namesShown_of_formFirst hmarkup hq hf now ⟨x, hx, hid⟩ hshaped.shaped
    have hfinds := h.findsId_of_formFirst hproject hnames hq hf now hformed
    refine ⟨hnames, hfinds, fun d hd => ?_, h.zeroed_of_formFirst hproject hnames hq hauthor hname hf now hfinds hshaped.shaped⟩
    exact h.findsId_of_mapFirst hproject hnames hq hf now hd hmapped
  · rintro ⟨hnames, hfinds, hfinds', hzero⟩
    obtain ⟨htree, hbelow⟩ := h.of_formFirst hproject hnames hq hauthor hname hf now hfinds hzero
    obtain ⟨htree', hbelow'⟩ := h.of_mapFirst hproject hnames hq hauthor hname hf now hfinds'
    exact ⟨⟨htree'.mappable, hbelow'⟩, htree.mappable, hbelow⟩

/-- A root that the map has saved, and a step below it. -/
def savedRoot : List StepRequest :=
  [.create ada 0 false none [.name "Saw".toList], .saveMap [],
    .create ada 1 false (some (.ofId 11)) [.name "Sand".toList]]

theorem stepTree_savedRoot :
    let db := Run.after (StepRequest.perform 1) .stepless savedRoot
    StepTree (db.projectSteps 1).length (db.projectSteps 1) := by
  refine StepTree.after_run ?_ (by decide +kernel) (by decide +kernel) (by decide +kernel) (by decide +kernel)
  exact StepTree.empty

theorem both_orders_mappable_below_root :
    let db := Run.after (StepRequest.perform 1) .stepless savedRoot
    ∀ db' ∈ [StepRequest.mapFirst 1 db ada 2 (some 11) [.name "Glue".toList],
        StepRequest.formFirst 1 db ada 2 (some 11) [.name "Glue".toList]],
      Mappable db' 1 ∧ db'.HangsBelow 1 db.steps.next 11 := by
  intro db
  obtain ⟨project, hproject⟩ : ∃ project, db.projects.find? 1 = some project :=
    Option.isSome_iff_exists.mp (by decide +kernel)
  obtain ⟨q, hq, hid, hzero⟩ : ∃ q ∈ db.projectSteps 1, q.id = 11 ∧ q.zeroed = false := by
    decide +kernel
  have hauthor : db.author 1 ada.id = true := by decide +kernel
  have hname : blank (StepAttr.nameOf [.name "Glue".toList]) = false := by decide
  have hmarkup : ∀ s ∈ db.projectSteps 1, s.NoMarkup := by decide +kernel
  have hboth := both_orders_mappable_iff hproject stepTree_savedRoot hmarkup hq hauthor hname (by decide) 2
  rw [hid] at hboth
  exact hboth.mpr ⟨by decide +kernel, by decide +kernel, by decide +kernel, hzero⟩

/-- The form writes `0/11/12` below the step with `0/11`, and the map then writes `11` there: the new step is
drawn below step 12 and is no descendant of it. -/
theorem form_first_loses_child :
    let db := Run.after (StepRequest.perform 1) .stepless savedRoot
    let db' := StepRequest.formFirst 1 db ada 2 (some 12) [.name "Glue".toList]
    TreeShaped db 1 ∧ Mappable (StepRequest.mapFirst 1 db ada 2 (some 12) [.name "Glue".toList]) 1 ∧
    (db'.orderedSteps 1).map (fun s => (s.id, s.ancestry)) =
      [(11, some ['0']), (12, some "11".toList), (13, some "0/11/12".toList)] ∧
    ¬ Mappable db' 1 := by
  intro db db'
  have h : StepTree (db.projectSteps 1).length (db.projectSteps 1) := stepTree_savedRoot
  have hparent : StepRequest.ParentOk 1 db ((some 12).map .ofId) := by decide +kernel
  have hfields : StepRequest.PlainFields [.name "Glue".toList] := by decide
  have hmap := h.perform_submitForm (by decide +kernel) hparent hfields ada 2 (Or.inl (by decide +kernel)) (by decide +kernel)
  refine ⟨h.treeShaped, hmap.mappable, by decide +kernel, ?_⟩
  intro hbad
  exact absurd hbad.shaped.child (by decide +kernel)
