import BuildInProgress.AncestryRestore
import BuildInProgress.StepRuns

/-!
# Restoring the steps

The process map writes `"0"` into the step at the top and paths that may start with a zero into the steps below it,
which the gem takes for references to a step that does not exist.  `Step.restore_ancestry_integrity!` rewrites all of
them.  Whatever else is in the table, a project whose steps form a tree keeps its tree and its process map.
-/

open Text Ancestry Ancestry.Nodes Chain

namespace Database

/-- The steps as the gem sees them. -/
def stepNodes (db : Database) : Table Node where
  rows := db.steps.rows.map fun s => ⟨s.id, s.ancestry⟩
  next := db.steps.next
  next_pos := db.steps.next_pos
  nodup := by
    rw [List.map_map]
    exact db.steps.nodup
  bound := by
    intro node hnode
    obtain ⟨s, hs, rfl⟩ := List.mem_map.mp hnode
    exact db.steps.bound s hs

/-- A step with the column that its node has in `t`. -/
def withColumn (t : Table Node) (s : Step) : Step := { s with ancestry := (t.find? s.id).bind Node.ancestry }

/-- The step columns after `Step.restore_ancestry_integrity!`. -/
def restoreSteps (db : Database) : Option Database :=
  (restoreAncestryIntegrity db.stepNodes).map fun t => { db with steps := db.steps.map (withColumn t) fun _ => rfl }

theorem mem_stepNodes {db : Database} {s : Step} (hs : s ∈ db.steps.rows) :
    (⟨s.id, s.ancestry⟩ : Node) ∈ db.stepNodes.rows :=
  List.mem_map_of_mem (f := fun s : Step => (⟨s.id, s.ancestry⟩ : Node)) hs

theorem link_step {db : Database} {s : Step} (hs : s ∈ db.steps.rows) :
    link db.stepNodes s.id = savedParent db.stepNodes ⟨s.id, s.ancestry⟩ := link_of_mem (mem_stepNodes hs)

theorem found_step {db : Database} {s : Step} (hs : s ∈ db.steps.rows) : found db.stepNodes s.id = true :=
  found_iff.mpr ⟨_, mem_stepNodes hs, rfl⟩

/-- No step has the id zero. -/
theorem found_zero (db : Database) : found db.stepNodes 0 = false := by
  rw [← Bool.not_eq_true, found_iff]
  rintro ⟨node, hnode, hid⟩
  have hpos : 0 < node.id := (db.stepNodes.bound node hnode).1
  omega

/-- The gem reads no parent from a step at the top. -/
theorem link_topLevel {db : Database} {s : Step} (hs : s ∈ db.steps.rows) (htop : s.topLevel = true) :
    link db.stepNodes s.id = none := by
  rw [link_step hs, savedParent]
  rcases topLevel_iff.mp htop with h | h | h
  · rw [h]
    rfl
  · have hbad : ¬ validFormat (some []) = true := by decide
    rw [h]
    exact if_neg hbad
  · have hgood : validFormat (some ['0']) = true := by decide
    have hparent : Node.parentId ⟨s.id, some ['0']⟩ = some 0 := by
      rw [Node.parentId, Node.ancestorIds, ← render_zero, ancestorIds_render]
      rfl
    rw [h, if_pos hgood, hparent, Option.filter_some, found_zero, if_neg (by decide)]

/-- And from a step below another one its parent. -/
theorem link_childOf {db : Database} {q s : Step} (hq : q ∈ db.steps.rows) (hs : s ∈ db.steps.rows) (hc : ChildOf q s) :
    link db.stepNodes s.id = some q.id := by
  obtain ⟨l, hl⟩ := hc.path
  have hparent : Node.parentId ⟨s.id, some (render (l ++ [q.id]))⟩ = some q.id := by
    rw [Node.parentId, Node.ancestorIds, ancestorIds_render, List.getLast?_concat]
  have hvalid : validFormat (some (render (l ++ [q.id]))) = true := pattern_render (by simp)
  rw [link_step hs, savedParent, hl, if_pos hvalid, hparent, Option.filter_some, if_pos (found_step hq)]

end Database

namespace StepTree

variable {db : Database} {p : Nat} {free : Int}

/-- The restoration keeps the references of the steps of a tree. -/
theorem kept_eq (h : StepTree free (db.projectSteps p)) {s : Step} (hs : s ∈ db.projectSteps p) :
    kept db.stepNodes s.id = link db.stepNodes s.id := by
  have hrow : ∀ s ∈ db.projectSteps p, s ∈ db.steps.rows := fun s hs => (Database.mem_projectSteps.mp hs).1
  -- climbing from a step ends at the top
  have hasc : ∃ l, Lineage.Ascends (link db.stepNodes) (s.id :: l) := by
    refine h.parent_induction (P := fun s => ∃ l, Lineage.Ascends (link db.stepNodes) (s.id :: l)) ?_ ?_ hs
    · intro s hs hp
      exact ⟨[], Database.link_topLevel (hrow s hs) (h.root s hs hp), trivial⟩
    · rintro s hs - q hq - hc ⟨l, hl⟩
      exact ⟨q.id :: l, Database.link_childOf (hrow q hq) (hrow s hs) hc, hl⟩
  obtain ⟨l, hl⟩ := hasc
  have hnot : ¬ Newest (link db.stepNodes) s.id := fun hnew => not_onCycle_of_ascends hl hnew.1
  rw [kept, broken, if_pos ⟨trivial, hnot⟩]

section Restored

variable {t : Table Node} {line : Nat → List Nat}

theorem line_topLevel (h : StepTree free (db.projectSteps p))
    (hline : ∀ id, Lineage.Ascends (kept db.stepNodes) (id :: (line id).reverse)) {s : Step}
    (hs : s ∈ db.projectSteps p) (hp : s.position = 0) : line s.id = [] := by
  have hlink := (hline s.id).1
  rw [h.kept_eq hs, Database.link_topLevel (Database.mem_projectSteps.mp hs).1 (h.root s hs hp)] at hlink
  exact List.reverse_eq_nil_iff.mp (List.head?_eq_none_iff.mp hlink.symm)

theorem line_childOf (h : StepTree free (db.projectSteps p))
    (hline : ∀ id, Lineage.Ascends (kept db.stepNodes) (id :: (line id).reverse)) {q s : Step}
    (hq : q ∈ db.projectSteps p) (hs : s ∈ db.projectSteps p) (hc : ChildOf q s) : line s.id = line q.id ++ [q.id] := by
  have hlink : kept db.stepNodes s.id = some q.id := by
    rw [h.kept_eq hs]
    exact Database.link_childOf (Database.mem_projectSteps.mp hq).1 (Database.mem_projectSteps.mp hs).1 hc
  have hasc : Lineage.Ascends (kept db.stepNodes) (s.id :: (line q.id ++ [q.id]).reverse) := by
    rw [List.reverse_append, List.reverse_singleton, List.singleton_append]
    exact ⟨hlink, hline q.id⟩
  exact List.reverse_injective ((hline s.id).unique hasc)

/-- The tree with the columns written anew. -/
theorem rewritten (h : StepTree free (db.projectSteps p))
    (hline : ∀ id, Lineage.Ascends (kept db.stepNodes) (id :: (line id).reverse))
    {g : Step → Step} (hg : ∀ s ∈ db.projectSteps p, g s = { s with ancestry := written (line s.id) }) :
    StepTree free ((db.projectSteps p).map g) ∧
      ∀ q ∈ db.projectSteps p, ∀ s ∈ db.projectSteps p, ChildOf q s → ChildOf (g q) (g s) := by
  have hchild : ∀ q ∈ db.projectSteps p, ∀ s ∈ db.projectSteps p, ChildOf q s → ChildOf (g q) (g s) := by
    intro q hq s hs hc
    have hs' : (g s).ancestry = some (render (line q.id ++ [q.id])) := by
      rw [hg s hs]
      show written (line s.id) = _
      rw [h.line_childOf hline hq hs hc, written_of_ne_nil (by simp)]
    have hid : (g q).id = q.id := by rw [hg q hq]
    by_cases hnil : line q.id = []
    · refine Or.inr ⟨topLevel_iff.mpr (Or.inl ?_), ?_⟩
      · rw [hg q hq]
        show written (line q.id) = none
        rw [hnil]
        rfl
      · rw [hs', hnil, hid]
        rfl
    · refine Or.inl ⟨line q.id, hnil, ?_, ?_⟩
      · rw [hg q hq]
        exact written_of_ne_nil hnil
      · rw [hs', hid]
  have hmap : ∀ {β : Type} (f : Step → β), (∀ s ∈ db.projectSteps p, f (g s) = f s) →
      ((db.projectSteps p).map g).map f = (db.projectSteps p).map f := by
    intro β f hf
    rw [List.map_map]
    exact List.map_congr_left hf
  refine ⟨?_, hchild⟩
  constructor
  · rw [hmap Step.id fun s hs => by rw [hg s hs]]
    exact h.ids
  · rintro _ hx
    obtain ⟨s, hs, rfl⟩ := List.mem_map.mp hx
    rw [hg s hs]
    exact h.pos s hs
  · rintro _ hx
    obtain ⟨s, hs, rfl⟩ := List.mem_map.mp hx
    rw [hg s hs]
    exact h.named s hs
  · rw [hmap Step.position fun s hs => by rw [hg s hs]]
    exact h.positions
  · rintro _ hx
    obtain ⟨s, hs, rfl⟩ := List.mem_map.mp hx
    rw [hg s hs, List.length_map]
    exact h.range s hs
  · rintro _ hx hp
    obtain ⟨s, hs, rfl⟩ := List.mem_map.mp hx
    rw [hg s hs] at hp ⊢
    refine topLevel_iff.mpr (Or.inl ?_)
    show written (line s.id) = none
    rw [h.line_topLevel hline hs hp]
    rfl
  · rintro _ hx hp
    obtain ⟨s, hs, rfl⟩ := List.mem_map.mp hx
    have hpos : ∀ s ∈ db.projectSteps p, (g s).position = s.position := fun s hs => by rw [hg s hs]
    rw [hpos s hs] at hp
    obtain ⟨q, hq, hlt, hc⟩ := h.child s hs hp
    exact ⟨g q, List.mem_map_of_mem hq, by rw [hpos q hq, hpos s hs]; exact hlt, hchild q hq s hs hc⟩

end Restored

end StepTree

/-- `Step.restore_ancestry_integrity!` comes to an end, and every project whose steps form a tree keeps the tree and
is drawn as before by the scripts of its steps, also on the page if the names of all steps are shown. -/
theorem restore_keeps_process_maps (db : Database) :
    ∃ db', db.restoreSteps = some db' ∧ ∀ p free, StepTree free (db.projectSteps p) →
      StepTree free (db'.projectSteps p) ∧ nestList (db'.orderedSteps p) = nestList (db.orderedSteps p) ∧
      (StepRequest.NamesShown p db → drawList (db'.orderedSteps p) = drawList (db.orderedSteps p)) := by
  obtain ⟨t, line, hrestore, hrows, hline⟩ := restore_spec db.stepNodes
  refine ⟨_, by rw [Database.restoreSteps, hrestore, Option.map_some], ?_⟩
  intro p free h
  have hg : ∀ s ∈ db.projectSteps p, Database.withColumn t s = { s with ancestry := written (line s.id) } := by
    intro s hs
    have hrow : (⟨s.id, written (line s.id)⟩ : Node) ∈ t.rows :=
      (mem_restored hrows).mpr ⟨Database.found_step (Database.mem_projectSteps.mp hs).1, rfl⟩
    have hfind : t.find? s.id = some ⟨s.id, written (line s.id)⟩ := Table.find?_of_mem hrow
    rw [Database.withColumn, hfind]
    rfl
  obtain ⟨htree, hchild⟩ := h.rewritten hline hg
  generalize hdb' : ({ db with steps := db.steps.map (Database.withColumn t) fun _ => rfl } : Database) = db'
  have hsteps : db'.steps.rows = db.steps.rows.map (Database.withColumn t) := by rw [← hdb']; rfl
  have hproject : db'.projectSteps p = (db.projectSteps p).map (Database.withColumn t) := by
    rw [Database.projectSteps, hsteps, List.filter_map, Database.projectSteps]
    rfl
  have hordered : db'.orderedSteps p = (db.orderedSteps p).map (Database.withColumn t) := by
    rw [Database.orderedSteps, hproject]
    exact (List.map_insertionSort (fun a b : Step => a.position ≤ b.position)
      (fun a b : Step => a.position ≤ b.position) (Database.withColumn t) _ fun a _ b _ => Iff.rfl).symm
  rw [← hproject] at htree
  have hnamed : StepRequest.NamesShown p db → StepRequest.NamesShown p db' := by
    intro hnames s' hs'
    rw [hordered] at hs'
    obtain ⟨s, hs, rfl⟩ := List.mem_map.mp hs'
    exact (Step.plainName_congr rfl).trans (hnames s hs)
  have hsame : nestList (db'.orderedSteps p) = nestList (db.orderedSteps p) := ?_
  · refine ⟨htree, hsame, fun hnames => ?_⟩
    rw [drawList_eq_nestList (hnamed hnames), drawList_eq_nestList hnames, hsame]
  have hpos : ∀ {db : Database}, StepTree free (db.projectSteps p) → ∀ s ∈ db.orderedSteps p, 0 < s.id :=
    fun h s hs => h.pos s (Database.mem_orderedSteps.mp hs)
  rw [nestList_eq (db'.nodup_orderedSteps p) (hpos htree) htree.drawable,
    nestList_eq (db.nodup_orderedSteps p) (hpos h) h.drawable, drawnForest, drawnForest, hordered, List.map_map]
  -- each step is drawn below the step it was drawn below
  congr 4
  apply List.map_congr_left
  intro s hs
  have hs := Database.mem_orderedSteps.mp hs
  have hbelow : (Database.withColumn t s).drawnBelow = s.drawnBelow := by
    by_cases hp : s.position = 0
    · have htop : (Database.withColumn t s).topLevel = true :=
        htree.root _ (hproject ▸ List.mem_map_of_mem hs) hp
      rw [Step.drawnBelow_of_top htop, Step.drawnBelow_of_top (h.root s hs hp)]
    · obtain ⟨q, hq, -, hc⟩ := h.child s hs hp
      have hq0 := h.pos q hq
      have hdrawn : ∀ {q s : Step}, 0 < q.id → ChildOf q s → s.drawnBelow = some q.id := by
        intro q s hpos hc
        obtain ⟨a, ha, hpa⟩ := Option.map_eq_some_iff.mp hc.getParent_eq
        exact Step.drawnBelow_of_parent ha hpa hpos
      rw [hdrawn hq0 hc, hdrawn (q := Database.withColumn t q) hq0 (hchild q hq s hs hc)]
      rfl
  rw [Function.comp, Step.entry, Step.entry, hbelow]
  rfl

/-- The columns of two steps as the process map writes them; the first one changes. -/
theorem restore_two_steps :
    let step (i : Nat) (position : Int) (ancestry : Text) : Step :=
      { StepsController.blankStep i 1 0 with name := "Saw".toList, position, ancestry := some ancestry }
    let db : Database := { Database.oneProject "Lamp".toList none with
      steps := .ofRows [step 1 0 ['0'], step 2 1 ['1']] 3 (by decide) }
    ∃ db', db.restoreSteps = some db' ∧ db'.steps.rows ≠ db.steps.rows ∧
      drawList (db'.orderedSteps 1) = drawList (db.orderedSteps 1) := by
  intro step db
  obtain ⟨db', hrestore, hmaps⟩ := restore_keeps_process_maps db
  have htree : StepTree 2 (db.projectSteps 1) := by
    have hsteps : db.projectSteps 1 = [step 1 0 ['0'], step 2 1 ['1']] := by decide +kernel
    rw [hsteps]
    refine ⟨by decide +kernel, by decide +kernel, by decide +kernel, by decide +kernel, by decide +kernel,
      by decide +kernel, ?_⟩
    intro s hs hp
    refine ⟨step 1 0 ['0'], List.mem_cons_self, ?_, Or.inr ⟨rfl, ?_⟩⟩ <;> revert s <;> decide +kernel
  refine ⟨db', hrestore, fun hsame => ?_, (hmaps 1 2 htree).2.2 (by decide +kernel)⟩
  have hchanged : db.restoreSteps.map (·.steps.rows) ≠ some db.steps.rows := by decide +kernel
  rw [hrestore, Option.map_some, hsame] at hchanged
  exact hchanged rfl
