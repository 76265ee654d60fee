import BuildInProgress.StepTree

/-!
# The New Step item

The page of a new step shows the process map with one more item, `newStep`, at the end of the list
below the chosen parent.  `saveOrdering` sends the map with that item in it, so the steps behind it
are written one position further and its own place stays free for the step about to be created.
-/

open Text Ancestry StepsController

namespace Dom

theorem lis_append (pre : List Text) (d e : Dom) : (d.append e).lis pre = d.lis pre ++ e.lis pre := by
  induction d with
  | nil => rfl
  | li c i n _ ihn => rw [append, lis, lis, ihn, List.cons_append, List.append_assoc]
  | ul c i n _ ihn => rw [append, lis, lis, ihn, List.append_assoc]

/-- A list with one item, appended to the item of class `c`, comes somewhere after that item. -/
theorem lis_appendToLi {f : Forest Text} (hn : f.labels.Nodup) {c : Text} (hc : c ∈ f.labels)
    (k x : Text) (pre : List Text) :
    ∃ A B w, f.paths pre = A ++ B ∧ c ∈ A.map Prod.fst ∧
      ((ofForest f).appendToLi c (ul k (li x nil nil) nil)).lis pre = A ++ (x, w) :: B := by
  induction f generalizing pre with
  | nil => simp [Forest.labels] at hc
  | node a g r ihg ihr =>
    simp only [Forest.labels, List.nodup_cons, List.mem_append, not_or, List.nodup_append] at hn
    obtain ⟨⟨hag, har⟩, hg, hr, hgr⟩ := hn
    rw [ofForest, appendToLi, lis, Forest.paths]
    -- the list below `a`, with and without the new item
    have hinner : (if g = .nil then nil else ul a (ofForest g) nil).lis pre = g.paths (pre ++ [a]) := by
      split
      · rename_i h
        rw [h]
        rfl
      · simp [lis]
    have hbelow : (if g = .nil then nil else ul a (ofForest g) nil).appendToLi c
          (ul k (li x nil nil) nil) =
        if g = .nil then nil
        else ul a ((ofForest g).appendToLi c (ul k (li x nil nil) nil)) nil := by
      split <;> rfl
    by_cases ha : a = c
    · subst ha
      refine ⟨(a, pre) :: g.paths (pre ++ [a]), r.paths pre, pre ++ [k], rfl, by simp, ?_⟩
      rw [if_pos rfl, hbelow, appendToLi_of_notMem hag, appendToLi_of_notMem har, lis_append, hinner,
        lis_ofForest]
      simp [lis]
    · rw [if_neg ha, hbelow]
      simp only [Forest.labels, List.mem_cons, List.mem_append] at hc
      rcases hc.resolve_left (Ne.symm ha) with hcg | hcr
      · obtain ⟨A, B, w, hpaths, hmem, hlis⟩ := ihg hg hcg (pre ++ [a])
        have hg' : g ≠ .nil := by
          intro h
          rw [h] at hcg
          simp [Forest.labels] at hcg
        refine ⟨(a, pre) :: A, B ++ r.paths pre, w, by simp [hpaths], by simp [hmem], ?_⟩
        rw [appendToLi_of_notMem fun h => hgr c hcg c h rfl, if_neg hg', lis, hlis, lis_ofForest]
        simp [lis]
      · obtain ⟨A, B, w, hpaths, hmem, hlis⟩ := ihr hr hcr pre
        refine ⟨(a, pre) :: (g.paths (pre ++ [a]) ++ A), B, w, by simp [hpaths], by simp [hmem], ?_⟩
        rw [appendToLi_of_notMem fun h => hgr c h c hcr rfl, hinner, hlis]
        simp

/-- An item of the map of a forest of steps, as `lis` lists it. -/
def stepItem (e : Nat × List Nat) : Text × List Text := (toS e.1, ['0'] :: e.2.map toS)

/-- The map with the New Step item: the steps in their order, the item somewhere after its parent. -/
theorem lis_loadProcessMap {f : Forest Nat} (hn : f.labels.Nodup) (hpos : ∀ i ∈ f.labels, 0 < i)
    {q : Nat} (hq : q ∈ f.labels) :
    ∃ A B w, f.paths [] = A ++ B ∧ q ∈ A.map Prod.fst ∧
      (loadProcessMap (org (f.map toS)) (some q)).lis [] =
        A.map stepItem ++ ("newStep".toList, w) :: B.map stepItem := by
  have hn' : (f.map toS).labels.Nodup := by
    rw [Forest.labels_map]
    exact hn.map toS_injective
  have hq' : toS q ∈ (f.map toS).labels := by
    rw [Forest.labels_map]
    exact List.mem_map_of_mem hq
  have hq0 : toS q ≠ ['0'] := fun h => zero_notMem_labels hpos (h ▸ hq')
  have hall : (f.map toS).paths [['0']] = (f.paths []).map stepItem := by
    rw [← List.nil_append [['0']], ← lis_org, lis_org_toS]
    rfl
  -- over texts the item is found behind its parent, whether or not the parent has a list
  have htext : ∃ A B w, (f.map toS).paths [['0']] = A ++ B ∧ toS q ∈ A.map Prod.fst ∧
      (loadProcessMap (org (f.map toS)) (some q)).lis [] = A ++ ("newStep".toList, w) :: B := by
    by_cases hul : (org (f.map toS)).hasUl (toS q) = true
    · obtain ⟨A, B, w, hpaths, hmem, hgraft⟩ :=
        Forest.paths_graft_leaf hn' hq' "newStep".toList [['0']]
      refine ⟨A, B, w, hpaths, hmem, ?_⟩
      rw [loadProcessMap, if_pos hul, appendToUl_org hq0 hn' ((hasUl_org hq0).mp hul), lis_org]
      exact hgraft
    · obtain ⟨A, B, w, hpaths, hmem, hlis⟩ :=
        lis_appendToLi hn' hq' [] "newStep".toList [['0']]
      refine ⟨A, B, w, hpaths, hmem, ?_⟩
      rw [loadProcessMap, if_neg hul, org, appendToLi, lis]
      simpa [lis, appendToLi] using hlis
  obtain ⟨A', B', w, hpaths, hmem, hlis⟩ := htext
  rw [hall] at hpaths
  obtain ⟨A, B, hAB, rfl, rfl⟩ := List.map_eq_append_iff.mp hpaths
  refine ⟨A, B, w, hAB, ?_, hlis⟩
  rw [List.map_map] at hmem
  obtain ⟨e, he, heq⟩ := List.mem_map.mp hmem
  rw [← toS_injective heq]
  exact List.mem_map_of_mem he

section Box

variable {d : Dom} {A B : List (Nat × List Nat)} {w : List Text}

/-- The class of a step is made of digits only. -/
theorem toS_ne_of_mem {t : Text} {c : Char} (hc : c ∈ t) (hd : c.isDigit = false) (i : Nat) :
    toS i ≠ t := by
  intro h
  rw [isDigit_of_mem_toS (n := i) (h ▸ hc)] at hd
  cases hd

theorem toS_ne_newStep (i : Nat) : toS i ≠ "newStep".toList :=
  toS_ne_of_mem (c := 'n') (by decide) (by decide) i

/-- The class of the item and the ids of the steps are distinct. -/
theorem nodup_classes (hlis : d.lis [] = A.map stepItem ++ ("newStep".toList, w) :: B.map stepItem)
    (hn : ((A ++ B).map Prod.fst).Nodup) : ((d.lis []).map Prod.fst).Nodup := by
  have hmap : ∀ l : List (Nat × List Nat), (l.map stepItem).map Prod.fst = (l.map Prod.fst).map toS := by
    intro l
    rw [List.map_map, List.map_map]
    rfl
  have hperm : ((d.lis []).map Prod.fst).Perm
      ("newStep".toList :: ((A ++ B).map Prod.fst).map toS) := by
    rw [hlis, List.map_append, List.map_cons, hmap, hmap, List.map_append, List.map_append]
    exact List.perm_middle
  rw [hperm.nodup_iff, List.nodup_cons]
  refine ⟨?_, hn.map toS_injective⟩
  intro h
  obtain ⟨i, -, hi⟩ := List.mem_map.mp h
  exact toS_ne_newStep i hi

/-- `position('newStep')` is the number of steps before the item. -/
theorem position_newStep
    (hlis : d.lis [] = A.map stepItem ++ ("newStep".toList, w) :: B.map stepItem) :
    d.position "newStep".toList = A.length := by
  have hidx : (d.lis []).findIdx? (fun e => decide (e.1 = "newStep".toList)) = some A.length := by
    have hnone : (A.map stepItem).findIdx? (fun e => decide (e.1 = "newStep".toList)) = none := by
      rw [List.findIdx?_eq_none_iff]
      intro e he
      obtain ⟨a, -, rfl⟩ := List.mem_map.mp he
      exact decide_eq_false (toS_ne_newStep a.1)
    have hnew : (("newStep".toList, w) :: B.map stepItem).findIdx? (fun e => decide (e.1 = "newStep".toList)) =
        some 0 := by
      have htrue : decide ("newStep".toList = "newStep".toList) = true := decide_eq_true rfl
      rw [List.findIdx?_cons]
      exact if_pos htrue
    rw [hlis, List.findIdx?_append, hnone, hnew, Option.none_or, Option.map_some, List.length_map, Nat.zero_add]
  rw [position, hidx]

/-- The object sent for a map with the New Step item: its entry goes under a key that names no step,
the steps behind it carry a position one further. -/
theorem createStepMapArray_box
    (hlis : d.lis [] = A.map stepItem ++ ("newStep".toList, w) :: B.map stepItem)
    (hn : ((A ++ B).map Prod.fst).Nodup) (hpos : ∀ e ∈ A ++ B, ∀ i ∈ e.2, 0 < i) :
    createStepMapArray d =
      A.zipIdx.map entryOf ++ ⟨"undefined".toList, A.length, ['0']⟩ ::
        (B.zipIdx (A.length + 1)).map entryOf := by
  have hitem : ∀ e ∈ A ++ B, stepItem e ∈ d.lis [] := by
    intro e he
    rw [hlis]
    rcases List.mem_append.mp he with he | he
    · exact List.mem_append_left _ (List.mem_map_of_mem he)
    · exact List.mem_append_right _ (List.mem_cons_of_mem _ (List.mem_map_of_mem he))
  have hentry : ∀ e ∈ A ++ B, ∀ i : Nat,
      (⟨(getID (stepItem e).1).getD "undefined".toList, i,
        d.ancestry ((getID (stepItem e).1).getD "undefined".toList)⟩ : MapEntry) = entryOf (e, i) := by
    intro e he i
    have hanc := ancestry_of_find (hpos e he) (find?_class (nodup_classes hlis hn) (hitem e he))
    simp only [stepItem, getID_toS, Option.getD_some, entryOf, MapEntry.mk.injEq, true_and]
    exact hanc
  -- no item has the class under which the New Step item is sent
  have hbox : d.ancestry "undefined".toList = ['0'] := by
    have hnone : (d.lis []).find? (fun e => decide (e.1 = "undefined".toList)) = none := by
      rw [List.find?_eq_none]
      intro e he
      rw [decide_eq_true_eq]
      have hstep : ∀ l : List (Nat × List Nat), e ∈ l.map stepItem → e.1 ≠ "undefined".toList := by
        intro l hl
        obtain ⟨a, -, rfl⟩ := List.mem_map.mp hl
        exact toS_ne_of_mem (c := 'u') (by decide) (by decide) a.1
      rw [hlis, List.mem_append, List.mem_cons] at he
      rcases he with he | rfl | he
      · exact hstep A he
      · show "newStep".toList ≠ "undefined".toList
        decide
      · exact hstep B he
    rw [ancestry, hnone]
  have hmap : ∀ (l : List (Nat × List Nat)) (n : Nat), (∀ e ∈ l, e ∈ A ++ B) →
      ((l.map stepItem).zipIdx n).map (fun e => (⟨(getID e.1.1).getD "undefined".toList, e.2,
        d.ancestry ((getID e.1.1).getD "undefined".toList)⟩ : MapEntry)) =
      (l.zipIdx n).map entryOf := by
    intro l n hl
    rw [List.zipIdx_map, List.map_map]
    apply List.map_congr_left
    intro e he
    exact hentry e.1 (hl e.1 (List.fst_mem_of_mem_zipIdx he)) e.2
  rw [createStepMapArray, hlis, List.zipIdx_append, List.zipIdx_cons, List.map_append, List.map_cons]
  dsimp only
  rw [hmap A 0 fun e he => List.mem_append_left _ he, List.length_map, Nat.zero_add,
    hmap B (A.length + 1) fun e he => List.mem_append_right _ he]
  congr 2
  exact congrArg (MapEntry.mk _ _) hbox

end Box

end Dom

/-! ## The steps after `saveOrdering` -/

namespace StepTree

variable {db : Database} {p : Nat} {free : Int}

/-- The steps of a tree, in position order, can be drawn. -/
theorem drawable (h : StepTree free (db.projectSteps p)) : Drawable (db.orderedSteps p) := by
  intro l s r hsplit
  have hmem : ∀ t ∈ db.orderedSteps p, t ∈ db.projectSteps p := fun t => Database.mem_orderedSteps.mp
  have hs : s ∈ db.orderedSteps p := by rw [hsplit]; simp
  by_cases hp : s.position = 0
  · -- nothing comes before position 0
    have hl : l = [] := by
      by_contra hne
      obtain ⟨t, ht⟩ := List.exists_mem_of_ne_nil l hne
      have htmem : t ∈ db.orderedSteps p := by rw [hsplit]; exact List.mem_append_left _ ht
      have hsort : (db.orderedSteps p).Pairwise fun a b : Step => a.position ≤ b.position :=
        List.pairwise_insertionSort _ _
      have hids := db.nodup_orderedSteps p
      rw [hsplit] at hsort hids
      have hle := (List.pairwise_append.mp hsort).2.2 t ht s List.mem_cons_self
      have h0 := (h.range t (hmem t htmem)).1
      have hts := h.eq_of_position (hmem t htmem) (hmem s hs) (by omega)
      rw [List.map_append, List.map_cons, List.nodup_append] at hids
      exact hids.2.2 t.id (List.mem_map_of_mem ht) s.id List.mem_cons_self (congrArg Step.id hts)
    rw [if_pos hl]
    exact h.root s (hmem s hs) hp
  · obtain ⟨q, hq, hlt, hc⟩ := h.child s (hmem s hs) hp
    have hql := Database.mem_before hsplit (Database.mem_orderedSteps.mpr hq) hlt
    obtain ⟨a, ha, hpa⟩ := Option.map_eq_some_iff.mp hc.getParent_eq
    rw [if_neg (List.ne_nil_of_mem hql)]
    exact Or.inr ⟨a, q.id, ha, List.mem_map_of_mem hql, hpa⟩

/-- A tree with a step is drawn as one tree, its root at position 0. -/
theorem draw (h : StepTree free (db.projectSteps p)) (hne : db.projectSteps p ≠ []) :
    ∃ r k, drawnForest (db.orderedSteps p) = Forest.node r k .nil ∧
      nestList (db.orderedSteps p) = some (.org ((Forest.node r k .nil).map toS)) ∧
      (Forest.node r k .nil).labels.Perm ((db.projectSteps p).map Step.id) ∧
      ∀ s ∈ db.projectSteps p, s.id = r → s.position = 0 := by
  have hpos : ∀ s ∈ db.orderedSteps p, 0 < s.id := fun s hs =>
    h.pos s (Database.mem_orderedSteps.mp hs)
  have hn := db.nodup_orderedSteps p
  obtain ⟨hlabels, hroots, -⟩ := drawnForest_spec hn hpos h.drawable
  have hperm : (drawnForest (db.orderedSteps p)).labels.Perm ((db.projectSteps p).map Step.id) :=
    hlabels.trans ((db.perm_orderedSteps p).map Step.id)
  have hrootpos : ∀ i ∈ (drawnForest (db.orderedSteps p)).roots, ∀ s ∈ db.projectSteps p,
      s.id = i → s.position = 0 := by
    intro i hi s hs hid
    rw [hroots] at hi
    obtain ⟨t, ht, rfl⟩ := List.mem_map.mp hi
    rw [List.mem_filter, decide_eq_true_eq, Step.drawnBelow_eq_none] at ht
    have htmem := Database.mem_orderedSteps.mp ht.1
    rw [h.eq_of_id hs htmem hid]
    exact (h.topLevel_iff_position htmem).mp ht.2
  rw [nestList_eq hn hpos h.drawable]
  cases hf : drawnForest (db.orderedSteps p) with
  | nil =>
    rw [hf] at hperm
    exact absurd (List.map_eq_nil_iff.mp (List.nil_perm.mp hperm)) hne
  | node r k rest =>
    rw [hf] at hperm hrootpos
    cases rest with
    | nil => exact ⟨r, k, rfl, rfl, hperm, hrootpos r (by simp [Forest.roots])⟩
    | node r' k' rest' =>
      -- two roots would share position 0
      exfalso
      have hmem : ∀ i ∈ (Forest.node r k (.node r' k' rest')).labels,
          ∃ s ∈ db.projectSteps p, s.id = i := fun i hi =>
        List.mem_map.mp (hperm.mem_iff.mp hi)
      obtain ⟨s, hs, rfl⟩ := hmem r (by simp [Forest.labels])
      obtain ⟨t, ht, rfl⟩ := hmem r' (by simp [Forest.labels])
      have h0 := hrootpos s.id (by simp [Forest.roots]) s hs rfl
      have h0' := hrootpos t.id (by simp [Forest.roots]) t ht rfl
      have hst := h.eq_of_position hs ht (by omega)
      have hnod := hperm.nodup_iff.mpr h.ids
      rw [hst] at hnod
      simp [Forest.labels] at hnod

section Save

variable {r : Nat} {k : Forest Nat} {gap : Nat} {es : List MapEntry}

/-- Each step is written as the map shows it.  The row of the root may hold the empty ancestry, which
is not valid, but it keeps its position. -/
theorem row_of_entries (h : StepTree free (db.projectSteps p))
    (hg : (Forest.node r k .nil).labels.Perm ((db.projectSteps p).map Step.id))
    (hr : ∀ s ∈ db.projectSteps p, s.id = r → s.position = 0) (hgap : 0 < gap)
    (hkeys : (es.map fun e => (toI e.key).toNat).Nodup)
    (hes : ∀ i a l, ((Forest.node r k .nil).paths [])[i]? = some (a, l) →
      ∃ j : Nat, (j : Int) = skip gap i ∧ entryOf ((a, l), j) ∈ es)
    {s : Step} (hs : s ∈ db.projectSteps p) {i : Nat} {l : List Nat}
    (hi : ((Forest.node r k .nil).paths [])[i]? = some (s.id, l)) :
    es.foldl remapped s =
      { s with position := skip gap i, ancestry := some (Dom.ancestryText l) } := by
  obtain ⟨j, hj, he⟩ := hes i s.id l hi
  have hn := hg.nodup_iff.mpr h.ids
  rw [← hj]
  apply foldl_remapped_entryOf hkeys he (h.named s hs) (h.pos s hs)
  · exact Forest.notMem_path hn (List.mem_of_getElem? hi)
  · by_cases hs0 : s.position = 0
    · -- the root is the first item
      right
      obtain ⟨t, ht, hid⟩ := List.mem_map.mp (hg.mem_iff.mp (List.mem_cons_self (a := r)))
      have hst := h.eq_of_position hs ht (by rw [hs0, hr t ht hid])
      have hi0 : i = 0 := by
        have hget : (Forest.node r k .nil).labels[i]? = some r := by
          rw [← Forest.map_fst_paths [] (Forest.node r k .nil), List.getElem?_map, hi,
            Option.map_some, hst, hid]
        obtain ⟨hlt, hget⟩ := List.getElem?_eq_some_iff.mp hget
        have hidx := hn.idxOf_getElem i hlt
        rw [hget, Forest.labels, List.idxOf_cons_self] at hidx
        exact hidx.symm
      rw [hs0, hj, eq_comm, skip_eq_zero hgap]
      exact hi0
    · exact Or.inl (h.valid hs hs0)

theorem of_entries (h : StepTree free (db.projectSteps p))
    (hg : (Forest.node r k .nil).labels.Perm ((db.projectSteps p).map Step.id))
    (hr : ∀ s ∈ db.projectSteps p, s.id = r → s.position = 0) (hgap : 0 < gap)
    (hkeys : (es.map fun e => (toI e.key).toNat).Nodup)
    (hes : ∀ i a l, ((Forest.node r k .nil).paths [])[i]? = some (a, l) →
      ∃ j : Nat, (j : Int) = skip gap i ∧ entryOf ((a, l), j) ∈ es) :
    StepTree gap ((es.foldl updateEntry db).projectSteps p) := by
  rw [projectSteps_foldl_updateEntry]
  exact of_map h.ids h.pos h.named hg hgap fun s hs i l hi =>
    h.row_of_entries hg hr hgap hkeys hes hs hi

/-- Saving a rearranged map with the same root. -/
theorem save (h : StepTree free (db.projectSteps p))
    (hg : (Forest.node r k .nil).labels.Perm ((db.projectSteps p).map Step.id))
    (hr : ∀ s ∈ db.projectSteps p, s.id = r → s.position = 0) :
    StepTree (db.projectSteps p).length
      (((createStepMapArray (.org ((Forest.node r k .nil).map toS))).foldl updateEntry db).projectSteps
        p) := by
  have hn := hg.nodup_iff.mpr h.ids
  have hpos : ∀ i ∈ (Forest.node r k .nil).labels, 0 < i := fun i hi => by
    obtain ⟨s, hs, rfl⟩ := List.mem_map.mp (hg.mem_iff.mp hi)
    exact h.pos s hs
  have hlen : ((Forest.node r k .nil).paths []).length = (db.projectSteps p).length := by
    rw [← List.length_map (f := Prod.fst), Forest.map_fst_paths, hg.length_eq, List.length_map]
  rw [Dom.createStepMapArray_org hn hpos]
  apply h.of_entries hg hr
  · rw [← hlen]
    simp [Forest.paths]
  · rw [show (fun e : (Nat × List Nat) × Nat => (⟨toS e.1.1, e.2, Dom.ancestryText e.1.2⟩ : MapEntry)) =
      entryOf from rfl, keys_zipIdx, Forest.map_fst_paths]
    exact hn
  · intro i a l hi
    have hlt := (List.getElem?_eq_some_iff.mp hi).1
    refine ⟨i, ?_, ?_⟩
    · rw [skip, if_pos (by omega)]
    · apply List.mem_map_of_mem
      rw [List.mem_zipIdx_iff_getElem?]
      exact hi

/-- The key that the New Step item is written with names no step. -/
theorem toNat_undefined : (toI "undefined".toList).toNat = 0 := by decide

/-- The items behind the New Step item are written one place further. -/
theorem exists_entry {A B : List (Nat × List Nat)} {box : MapEntry} {i a : Nat} {l : List Nat}
    (hi : (A ++ B)[i]? = some (a, l)) : ∃ j : Nat, (j : Int) = skip A.length i ∧
      entryOf ((a, l), j) ∈ A.zipIdx.map entryOf ++ box :: (B.zipIdx (A.length + 1)).map entryOf := by
  by_cases hlt : i < A.length
  · rw [List.getElem?_append_left hlt] at hi
    refine ⟨i, by rw [skip, if_pos hlt], List.mem_append_left _ (List.mem_map_of_mem ?_)⟩
    rw [List.mem_zipIdx_iff_getElem?]
    exact hi
  · rw [List.getElem?_append_right (by omega)] at hi
    refine ⟨i + 1, by rw [skip, if_neg hlt]; rfl, ?_⟩
    apply List.mem_append_right
    apply List.mem_cons_of_mem
    apply List.mem_map_of_mem
    rw [List.mem_zipIdx_iff_le_and_getElem?_sub]
    refine ⟨by dsimp only; omega, ?_⟩
    rw [← hi]
    congr 1
    dsimp only
    omega

/-- Every entry is written for a step of the project. -/
theorem key_lt_next {f : Forest Nat} (hf : f.labels.Perm ((db.projectSteps p).map Step.id))
    {l : List (Nat × List Nat)} (hl : ∀ x ∈ l, x.1 ∈ f.labels) {n : Nat} {e : MapEntry}
    (he : e ∈ (l.zipIdx n).map entryOf) : (toI e.key).toNat < db.steps.next := by
  obtain ⟨x, hx, rfl⟩ := List.mem_map.mp he
  obtain ⟨t, ht, hid⟩ := List.mem_map.mp (hf.mem_iff.mp (hl x.1 (List.fst_mem_of_mem_zipIdx hx)))
  rw [entryOf_id, ← hid]
  exact (db.steps.bound t (Database.mem_projectSteps.mp ht).1).2

/-- `saveOrdering` from the page of a new step leaves the place of the New Step item free, and the
parent in front of it. -/
theorem saveOrdering (h : StepTree free (db.projectSteps p))
    (hg : (Forest.node r k .nil).labels.Perm ((db.projectSteps p).map Step.id))
    (hr : ∀ s ∈ db.projectSteps p, s.id = r → s.position = 0) {q : Nat}
    (hq : q ∈ (db.projectSteps p).map Step.id) :
    ∃ gap : Nat, gap ≤ (db.projectSteps p).length ∧
      (loadProcessMap (.org ((Forest.node r k .nil).map toS)) (some q)).position "newStep".toList = gap ∧
      let db' := (createStepMapArray
        (loadProcessMap (.org ((Forest.node r k .nil).map toS)) (some q))).foldl updateEntry db
      StepTree gap (db'.projectSteps p) ∧ (∀ s ∈ db'.projectSteps p, s.id = q → s.position < gap) ∧
      (∀ s ∈ db.projectSteps p, ∃ l, (s.id, l) ∈ (Forest.node r k .nil).paths [] ∧
        ((createStepMapArray (loadProcessMap (.org ((Forest.node r k .nil).map toS)) (some q))).foldl remapped
          s).ancestry = some (Dom.ancestryText l)) ∧
      ∀ e ∈ createStepMapArray (loadProcessMap (.org ((Forest.node r k .nil).map toS)) (some q)),
        (toI e.key).toNat < db.steps.next := by
  have hn := hg.nodup_iff.mpr h.ids
  have hpos : ∀ i ∈ (Forest.node r k .nil).labels, 0 < i := fun i hi => by
    obtain ⟨s, hs, rfl⟩ := List.mem_map.mp (hg.mem_iff.mp hi)
    exact h.pos s hs
  obtain ⟨A, B, w, hpaths, hqA, hlis⟩ := Dom.lis_loadProcessMap hn hpos (hg.mem_iff.mpr hq)
  have hfst : (A ++ B).map Prod.fst = (Forest.node r k .nil).labels := by
    rw [← hpaths, Forest.map_fst_paths]
  have hentries := Dom.createStepMapArray_box hlis (by rw [hfst]; exact hn) (by
    intro e he i hi
    rw [← hpaths] at he
    obtain ⟨t, ht, hsub⟩ := Forest.mem_paths_prefix he
    rw [List.nil_append] at ht
    exact hpos i (hsub (ht ▸ hi)))
  -- `A` is what stands in front of the item, `B` what stands behind it
  have hgap : 0 < A.length := by
    rw [← List.length_map (f := Prod.fst)]
    exact List.length_pos_of_mem hqA
  -- the item counts as step `0`, which is none
  have hkeys : ((createStepMapArray (loadProcessMap (.org ((Forest.node r k .nil).map toS))
      (some q))).map fun e => (toI e.key).toNat).Nodup := by
    rw [hentries, List.map_append, List.map_cons, keys_zipIdx, keys_zipIdx]
    dsimp only
    rw [toNat_undefined, List.perm_middle.nodup_iff, List.nodup_cons, ← List.map_append, hfst]
    exact ⟨fun h0 => absurd (hpos 0 h0) (lt_irrefl 0), hn⟩
  have hes : ∀ i a l, ((Forest.node r k .nil).paths [])[i]? = some (a, l) →
      ∃ j : Nat, (j : Int) = skip A.length i ∧ entryOf ((a, l), j) ∈
        createStepMapArray (loadProcessMap (.org ((Forest.node r k .nil).map toS)) (some q)) := by
    intro i a l hi
    rw [hpaths] at hi
    rw [hentries]
    exact exists_entry hi
  refine ⟨A.length, ?_, Dom.position_newStep hlis, h.of_entries hg hr hgap hkeys hes, ?_, ?_, ?_⟩
  · have hlen := congrArg List.length hfst
    rw [hg.length_eq, List.length_map, List.length_map, List.length_append] at hlen
    omega
  · intro s hs hid
    rw [projectSteps_foldl_updateEntry] at hs
    obtain ⟨t, ht, rfl⟩ := List.mem_map.mp hs
    rw [foldl_remapped_id] at hid
    obtain ⟨e, he, heq⟩ := List.mem_map.mp hqA
    obtain ⟨i, hi⟩ := List.mem_iff_getElem?.mp he
    have hlt := (List.getElem?_eq_some_iff.mp hi).1
    have hget : ((Forest.node r k .nil).paths [])[i]? = some (t.id, e.2) := by
      rw [hpaths, List.getElem?_append_left hlt, hi, hid, ← heq]
    rw [h.row_of_entries hg hr hgap hkeys hes ht hget]
    show skip A.length i < A.length
    rw [skip, if_pos hlt]
    omega
  · intro s hs
    obtain ⟨i, l, -, hget⟩ := exists_path hg hs
    refine ⟨l, List.mem_of_getElem? hget, ?_⟩
    rw [h.row_of_entries hg hr hgap hkeys hes hs hget]
  · intro e he
    have hitems : ∀ x ∈ A ++ B, x.1 ∈ (Forest.node r k .nil).labels := fun x hx => hfst ▸ List.mem_map_of_mem hx
    rw [hentries, List.mem_append, List.mem_cons] at he
    rcases he with he | rfl | he
    · exact key_lt_next hg (fun x hx => hitems x (List.mem_append_left _ hx)) he
    · dsimp only
      rw [toNat_undefined]
      exact db.steps.next_pos
    · exact key_lt_next hg (fun x hx => hitems x (List.mem_append_right _ hx)) he

end Save

end StepTree
