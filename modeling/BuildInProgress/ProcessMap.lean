import BuildInProgress.Lib.Forest
import BuildInProgress.Lib.Script
import BuildInProgress.Step

/-!
# The process map in the browser

`_process_map.html.erb` keeps the tree of a project as nested `ul` and `li` elements below
`ul#org.0`.  `_draw_list.html.erb` fills the list from the ancestries of the steps, the drop handler
of the org chart rearranges it, and `createStepMapArray` reads positions and ancestries back.
The class of an item is the id of its step, the class of a list the id of the step it hangs below.
-/

open Text

/-- A sequence of sibling elements: an item or a list with its content, and what follows it. -/
inductive Dom where
  | nil : Dom
  | li (cls : Text) (inner next : Dom) : Dom
  | ul (cls : Text) (inner next : Dom) : Dom
  deriving DecidableEq, Repr

namespace Dom

/-! ## Selectors and insertion -/

def append : Dom → Dom → Dom
  | nil, e => e
  | li c i n, e => li c i (n.append e)
  | ul c i n, e => ul c i (n.append e)

/-- `$('ul.'+c).length > 0` -/
def hasUl (c : Text) : Dom → Bool
  | nil => false
  | li _ i n => i.hasUl c || n.hasUl c
  | ul k i n => k == c || i.hasUl c || n.hasUl c

/-- `$('ul.'+c).append(x)` -/
def appendToUl : Dom → Text → Dom → Dom
  | nil, _, _ => nil
  | li k i n, c, x => li k (i.appendToUl c x) (n.appendToUl c x)
  | ul k i n, c, x =>
    ul k (if k = c then (i.appendToUl c x).append x else i.appendToUl c x) (n.appendToUl c x)

/-- `$('li.'+c).append(x)` -/
def appendToLi : Dom → Text → Dom → Dom
  | nil, _, _ => nil
  | li k i n, c, x =>
    li k (if k = c then (i.appendToLi c x).append x else i.appendToLi c x) (n.appendToLi c x)
  | ul k i n, c, x => ul k (i.appendToLi c x) (n.appendToLi c x)

/-- The items in document order, each with the classes of the lists around it. -/
def lis (pre : List Text) : Dom → List (Text × List Text)
  | nil => []
  | li c i n => (c, pre) :: (i.lis pre ++ n.lis pre)
  | ul c i n => i.lis (pre ++ [c]) ++ n.lis pre

/-! ## Dropping an item on another -/

/-- Take out the items of class `s`, and a list that becomes empty by it. -/
def detach (s : Text) : Dom → Dom
  | nil => nil
  | li c i n => if c = s then n.detach s else li c (i.detach s) (n.detach s)
  | ul c i n => if i.detach s = nil then n.detach s else ul c (i.detach s) (n.detach s)

/-- The items of class `s`, each with its content. -/
def items (s : Text) : Dom → Dom
  | nil => nil
  | li c i n => if c = s then li c i nil else (i.items s).append (n.items s)
  | ul _ i n => (i.items s).append (n.items s)

/-- `.children('ul').append(x)` -/
def appendToChildUl : Dom → Dom → Dom
  | nil, _ => nil
  | li c i n, x => li c i (n.appendToChildUl x)
  | ul c i n, x => ul c (i.append x) (n.appendToChildUl x)

def hasChildUl : Dom → Bool
  | nil => false
  | li _ _ n => n.hasChildUl
  | ul _ _ _ => true

/-- Append to the list below the items of class `t`; an item without a list gets one. -/
def appendBelow : Dom → Text → Dom → Dom
  | nil, _, _ => nil
  | li c i n, t, x =>
    let i' := i.appendBelow t x
    li c (if c = t then if i'.hasChildUl then i'.appendToChildUl x else i'.append (ul t x nil)
      else i') (n.appendBelow t x)
  | ul c i n, t, x => ul c (i.appendBelow t x) (n.appendBelow t x)

/-- `handleDropEvent`: the item of class `s` moves to the end of the list below `t`.  While an item
is dragged, the items of its own subtree do not accept drops. -/
def drop (d : Dom) (s t : Text) : Dom :=
  let cls := (d.lis []).map Prod.fst
  if s ∈ cls ∧ t ∈ cls ∧ t ∉ ((d.items s).lis []).map Prod.fst then
    (d.detach s).appendBelow t (d.items s)
  else d

/-! ## Reading the map back -/

/-- `ancestry(id)` -/
def ancestry (d : Dom) (id : Text) : Text :=
  match (d.lis []).find? (·.1 = id) with
  | none => ['0']
  | some e =>
    let parents := e.2.filter (· ≠ ['0'])
    if parents.isEmpty then ['0'] else join '/' parents

/-- `position(id)` -/
def position (d : Dom) (id : Text) : Int :=
  match (d.lis []).findIdx? (·.1 = id) with
  | none => -1
  | some i => i

end Dom

/-- `getID`: the first run of digits in a class. -/
def getID (cls : Text) : Option Text :=
  match (cls.dropWhile (!·.isDigit)).takeWhile Char.isDigit with
  | [] => none
  | ds => some ds

/-- One entry of the object sent to `update_ancestry`, `{step_id: [position, ancestry]}`. -/
structure MapEntry where
  key : Text
  position : Int
  ancestry : Text
  deriving DecidableEq, Repr

/-- `createStepMapArray()`.  An item without an id goes under the key `undefined`. -/
def createStepMapArray (d : Dom) : List MapEntry :=
  (d.lis []).zipIdx.map fun e =>
    let id := (getID e.1.1).getD "undefined".toList
    ⟨id, e.2, d.ancestry id⟩

/-! ## Drawing -/

/-- `getParent` of `steps_helper.rb` -/
def getParent (ancestry : Text) : Text := afterLast '/' ancestry

/-- What one iteration of `_draw_list` does when its script runs.  `getParent` raises on a nil ancestry; between
equal nil ancestries the script selects `ul.`, which is no selector, and nothing is appended. -/
def nestStep (ancestry : List (Option Text)) (index : Nat) (s : Step) (org : Dom) : Option Dom :=
  let item := Dom.li (toS s.id) .nil .nil
  if index = 0 then
    some (org.appendToUl ['0'] item)
  else if ancestry[index]? = ancestry[index - 1]? then
    match s.ancestry with
    | none => some org
    | some a => some (org.appendToUl (getParent a) item)
  else
    match s.ancestry with
    | none => none
    | some a =>
      if ancestry.idxOf s.ancestry = index then
        -- first step with this ancestry
        if org.hasUl (getParent a) then some (org.appendToUl (getParent a) item)
        else some (org.appendToLi (getParent a) (.ul (getParent a) item .nil))
      else
        -- returned to an existing branch
        some (org.appendToUl (getParent a) item)

def nestFrom (ancestry : List (Option Text)) : Nat → List Step → Dom → Option Dom
  | _, [], org => some org
  | index, s :: ss, org => (nestStep ancestry index s org).bind (nestFrom ancestry (index + 1) ss)

/-- The list `#org` that `_draw_list` builds from the steps in position order when all its scripts run. -/
def nestList (steps : List Step) : Option Dom :=
  nestFrom (steps.map (·.ancestry)) 0 steps (.ul ['0'] .nil .nil)

/-- The name as the script of the step has it between double quotes, `none` where the script is none. -/
def scriptName (s : Step) : Option (List Nat) := Script.stringValue (Script.htmlEscape s.name)

/-- The script of the step shows the name and nothing else. -/
def Step.plainName (s : Step) : Bool := (scriptName s).any Script.isText

/-- No escape sequence in the name stands for markup. -/
def Step.NoMarkup (s : Step) : Prop := ∀ v ∈ scriptName s, Script.isText v = true

instance (s : Step) : Decidable s.NoMarkup := inferInstanceAs (Decidable (∀ v ∈ scriptName s, _))

/-- One iteration of `_draw_list`.  The browser does not run a script that is none.  A name with markup is taken for
text here. -/
def drawStep (ancestry : List (Option Text)) (index : Nat) (s : Step) (org : Dom) : Option Dom :=
  (nestStep ancestry index s org).map fun nested => if (scriptName s).isSome then nested else org

def drawFrom (ancestry : List (Option Text)) : Nat → List Step → Dom → Option Dom
  | _, [], org => some org
  | index, s :: ss, org => (drawStep ancestry index s org).bind (drawFrom ancestry (index + 1) ss)

/-- The list `#org` that `_draw_list` builds from the steps in position order. -/
def drawList (steps : List Step) : Option Dom :=
  drawFrom (steps.map (·.ancestry)) 0 steps (.ul ['0'] .nil .nil)

/-- `loadProcessMap` on the page of a new step: the box of class `newStep` is put below the parent
the page was opened with.  Dropping the box on a step later sends what a page opened below that
step would send. -/
def loadProcessMap (org : Dom) (newStepParentID : Option Nat) : Dom :=
  let box := Dom.li "newStep".toList .nil .nil
  match newStepParentID with
  | none => org.appendToUl ['0'] box
  | some p =>
    if org.hasUl (toS p) then org.appendToUl (toS p) box
    else org.appendToLi (toS p) (.ul [] box .nil)

/-! ## Maps drawn from a forest -/

namespace Dom

/-- The nested list of a forest: the list below an item carries the class of the item. -/
def ofForest : Forest Text → Dom
  | .nil => nil
  | .node a k r => li a (if k = .nil then nil else ul a (ofForest k) nil) (ofForest r)

/-- The element `#org` around the list of a forest. -/
def org (f : Forest Text) : Dom := ul ['0'] (ofForest f) nil

@[simp] theorem append_nil (d : Dom) : d.append nil = d := by
  induction d with
  | nil => rfl
  | li c i n _ ihn => rw [append, ihn]
  | ul c i n _ ihn => rw [append, ihn]

@[simp] theorem ofForest_append (f g : Forest Text) :
    ofForest (f.append g) = (ofForest f).append (ofForest g) := by
  induction f with
  | nil => rfl
  | node a k r _ ihr => rw [Forest.append, ofForest, ihr, ofForest, append]

theorem ofForest_eq_nil {f : Forest Text} : ofForest f = nil ↔ f = .nil := by
  cases f <;> simp [ofForest]

/-- The items of a drawn forest are its nodes in preorder, each below the lists of its path. -/
@[simp] theorem lis_ofForest (pre : List Text) (f : Forest Text) :
    (ofForest f).lis pre = f.paths pre := by
  induction f generalizing pre with
  | nil => rfl
  | node a k r ihk ihr =>
    rw [ofForest, lis, Forest.paths, ihr]
    by_cases hk : k = .nil
    · subst hk
      simp [lis, Forest.paths]
    · rw [if_neg hk, lis, ihk]
      simp [lis]

@[simp] theorem lis_org (pre : List Text) (f : Forest Text) :
    (org f).lis pre = f.paths (pre ++ [['0']]) := by
  simp [org, lis]

/-! ### Appending to a list -/

theorem appendToUl_of_notMem {c : Text} {f : Forest Text} (h : c ∉ f.labels) (x : Dom) :
    (ofForest f).appendToUl c x = ofForest f := by
  induction f with
  | nil => rfl
  | node a k r ihk ihr =>
    simp only [Forest.labels, List.mem_cons, List.mem_append, not_or] at h
    rw [ofForest, appendToUl, ihr h.2.2]
    by_cases hk : k = .nil
    · rw [if_pos hk, appendToUl]
    · rw [if_neg hk, appendToUl, if_neg (Ne.symm h.1), ihk h.2.1, appendToUl]

theorem appendToLi_of_notMem {c : Text} {f : Forest Text} (h : c ∉ f.labels) (x : Dom) :
    (ofForest f).appendToLi c x = ofForest f := by
  induction f with
  | nil => rfl
  | node a k r ihk ihr =>
    simp only [Forest.labels, List.mem_cons, List.mem_append, not_or] at h
    rw [ofForest, appendToLi, if_neg (Ne.symm h.1), ihr h.2.2]
    by_cases hk : k = .nil
    · rw [if_pos hk, appendToLi]
    · rw [if_neg hk, appendToLi, ihk h.2.1, appendToLi]

/-- A list of class `c` is there when the node `c` has children. -/
theorem hasUl_ofForest {c : Text} {f : Forest Text} :
    (ofForest f).hasUl c = true ↔ f.childrenOf c ≠ [] := by
  induction f with
  | nil => simp [ofForest, hasUl, Forest.childrenOf]
  | node a k r ihk ihr =>
    rw [ofForest, hasUl, Bool.or_eq_true, ihr, Forest.childrenOf]
    by_cases hk : k = .nil
    · subst hk
      simp [hasUl, Forest.childrenOf, Forest.roots]
    · have hroots : k.roots ≠ [] := by
        cases k with
        | nil => exact absurd rfl hk
        | node b k' r' => simp [Forest.roots]
      rw [if_neg hk, hasUl, Bool.or_eq_true, Bool.or_eq_true, beq_iff_eq, ihk]
      by_cases ha : a = c
      · simp [ha, hroots]
      · simp only [ha, hasUl, false_or, if_false, List.nil_append, Bool.false_eq_true, or_false,
          ne_eq, List.append_eq_nil_iff]
        tauto

/-- Appending an item to the list of `c` grafts a leaf below `c`. -/
theorem appendToUl_ofForest {c : Text} {f : Forest Text} (hn : f.labels.Nodup)
    (hc : f.childrenOf c ≠ []) (x : Forest Text) :
    (ofForest f).appendToUl c (ofForest x) = ofForest (f.graft c x) := by
  induction f with
  | nil => simp [Forest.childrenOf] at hc
  | node a k r ihk ihr =>
    simp only [Forest.labels, List.nodup_cons, List.mem_append, not_or, List.nodup_append] at hn
    obtain ⟨⟨hak, har⟩, hnk, hnr, hd⟩ := hn
    rw [Forest.childrenOf] at hc
    rw [ofForest, appendToUl, Forest.graft, ofForest]
    by_cases ha : a = c
    · -- the list is the one below this node
      subst ha
      rw [if_pos rfl, Forest.childrenOf_of_notMem hak, Forest.childrenOf_of_notMem har] at hc
      have hk : k ≠ .nil := by
        rintro rfl
        simp [Forest.roots] at hc
      rw [if_neg hk, appendToUl, if_pos rfl, appendToUl_of_notMem hak, appendToUl_of_notMem har,
        if_pos rfl, Forest.graft_of_notMem hak, Forest.graft_of_notMem har,
        if_neg (by simp [hk]), ofForest_append, appendToUl]
    · rw [if_neg ha, List.nil_append] at hc
      rw [if_neg ha]
      -- no class occurs twice, so the list is on one side only
      by_cases hck : k.childrenOf c = []
      · have hcr : r.childrenOf c ≠ [] := by simpa [hck] using hc
        have hmem : c ∈ r.labels := by
          by_contra h
          exact hcr (Forest.childrenOf_of_notMem h)
        have hnot : c ∉ k.labels := fun h => hd c h c hmem rfl
        rw [Forest.graft_of_notMem hnot, ihr hnr hcr]
        by_cases hk : k = .nil
        · rw [if_pos hk, appendToUl]
        · rw [if_neg hk, appendToUl, if_neg ha, appendToUl_of_notMem hnot, appendToUl]
      · have hmem : c ∈ k.labels := by
          by_contra h
          exact hck (Forest.childrenOf_of_notMem h)
        have hnot : c ∉ r.labels := fun h => hd c hmem c h rfl
        have hk : k ≠ .nil := by
          rintro rfl
          simp [Forest.labels] at hmem
        rw [if_neg hk, if_neg (Forest.graft_ne_nil hk c x), appendToUl, if_neg ha, ihk hnk hck, appendToUl,
          appendToUl_of_notMem hnot, Forest.graft_of_notMem hnot]

/-- An item of class `c` without children gets a list of its own. -/
theorem appendToLi_ofForest {c : Text} {f : Forest Text} (hn : f.labels.Nodup) (hc : c ∈ f.labels)
    (h0 : f.childrenOf c = []) (x : Forest Text) (hx : x ≠ .nil) :
    (ofForest f).appendToLi c (ul c (ofForest x) nil) = ofForest (f.graft c x) := by
  induction f with
  | nil => simp [Forest.labels] at hc
  | node a k r ihk ihr =>
    simp only [Forest.labels, List.nodup_cons, List.mem_append, not_or, List.nodup_append] at hn
    obtain ⟨⟨hak, har⟩, hnk, hnr, hd⟩ := hn
    rw [Forest.childrenOf, List.append_eq_nil_iff, List.append_eq_nil_iff] at h0
    rw [ofForest, appendToLi, Forest.graft, ofForest]
    by_cases ha : a = c
    · subst ha
      rw [if_pos rfl] at h0
      have hk : k = .nil := by
        cases k with
        | nil => rfl
        | node b k' r' => simp [Forest.roots] at h0
      subst hk
      rw [if_pos rfl, if_pos rfl, if_pos rfl, appendToLi, appendToLi_of_notMem har,
        Forest.graft_of_notMem har]
      simp [Forest.graft, Forest.append, append, hx]
    · simp only [Forest.labels, List.mem_cons, List.mem_append] at hc
      rw [if_neg ha, if_neg ha]
      rcases hc with rfl | hc | hc
      · exact absurd rfl ha
      -- the item is among the children, so not among the siblings
      · have hnot : c ∉ r.labels := fun h => hd c hc c h rfl
        have hk : k ≠ .nil := by
          rintro rfl
          simp [Forest.labels] at hc
        rw [if_neg hk, if_neg (Forest.graft_ne_nil hk c x), appendToLi, ihk hnk hc h0.2.1, appendToLi,
          appendToLi_of_notMem hnot, Forest.graft_of_notMem hnot]
      -- the item is among the siblings, so not among the children
      · have hnot : c ∉ k.labels := fun h => hd c h c hc rfl
        rw [Forest.graft_of_notMem hnot, ihr hnr hc h0.2.2]
        by_cases hk : k = .nil
        · rw [if_pos hk, appendToLi]
        · rw [if_neg hk, appendToLi, appendToLi_of_notMem hnot, appendToLi]

/-! ### Reading a drawn forest back -/

theorem getID_toS (n : Nat) : getID (toS n) = some (toS n) := by
  have hd : ∀ c ∈ toS n, c.isDigit = true := fun _ => isDigit_of_mem_toS
  have hdrop : (toS n).dropWhile (!·.isDigit) = toS n := by
    cases hs : toS n with
    | nil => rfl
    | cons c cs =>
      rw [hs] at hd
      rw [List.dropWhile_cons_of_neg (by simp [hd c List.mem_cons_self])]
  have htake : (toS n).takeWhile Char.isDigit = toS n := List.takeWhile_eq_self_iff.mpr hd
  rw [getID, hdrop, htake]
  cases hs : toS n with
  | nil => exact absurd hs (toS_ne_nil n)
  | cons c cs => rfl

/-- The text `ancestry(id)` computes for a path of ids. -/
def ancestryText (l : List Nat) : Text := if l = [] then ['0'] else render l

/-- The items of the map of a forest of ids. -/
theorem lis_org_toS (f : Forest Nat) :
    (org (f.map toS)).lis [] = (f.paths []).map fun e => (toS e.1, ['0'] :: e.2.map toS) := by
  have hzero : [['0']] = [0].map toS := by decide
  rw [lis_org, List.nil_append, hzero, Forest.paths_map]
  have hpre := Forest.paths_prefix [0] [] f
  rw [List.append_nil] at hpre
  rw [hpre, List.map_map]
  rfl

/-- Filtering the class `0` out of a path of positive ids leaves the path. -/
theorem filter_path {l : List Nat} (hpos : ∀ i ∈ l, 0 < i) :
    (['0'] :: l.map toS).filter (· ≠ ['0']) = l.map toS := by
  rw [List.filter_cons_of_neg (by simp), List.filter_eq_self]
  intro t ht
  obtain ⟨i, hi, rfl⟩ := List.mem_map.mp ht
  have h0 := hpos i hi
  rw [decide_eq_true_eq]
  intro h
  have hz : toS i = toS 0 := h
  rw [toS_inj] at hz
  omega

/-- `ancestry` of a list of items in which the item is found with a path of ids. -/
theorem ancestry_of_find {d : Dom} {id : Text} {l : List Nat} (hpos : ∀ i ∈ l, 0 < i)
    (hf : (d.lis []).find? (·.1 = id) = some (id, ['0'] :: l.map toS)) :
    d.ancestry id = ancestryText l := by
  rw [ancestry, hf]
  dsimp only
  rw [filter_path hpos, ancestryText]
  cases l with
  | nil => rfl
  | cons i l => rfl

/-- In a list of items with distinct classes a class finds its item. -/
theorem find?_class {l : List (Text × List Text)} (hn : (l.map Prod.fst).Nodup) {c : Text}
    {path : List Text} (h : (c, path) ∈ l) : l.find? (·.1 = c) = some (c, path) := by
  cases hf : l.find? (·.1 = c) with
  | none =>
    have hnone := List.find?_eq_none.mp hf (c, path) h
    simp at hnone
  | some e =>
    have he : e.1 = c := by simpa using List.find?_some hf
    rw [List.inj_on_of_nodup_map hn (List.mem_of_find?_eq_some hf) h he]

theorem createStepMapArray_org {f : Forest Nat} (hn : f.labels.Nodup)
    (hpos : ∀ i ∈ f.labels, 0 < i) :
    createStepMapArray (org (f.map toS)) =
      (f.paths []).zipIdx.map fun e => ⟨toS e.1.1, e.2, ancestryText e.1.2⟩ := by
  rw [createStepMapArray, lis_org_toS, List.zipIdx_map, List.map_map]
  apply List.map_congr_left
  rintro ⟨⟨a, l⟩, i⟩ he
  have hmem : (a, l) ∈ f.paths [] := List.fst_mem_of_mem_zipIdx he
  have hl : ∀ j ∈ l, 0 < j := fun j hj => by
    obtain ⟨q, hq, hsub⟩ := Forest.mem_paths_prefix hmem
    rw [List.nil_append] at hq
    exact hpos j (hsub (hq ▸ hj))
  simp only [Function.comp, Prod.map, id, getID_toS, Option.getD_some, MapEntry.mk.injEq, true_and]
  apply ancestry_of_find hl
  rw [lis_org_toS]
  apply find?_class
  · rw [List.map_map]
    have hfst := hn.map toS_injective
    rw [← Forest.map_fst_paths [] f, List.map_map] at hfst
    exact hfst
  · exact List.mem_map.mpr ⟨(a, l), hmem, rfl⟩

/-! ### Dropping items -/

theorem items_ofForest (s : Text) (f : Forest Text) :
    (ofForest f).items s = ofForest (f.subtree s) := by
  induction f with
  | nil => rfl
  | node a k r ihk ihr =>
    rw [ofForest, items, Forest.subtree, ihr]
    by_cases ha : a = s
    · rw [if_pos ha, if_pos ha]
      rfl
    · rw [if_neg ha, if_neg ha, ofForest_append]
      by_cases hk : k = .nil
      · subst hk
        rfl
      · rw [if_neg hk, items, ihk]
        simp [items]

theorem detach_ofForest (s : Text) (f : Forest Text) :
    (ofForest f).detach s = ofForest (f.remove s) := by
  induction f with
  | nil => rfl
  | node a k r ihk ihr =>
    rw [ofForest, detach, Forest.remove, ihr]
    by_cases ha : a = s
    · rw [if_pos ha, if_pos ha]
    · rw [if_neg ha, if_neg ha, ofForest]
      by_cases hk : k = .nil
      · subst hk
        rfl
      · rw [if_neg hk, detach, ihk, detach]
        simp only [ofForest_eq_nil]

theorem appendBelow_ofForest (t : Text) {x : Forest Text} (hx : x ≠ .nil) (f : Forest Text) :
    (ofForest f).appendBelow t (ofForest x) = ofForest (f.graft t x) := by
  induction f with
  | nil => rfl
  | node a k r ihk ihr =>
    rw [ofForest, appendBelow, Forest.graft, ofForest, ihr]
    by_cases hk : k = .nil
    · subst hk
      by_cases ha : a = t
      · simp [ha, appendBelow, hasChildUl, append, Forest.graft, Forest.append, hx]
      · simp [ha, appendBelow, Forest.graft]
    · have hk' := Forest.graft_ne_nil hk t x
      rw [if_neg hk, appendBelow, ihk, appendBelow]
      by_cases ha : a = t
      · simp [ha, hk', hasChildUl, appendToChildUl]
      · simp [ha, hk']

/-- Dropping an item in the browser moves its subtree in the forest. -/
theorem drop_org {f : Forest Text} (hn : f.labels.Nodup) (s t : Text) :
    (org f).drop s t = org (f.drop s t) := by
  have hcls : ((org f).lis []).map Prod.fst = f.labels := by
    rw [lis_org, Forest.map_fst_paths]
  have hitems : (org f).items s = ofForest (f.subtree s) := by
    rw [org, items, items_ofForest]
    simp [items]
  rw [drop, Forest.drop, hcls, hitems, lis_ofForest, Forest.map_fst_paths]
  by_cases h : s ∈ f.labels ∧ t ∈ f.labels ∧ t ∉ (f.subtree s).labels
  · have hsub : f.subtree s ≠ .nil := by
      intro hnil
      have hmem := Forest.mem_labels_subtree h.1
      rw [hnil] at hmem
      simp [Forest.labels] at hmem
    have hrem : f.remove s ≠ .nil := by
      intro hnil
      have hmem := Forest.mem_labels_remove hn h.2.1 h.2.2
      rw [hnil] at hmem
      simp [Forest.labels] at hmem
    rw [if_pos h, if_pos h, org, detach, detach_ofForest, if_neg (by rwa [ofForest_eq_nil]), detach,
      appendBelow, appendBelow_ofForest t hsub, appendBelow, org]
  · rw [if_neg h, if_neg h]

end Dom
