import Mathlib.Tactic.Ring
import BuildInProgress.ProcessMap

/-!
# What `_draw_list` draws

The loop looks at whole ancestry texts to decide between an existing list and a new one, but only
the last component says where a step goes.  When every step after the first names an earlier step or
the top, the result is the forest that places each step below the step it names.
-/

open Text

namespace Step

/-- The step a step is drawn below: the one its last ancestry component names. -/
def drawnBelow (s : Step) : Option Nat :=
  if s.topLevel then none else s.ancestry.map fun a => toNat (getParent a)

/-- What the loop makes of a step: its id and the id it is put below. -/
def entry (s : Step) : Nat × List Nat := (s.id, s.drawnBelow.toList)

/-- The step can be drawn after the steps `before`. -/
def Follows (before : List Step) (s : Step) : Prop :=
  s.ancestry = some ['0'] ∨
    ∃ a p, s.ancestry = some a ∧ p ∈ before.map Step.id ∧ getParent a = toS p

theorem drawnBelow_of_top {s : Step} (h : s.topLevel = true) : s.drawnBelow = none := by
  rw [drawnBelow, if_pos h]

theorem drawnBelow_eq_none {s : Step} : s.drawnBelow = none ↔ s.topLevel = true := by
  rw [drawnBelow]
  split
  · rename_i h
    simp [h]
  · rename_i h
    cases ha : s.ancestry with
    | none => simp [topLevel, ha]
    | some a => simpa using h

theorem not_topLevel {s : Step} {a : Text} {p : Nat} (hs : s.ancestry = some a)
    (ha : getParent a = toS p) (hp : 0 < p) : s.topLevel = false := by
  have hnil : a ≠ [] := by
    rintro rfl
    exact toS_ne_nil p ha.symm
  have hzero : a ≠ ['0'] := by
    rintro rfl
    have h0 : toS 0 = toS p := ha
    rw [toS_inj] at h0
    omega
  simp [topLevel, hs, hnil, hzero]

theorem drawnBelow_of_parent {s : Step} {a : Text} {p : Nat} (hs : s.ancestry = some a)
    (ha : getParent a = toS p) (hp : 0 < p) : s.drawnBelow = some p := by
  rw [drawnBelow, not_topLevel hs ha hp, hs]
  simp [ha]

end Step

/-- The first step stands at the top, every later step can be drawn after those before it. -/
def Drawable (steps : List Step) : Prop :=
  ∀ l s r, steps = l ++ s :: r → if l = [] then s.topLevel = true else s.Follows l

/-- The forest that places each step below the step it names. -/
def drawnForest (steps : List Step) : Forest Nat :=
  (steps.map Step.entry).foldl Forest.place .nil

namespace Drawable

variable {steps : List Step} {s : Step}

theorem init (h : Drawable (steps ++ [s])) : Drawable steps := by
  intro l x r hs
  exact h l x (r ++ [s]) (by rw [hs]; simp)

theorem parentsFirst (h : Drawable steps) (hpos : ∀ s ∈ steps, 0 < s.id) :
    Forest.ParentsFirst (steps.map Step.entry) := by
  intro l e r hes p hp
  obtain ⟨l', r', rfl, rfl, hr⟩ := List.map_eq_append_iff.mp hes
  obtain ⟨s, r'', rfl, rfl, rfl⟩ := List.map_eq_cons_iff.mp hr
  have hs := h l' s r'' rfl
  have hmap : (l'.map Step.entry).map Prod.fst = l'.map Step.id := by
    rw [List.map_map]
    rfl
  rw [hmap]
  by_cases hl : l' = []
  · rw [if_pos hl] at hs
    simp [Step.entry, Step.drawnBelow_of_top hs] at hp
  · rw [if_neg hl] at hs
    rcases hs with htop | ⟨a, q, ha, hq, hpar⟩
    · have ht : s.topLevel = true := by simp [Step.topLevel, htop]
      simp [Step.entry, Step.drawnBelow_of_top ht] at hp
    · obtain ⟨t, ht, rfl⟩ := List.mem_map.mp hq
      have hbelow := Step.drawnBelow_of_parent ha hpar (hpos t (List.mem_append_left _ ht))
      simp only [Step.entry, hbelow, Option.toList_some, List.getLast?_singleton,
        Option.some.injEq] at hp
      rw [← hp]
      exact hq

end Drawable

/-- Every step of a drawable list appears once, at the top or below the step it names, siblings in
the order of the list. -/
theorem drawnForest_spec {steps : List Step} (hn : (steps.map Step.id).Nodup)
    (hpos : ∀ s ∈ steps, 0 < s.id) (hd : Drawable steps) :
    (drawnForest steps).labels.Perm (steps.map Step.id) ∧
      (drawnForest steps).roots = (steps.filter (·.drawnBelow = none)).map Step.id ∧
      ∀ x, (drawnForest steps).childrenOf x =
        (steps.filter (·.drawnBelow = some x)).map Step.id := by
  have hfst : (steps.map Step.entry).map Prod.fst = steps.map Step.id := by
    rw [List.map_map]
    rfl
  obtain ⟨hlabels, hroots, hkids⟩ :=
    Forest.foldl_place_spec (by rw [hfst]; exact hn) (hd.parentsFirst hpos)
  refine ⟨?_, ?_, ?_⟩
  · rw [← hfst]
    exact hlabels
  · rw [drawnForest, hroots, List.filter_map, List.map_map]
    congr 1
    apply List.filter_congr
    intro s _
    cases hb : s.drawnBelow <;> simp [Step.entry, hb]
  · intro x
    rw [drawnForest, hkids x, List.filter_map, List.map_map]
    congr 1
    apply List.filter_congr
    intro s _
    cases hb : s.drawnBelow <;> simp [Step.entry, hb]

/-! ## One iteration of the loop -/

section Iteration

variable {steps : List Step} {s : Step} {index : Nat} {ancestry : List (Option Text)}

/-- The number of earlier steps is the first index of an ancestry exactly when it is new. -/
theorem idxOf_ancestry (before rest : List (Option Text)) (a : Option Text) :
    (before ++ a :: rest).idxOf a = before.length ↔ a ∉ before := by
  constructor
  · intro h hm
    have hlt := List.idxOf_lt_length_of_mem hm
    rw [List.idxOf_append_of_mem hm] at h
    omega
  · intro h
    rw [List.idxOf_append_of_notMem h, List.idxOf_cons_self, Nat.add_zero]

/-- An item goes to the end of the top list. -/
theorem appendToUl_zero {f : Forest Text} (h0 : ['0'] ∉ f.labels) (c : Text) :
    (Dom.org f).appendToUl ['0'] (.li c .nil .nil) = Dom.org (f.append (Forest.leaf c)) := by
  rw [Dom.org, Dom.appendToUl, if_pos rfl, Dom.appendToUl_of_notMem h0, Dom.org,
    Dom.ofForest_append]
  rfl

theorem hasUl_org {f : Forest Text} {c : Text} (hc : c ≠ ['0']) :
    (Dom.org f).hasUl c = true ↔ f.childrenOf c ≠ [] := by
  have h : (['0'] == c) = false := beq_eq_false_iff_ne.mpr (Ne.symm hc)
  rw [Dom.org, Dom.hasUl, h, Bool.false_or, Bool.or_eq_true, Dom.hasUl_ofForest]
  simp [Dom.hasUl]

/-- An item goes to the end of the list below `c`. -/
theorem appendToUl_org {f : Forest Text} {c : Text} (hc : c ≠ ['0']) (hn : f.labels.Nodup)
    (hk : f.childrenOf c ≠ []) (d : Text) :
    (Dom.org f).appendToUl c (.li d .nil .nil) = Dom.org (f.graft c (Forest.leaf d)) := by
  rw [Dom.org, Dom.appendToUl, if_neg (Ne.symm hc)]
  exact congrArg (Dom.ul ['0'] · .nil) (Dom.appendToUl_ofForest hn hk (Forest.leaf d))

theorem appendToLi_org {f : Forest Text} {c : Text} (hn : f.labels.Nodup) (hc : c ∈ f.labels)
    (hk : f.childrenOf c = []) (d : Text) :
    (Dom.org f).appendToLi c (.ul c (.li d .nil .nil) .nil) =
      Dom.org (f.graft c (Forest.leaf d)) := by
  rw [Dom.org, Dom.appendToLi]
  exact congrArg (Dom.ul ['0'] · .nil)
    (Dom.appendToLi_ofForest hn hc hk (Forest.leaf d) (by simp [Forest.leaf]))

/-- The labels of a drawn forest are ids in decimal, and no id is zero. -/
theorem zero_notMem_labels {f : Forest Nat} (hpos : ∀ i ∈ f.labels, 0 < i) :
    ['0'] ∉ (f.map toS).labels := by
  rw [Forest.labels_map]
  intro h
  obtain ⟨i, hi, he⟩ := List.mem_map.mp h
  have h0 : toS i = toS 0 := he
  rw [toS_inj] at h0
  have hp := hpos i hi
  omega

theorem drawnForest_concat (before : List Step) (s : Step) :
    drawnForest (before ++ [s]) = (drawnForest before).place s.entry := by
  simp [drawnForest]

/-- Whatever branch the loop takes, it puts a step that stands at the top into the top list. -/
theorem nestStep_top (before : List Step) (s : Step) (rest : List Step) {f : Forest Text}
    (h0 : ['0'] ∉ f.labels) (hs : before = [] ∨ s.ancestry = some ['0']) :
    nestStep ((before ++ s :: rest).map (·.ancestry)) before.length s (.org f) =
      some (.org (f.append (Forest.leaf (toS s.id)))) := by
  have hpar : getParent ['0'] = ['0'] := by decide
  have hul : (Dom.org f).hasUl ['0'] = true := by simp [Dom.org, Dom.hasUl]
  rw [nestStep]
  by_cases hb : before.length = 0
  · rw [if_pos hb, appendToUl_zero h0]
  · have ha : s.ancestry = some ['0'] :=
      hs.resolve_left fun h => hb (List.length_eq_zero_iff.mpr h)
    rw [if_neg hb]
    split
    · simp only [ha, hpar, appendToUl_zero h0]
    · simp only [ha, hpar, hul, if_true, appendToUl_zero h0, ite_self]

/-- Whatever branch the loop takes, it puts a step that names the step `p` last among the children
of `p`.  A list below `p` is there as soon as an earlier step has the same ancestry. -/
theorem nestStep_below (before : List Step) (s : Step) (rest : List Step) {f : Forest Text}
    {a c : Text} (hb : before ≠ []) (hs : s.ancestry = some a) (ha : getParent a = c)
    (hc : c ≠ ['0']) (hn : f.labels.Nodup) (hmem : c ∈ f.labels)
    (hsame : some a ∈ before.map (·.ancestry) → f.childrenOf c ≠ []) :
    nestStep ((before ++ s :: rest).map (·.ancestry)) before.length s (.org f) =
      some (.org (f.graft c (Forest.leaf (toS s.id)))) := by
  have hlen : before.length ≠ 0 := fun h => hb (List.length_eq_zero_iff.mp h)
  have hlist : (before ++ s :: rest).map (·.ancestry) =
      before.map (·.ancestry) ++ some a :: rest.map (·.ancestry) := by
    rw [List.map_append, List.map_cons, hs]
  rw [nestStep, if_neg hlen, hlist]
  split
  · -- the previous step has the same ancestry
    rename_i heq
    have hprev : some a ∈ before.map (·.ancestry) := by
      rw [List.getElem?_append_right (by simp), List.getElem?_append_left (by simp; omega)] at heq
      simp only [List.length_map, Nat.sub_self, List.getElem?_cons_zero] at heq
      exact List.mem_of_getElem? heq.symm
    simp only [hs, ha]
    rw [appendToUl_org hc hn (hsame hprev)]
  · simp only [hs, ha]
    by_cases hidx : (before.map (·.ancestry) ++ some a :: rest.map (·.ancestry)).idxOf (some a) =
        before.length
    · rw [if_pos hidx]
      by_cases hul : (Dom.org f).hasUl c = true
      · rw [if_pos hul, appendToUl_org hc hn ((hasUl_org hc).mp hul)]
      · have hk : f.childrenOf c = [] := by
          by_contra h
          exact hul ((hasUl_org hc).mpr h)
        rw [if_neg hul, appendToLi_org hn hmem hk]
    · rw [if_neg hidx]
      have hprev : some a ∈ before.map (·.ancestry) := by
        by_contra h
        apply hidx
        have hi := (idxOf_ancestry (before.map (·.ancestry)) (rest.map (·.ancestry)) (some a)).mpr h
        simpa using hi
      rw [appendToUl_org hc hn (hsame hprev)]

/-- One iteration adds the step to the forest drawn so far. -/
theorem nestStep_spec (before : List Step) (s : Step) (rest : List Step)
    (hn : ((before ++ [s]).map Step.id).Nodup) (hpos : ∀ t ∈ before ++ [s], 0 < t.id)
    (hd : Drawable (before ++ [s])) :
    nestStep ((before ++ s :: rest).map (·.ancestry)) before.length s
        (.org ((drawnForest before).map toS)) =
      some (.org ((drawnForest (before ++ [s])).map toS)) := by
  have hposb : ∀ t ∈ before, 0 < t.id := fun t ht => hpos t (List.mem_append_left _ ht)
  have hnb : (before.map Step.id).Nodup := by
    rw [List.map_append] at hn
    exact (List.nodup_append.mp hn).1
  obtain ⟨hlabels, -, hkids⟩ := drawnForest_spec hnb hposb hd.init
  have hlabpos : ∀ i ∈ (drawnForest before).labels, 0 < i := fun i hi => by
    obtain ⟨t, ht, rfl⟩ := List.mem_map.mp (hlabels.mem_iff.mp hi)
    exact hposb t ht
  have hlast := hd before s [] rfl
  rw [drawnForest_concat]
  by_cases hb : before = []
  · rw [if_pos hb] at hlast
    have he : s.entry = (s.id, []) := by simp [Step.entry, Step.drawnBelow_of_top hlast]
    rw [nestStep_top before s rest (zero_notMem_labels hlabpos) (Or.inl hb), he, Forest.place_top,
      Forest.map_append]
    rfl
  · rw [if_neg hb] at hlast
    rcases hlast with hzero | ⟨a, p, ha, hp, hpar⟩
    · have htop : s.topLevel = true := by simp [Step.topLevel, hzero]
      have he : s.entry = (s.id, []) := by simp [Step.entry, Step.drawnBelow_of_top htop]
      rw [nestStep_top before s rest (zero_notMem_labels hlabpos) (Or.inr hzero), he,
        Forest.place_top, Forest.map_append]
      rfl
    · have hppos : 0 < p := hlabpos p (hlabels.mem_iff.mpr hp)
      have he : s.entry = (s.id, [] ++ [p]) := by
        simp [Step.entry, Step.drawnBelow_of_parent ha hpar hppos]
      have hc : toS p ≠ ['0'] := fun h => by
        have h0 : toS p = toS 0 := h
        rw [toS_inj] at h0
        omega
      have hnod : ((drawnForest before).map toS).labels.Nodup := by
        rw [Forest.labels_map]
        exact (hlabels.nodup_iff.mpr hnb).map toS_injective
      have hmem : toS p ∈ ((drawnForest before).map toS).labels := by
        rw [Forest.labels_map]
        exact List.mem_map_of_mem (hlabels.mem_iff.mpr hp)
      -- an earlier step with the same ancestry is drawn below the same step
      have hsame : some a ∈ before.map (·.ancestry) →
          ((drawnForest before).map toS).childrenOf (toS p) ≠ [] := by
        intro h
        obtain ⟨t, ht, hta⟩ := List.mem_map.mp h
        have htb := Step.drawnBelow_of_parent hta hpar hppos
        rw [Forest.childrenOf_map toS_injective, hkids p]
        intro hnil
        rw [List.map_eq_nil_iff, List.map_eq_nil_iff, List.filter_eq_nil_iff] at hnil
        exact hnil t ht (by simp [htb])
      rw [nestStep_below before s rest hb ha hpar hc hnod hmem hsame, he, Forest.place_below,
        Forest.map_graft toS_injective]
      rfl

end Iteration

theorem nestFrom_spec (before rest : List Step)
    (hn : ((before ++ rest).map Step.id).Nodup) (hpos : ∀ t ∈ before ++ rest, 0 < t.id)
    (hd : Drawable (before ++ rest)) :
    nestFrom ((before ++ rest).map (·.ancestry)) before.length rest
        (.org ((drawnForest before).map toS)) =
      some (.org ((drawnForest (before ++ rest)).map toS)) := by
  induction rest generalizing before with
  | nil => simp [nestFrom]
  | cons s rest ih =>
    have hsplit : before ++ s :: rest = before ++ [s] ++ rest := by simp
    rw [nestFrom, nestStep_spec before s rest]
    · rw [Option.bind_some, hsplit, ← ih (before ++ [s])]
      · simp
      · rwa [← hsplit]
      · rwa [← hsplit]
      · rwa [← hsplit]
    · rw [hsplit, List.map_append] at hn
      exact (List.nodup_append.mp hn).1
    · intro t ht
      exact hpos t (by rw [hsplit]; exact List.mem_append_left _ ht)
    · intro l t r hl
      exact hd l t (r ++ rest) (by rw [hsplit, hl]; simp)

/-- `_draw_list` draws the forest of the steps. -/
theorem nestList_eq {steps : List Step} (hn : (steps.map Step.id).Nodup)
    (hpos : ∀ s ∈ steps, 0 < s.id) (hd : Drawable steps) :
    nestList steps = some (.org ((drawnForest steps).map toS)) :=
  nestFrom_spec [] steps hn hpos hd

/-! ## The names -/

theorem drawFrom_eq_nestFrom {steps : List Step} (h : ∀ s ∈ steps, (scriptName s).isSome = true)
    (ancestry : List (Option Text)) (index : Nat) (org : Dom) :
    drawFrom ancestry index steps org = nestFrom ancestry index steps org := by
  induction steps generalizing index org with
  | nil => rfl
  | cons s ss ih =>
    rw [List.forall_mem_cons] at h
    have hstep : drawStep ancestry index s org = nestStep ancestry index s org := by
      rw [drawStep, h.1]
      exact Option.map_id'
    rw [drawFrom, nestFrom, hstep]
    exact Option.bind_congr fun org' _ => ih h.2 (index + 1) org'

namespace Step

theorem plainName_iff {s : Step} : s.plainName = true ↔ (scriptName s).isSome = true ∧ s.NoMarkup := by
  rw [plainName, NoMarkup]
  cases scriptName s with
  | none => simp
  | some v => simp

/-- A name with neither a backslash nor a line break is shown. -/
theorem plainName_of_name {s : Step} (h : ∀ c ∈ s.name, c ≠ '\\' ∧ Script.isLineBreak c = false) :
    s.plainName = true := by
  rw [plainName, scriptName, Script.stringValue_htmlEscape h]
  exact Script.isText_htmlEscape s.name

theorem plainName_congr {s t : Step} (h : s.name = t.name) : s.plainName = t.plainName := by
  rw [plainName, scriptName, h, plainName, scriptName]

end Step

/-- When every name is shown, all the scripts run. -/
theorem drawList_eq_nestList {steps : List Step} (h : ∀ s ∈ steps, s.plainName = true) :
    drawList steps = nestList steps :=
  drawFrom_eq_nestFrom (fun s hs => (Step.plainName_iff.mp (h s hs)).1) _ 0 _

namespace Dom

/-- The classes of the items of a list, in document order. -/
def itemClasses (d : Dom) : List Text := (d.lis []).map Prod.fst

theorem map_fst_lis (d : Dom) (pre : List Text) : (d.lis pre).map Prod.fst = d.itemClasses := by
  rw [itemClasses]
  induction d generalizing pre with
  | nil => rfl
  | li c i n ihi ihn =>
    rw [lis, lis, List.map_cons, List.map_cons, List.map_append, List.map_append, ihi pre, ihn pre]
  | ul c i n ihi ihn =>
    rw [lis, lis, List.map_append, List.map_append, ihi (pre ++ [c]), ihn pre, ihi ([] ++ [c])]

@[simp] theorem itemClasses_nil : itemClasses nil = [] := rfl

@[simp] theorem itemClasses_li (c : Text) (i n : Dom) :
    (li c i n).itemClasses = c :: (i.itemClasses ++ n.itemClasses) := by
  rw [itemClasses, lis, List.map_cons, List.map_append]
  rfl

@[simp] theorem itemClasses_ul (c : Text) (i n : Dom) : (ul c i n).itemClasses = i.itemClasses ++ n.itemClasses := by
  rw [itemClasses, lis, List.map_append, map_fst_lis]
  rfl

@[simp] theorem itemClasses_append (d e : Dom) : (d.append e).itemClasses = d.itemClasses ++ e.itemClasses := by
  induction d with
  | nil => rfl
  | li c i n _ ihn => simp [append, ihn]
  | ul c i n _ ihn => simp [append, ihn]

/-- The classes of the lists of a list, in document order. -/
def listClasses : Dom → List Text
  | nil => []
  | li _ i n => i.listClasses ++ n.listClasses
  | ul c i n => c :: (i.listClasses ++ n.listClasses)

@[simp] theorem listClasses_append (d e : Dom) : (d.append e).listClasses = d.listClasses ++ e.listClasses := by
  induction d with
  | nil => rfl
  | li c i n _ ihn => simp [append, listClasses, ihn]
  | ul c i n _ ihn => simp [append, listClasses, ihn]

theorem hasUl_iff {d : Dom} {c : Text} : d.hasUl c = true ↔ c ∈ d.listClasses := by
  induction d with
  | nil => simp [hasUl, listClasses]
  | li k i n ihi ihn => rw [hasUl, listClasses, Bool.or_eq_true, ihi, ihn, List.mem_append]
  | ul k i n ihi ihn =>
    rw [hasUl, listClasses, Bool.or_eq_true, Bool.or_eq_true, beq_iff_eq, ihi, ihn, List.mem_cons, List.mem_append,
      eq_comm, or_assoc]

/-! ### Counting

What is appended comes once for each list, or item, of the class. -/

variable (d x : Dom) (c : Text)

theorem countP_itemClasses_appendToUl (f : Text → Bool) :
    (d.appendToUl c x).itemClasses.countP f =
      d.itemClasses.countP f + d.listClasses.count c * x.itemClasses.countP f := by
  induction d with
  | nil => simp [appendToUl, listClasses]
  | li k i n ihi ihn =>
    simp only [appendToUl, itemClasses_li, listClasses, List.countP_cons, List.countP_append, List.count_append, ihi, ihn]
    ring
  | ul k i n ihi ihn =>
    by_cases hk : k = c
    all_goals
      simp only [appendToUl, itemClasses_ul, listClasses, hk, if_true, if_false, itemClasses_append, List.countP_append,
        List.count_cons, List.count_append, beq_iff_eq, ihi, ihn]
      ring

theorem count_listClasses_appendToUl (k : Text) :
    (d.appendToUl c x).listClasses.count k =
      d.listClasses.count k + d.listClasses.count c * x.listClasses.count k := by
  induction d with
  | nil => simp [appendToUl, listClasses]
  | li a i n ihi ihn =>
    simp only [appendToUl, listClasses, List.count_append, ihi, ihn]
    ring
  | ul a i n ihi ihn =>
    by_cases ha : a = c
    all_goals
      simp only [appendToUl, listClasses, ha, if_true, if_false, listClasses_append, List.count_append,
        List.count_cons, beq_iff_eq, ihi, ihn]
      ring

theorem countP_itemClasses_appendToLi (f : Text → Bool) :
    (d.appendToLi c x).itemClasses.countP f =
      d.itemClasses.countP f + d.itemClasses.count c * x.itemClasses.countP f := by
  induction d with
  | nil => simp [appendToLi]
  | li k i n ihi ihn =>
    by_cases hk : k = c
    all_goals
      simp only [appendToLi, itemClasses_li, hk, if_true, if_false, itemClasses_append, List.countP_cons,
        List.countP_append, List.count_cons, List.count_append, beq_iff_eq, ihi, ihn]
      ring
  | ul k i n ihi ihn =>
    simp only [appendToLi, itemClasses_ul, List.countP_append, List.count_append, ihi, ihn]
    ring

theorem count_listClasses_appendToLi (k : Text) :
    (d.appendToLi c x).listClasses.count k =
      d.listClasses.count k + d.itemClasses.count c * x.listClasses.count k := by
  induction d with
  | nil => simp [appendToLi, listClasses]
  | li a i n ihi ihn =>
    by_cases ha : a = c
    all_goals
      simp only [appendToLi, listClasses, ha, if_true, if_false, itemClasses_li, listClasses_append, List.count_append,
        List.count_cons, beq_iff_eq, ihi, ihn]
      ring
  | ul a i n ihi ihn =>
    simp only [appendToLi, listClasses, itemClasses_ul, List.count_append, List.count_cons, ihi, ihn]
    ring

variable {d x c}

theorem mem_of_count {k : Text} {l l' b y : List Text} (h : l'.count k = l.count k + b.count c * y.count k) :
    k ∈ l' ↔ k ∈ l ∨ c ∈ b ∧ k ∈ y := by
  rw [← List.count_pos_iff, ← List.count_pos_iff, ← List.count_pos_iff, ← List.count_pos_iff, h, Nat.add_pos_iff_pos_or_pos]
  simp only [Nat.pos_iff_ne_zero, ne_eq, Nat.mul_eq_zero, not_or]

theorem mem_itemClasses_appendToUl {k : Text} :
    k ∈ (d.appendToUl c x).itemClasses ↔ k ∈ d.itemClasses ∨ c ∈ d.listClasses ∧ k ∈ x.itemClasses :=
  mem_of_count (countP_itemClasses_appendToUl d x c _)

theorem mem_listClasses_appendToUl {k : Text} :
    k ∈ (d.appendToUl c x).listClasses ↔ k ∈ d.listClasses ∨ c ∈ d.listClasses ∧ k ∈ x.listClasses :=
  mem_of_count (count_listClasses_appendToUl d x c k)

theorem mem_itemClasses_appendToLi {k : Text} :
    k ∈ (d.appendToLi c x).itemClasses ↔ k ∈ d.itemClasses ∨ c ∈ d.itemClasses ∧ k ∈ x.itemClasses :=
  mem_of_count (countP_itemClasses_appendToLi d x c _)

theorem mem_listClasses_appendToLi {k : Text} :
    k ∈ (d.appendToLi c x).listClasses ↔ k ∈ d.listClasses ∨ c ∈ d.itemClasses ∧ k ∈ x.listClasses :=
  mem_of_count (count_listClasses_appendToLi d x c k)

theorem appendToUl_of_notMem_lists (h : c ∉ d.listClasses) : d.appendToUl c x = d := by
  induction d with
  | nil => rfl
  | li k i n ihi ihn =>
    rw [listClasses, List.mem_append, not_or] at h
    rw [appendToUl, ihi h.1, ihn h.2]
  | ul k i n ihi ihn =>
    rw [listClasses, List.mem_cons, List.mem_append, not_or, not_or] at h
    rw [appendToUl, if_neg (Ne.symm h.1), ihi h.2.1, ihn h.2.2]

theorem appendToLi_of_notMem_items (h : c ∉ d.itemClasses) : d.appendToLi c x = d := by
  induction d with
  | nil => rfl
  | li k i n ihi ihn =>
    rw [itemClasses_li, List.mem_cons, List.mem_append, not_or, not_or] at h
    rw [appendToLi, if_neg (Ne.symm h.1), ihi h.2.1, ihn h.2.2]
  | ul k i n ihi ihn =>
    rw [itemClasses_ul, List.mem_append, not_or] at h
    rw [appendToLi, ihi h.1, ihn h.2]

/-- No two items have one class, and no two lists. -/
structure Distinct (d : Dom) : Prop where
  items : d.itemClasses.Nodup
  lists : d.listClasses.Nodup

namespace Distinct

variable {a : Text}

theorem appendToUl (h : d.Distinct) (ha : a ∉ d.itemClasses) : (d.appendToUl c (li a nil nil)).Distinct := by
  obtain ⟨hitems, hlists⟩ := h
  rw [List.nodup_iff_count_le_one] at hitems hlists
  constructor
  · rw [List.nodup_iff_count_le_one]
    intro k
    rw [List.count_eq_countP, countP_itemClasses_appendToUl, ← List.count_eq_countP, ← List.count_eq_countP, itemClasses_li]
    by_cases hk : a = k
    · subst hk
      have hc := hlists c
      rw [List.count_eq_zero.mpr ha]
      simpa using hc
    · simpa [hk] using hitems k
  · rw [List.nodup_iff_count_le_one]
    intro k
    rw [count_listClasses_appendToUl]
    simpa [listClasses] using hlists k

theorem appendToLi (h : d.Distinct) (ha : a ∉ d.itemClasses) (hc : d.hasUl c = false) :
    (d.appendToLi c (ul c (li a nil nil) nil)).Distinct := by
  have hnone : c ∉ d.listClasses := fun hmem => by
    rw [hasUl_iff.mpr hmem] at hc
    cases hc
  obtain ⟨hitems, hlists⟩ := h
  rw [List.nodup_iff_count_le_one] at hitems hlists
  have hone := hitems c
  constructor
  · rw [List.nodup_iff_count_le_one]
    intro k
    rw [List.count_eq_countP, countP_itemClasses_appendToLi, ← List.count_eq_countP, ← List.count_eq_countP, itemClasses_ul, itemClasses_li]
    by_cases hk : a = k
    · subst hk
      rw [List.count_eq_zero.mpr ha]
      simpa using hone
    · simpa [hk] using hitems k
  · rw [List.nodup_iff_count_le_one]
    intro k
    rw [count_listClasses_appendToLi]
    by_cases hk : c = k
    · subst hk
      rw [List.count_eq_zero.mpr hnone]
      simpa [listClasses] using hone
    · simpa [listClasses, hk] using hlists k

end Distinct

theorem itemClasses_org (f : Forest Nat) : (org (f.map toS)).itemClasses = f.labels.map toS := by
  rw [itemClasses, lis_org, Forest.map_fst_paths, Forest.labels_map]

end Dom

/-- What the script of a step does: nothing, or it puts the item into the lists of a class, or into a new list below
the items of a class that has none. -/
theorem nestStep_cases {ancestry : List (Option Text)} {index : Nat} {s : Step} {org org' : Dom}
    (h : nestStep ancestry index s org = some org') :
    org' = org ∨ (∃ c, org' = org.appendToUl c (.li (toS s.id) .nil .nil)) ∨
      ∃ c, org.hasUl c = false ∧ org' = org.appendToLi c (.ul c (.li (toS s.id) .nil .nil) .nil) := by
  unfold nestStep at h
  dsimp only at h
  split at h
  · exact Or.inr (Or.inl ⟨_, (Option.some.inj h).symm⟩)
  · split at h
    · split at h
      · exact Or.inl (Option.some.inj h).symm
      · exact Or.inr (Or.inl ⟨_, (Option.some.inj h).symm⟩)
    · split at h
      · cases h
      · split at h
        · split at h
          · exact Or.inr (Or.inl ⟨_, (Option.some.inj h).symm⟩)
          · rename_i hul
            exact Or.inr (Or.inr ⟨_, Bool.eq_false_iff.mpr hul, (Option.some.inj h).symm⟩)
        · exact Or.inr (Or.inl ⟨_, (Option.some.inj h).symm⟩)

/-- The script of a step brings no item but its own. -/
theorem itemClasses_nestStep {ancestry : List (Option Text)} {index : Nat} {s : Step} {org org' : Dom}
    (h : nestStep ancestry index s org = some org') {k : Text} (hk : k ∈ org'.itemClasses) :
    k ∈ org.itemClasses ∨ k = toS s.id := by
  rcases nestStep_cases h with rfl | ⟨c, rfl⟩ | ⟨c, -, rfl⟩
  · exact Or.inl hk
  · exact (Dom.mem_itemClasses_appendToUl.mp hk).imp_right fun hx => by simpa using hx.2
  · exact (Dom.mem_itemClasses_appendToLi.mp hk).imp_right fun hx => by simpa using hx.2

theorem distinct_nestStep {ancestry : List (Option Text)} {index : Nat} {s : Step} {org org' : Dom}
    (h : nestStep ancestry index s org = some org') (hd : org.Distinct) (hnew : toS s.id ∉ org.itemClasses) :
    org'.Distinct := by
  rcases nestStep_cases h with rfl | ⟨c, rfl⟩ | ⟨c, hc, rfl⟩
  · exact hd
  · exact hd.appendToUl hnew
  · exact hd.appendToLi hnew hc

/-- A step whose name makes no script has no item. -/
theorem itemClasses_drawFrom {ancestry : List (Option Text)} {index : Nat} {steps : List Step} {org org' : Dom}
    (h : drawFrom ancestry index steps org = some org') {k : Text} (hk : k ∈ org'.itemClasses) :
    k ∈ org.itemClasses ∨ ∃ s ∈ steps, (scriptName s).isSome = true ∧ k = toS s.id := by
  induction steps generalizing index org with
  | nil =>
    cases h
    exact Or.inl hk
  | cons s ss ih =>
    obtain ⟨org₁, hstep, hrest⟩ := Option.bind_eq_some_iff.mp h
    rcases ih hrest with hold | ⟨t, ht, hname, hkt⟩
    · obtain ⟨nested, hnested, rfl⟩ := Option.map_eq_some_iff.mp hstep
      split at hold
      · rename_i hname
        exact (itemClasses_nestStep hnested hold).imp_right fun hks => ⟨s, List.mem_cons_self, hname, hks⟩
      · exact Or.inl hold
    · exact Or.inr ⟨t, List.mem_cons_of_mem s ht, hname, hkt⟩

/-- The scripts take no item away. -/
theorem mem_itemClasses_of_drawFrom {ancestry : List (Option Text)} {index : Nat} {steps : List Step} {org org' : Dom}
    (h : drawFrom ancestry index steps org = some org') {k : Text} (hk : k ∈ org.itemClasses) : k ∈ org'.itemClasses := by
  induction steps generalizing index org with
  | nil =>
    cases h
    exact hk
  | cons s ss ih =>
    obtain ⟨org₁, hstep, hrest⟩ := Option.bind_eq_some_iff.mp h
    obtain ⟨nested, hnested, rfl⟩ := Option.map_eq_some_iff.mp hstep
    refine ih hrest ?_
    split
    · rcases nestStep_cases hnested with rfl | ⟨c, rfl⟩ | ⟨c, -, rfl⟩
      · exact hk
      · exact Dom.mem_itemClasses_appendToUl.mpr (Or.inl hk)
      · exact Dom.mem_itemClasses_appendToLi.mpr (Or.inl hk)
    · exact hk

/-- So a list that shows all the steps shows that all their names make scripts. -/
theorem scripts_of_drawList {steps : List Step} {f : Forest Nat} (hn : (steps.map Step.id).Nodup)
    (hdraw : drawList steps = some (.org (f.map toS))) (hlabels : f.labels.Perm (steps.map Step.id)) :
    ∀ s ∈ steps, (scriptName s).isSome = true := by
  intro s hs
  have hitem : toS s.id ∈ (Dom.org (f.map toS)).itemClasses := by
    rw [Dom.itemClasses_org]
    exact List.mem_map_of_mem (hlabels.mem_iff.mpr (List.mem_map_of_mem hs))
  rcases itemClasses_drawFrom hdraw hitem with hold | ⟨t, ht, hname, hid⟩
  · exact absurd hold (by simp)
  · rw [toS_inj] at hid
    rwa [List.inj_on_of_nodup_map hn hs ht hid]

theorem distinct_drawFrom {ancestry : List (Option Text)} {index : Nat} {steps : List Step} {org org' : Dom}
    (h : drawFrom ancestry index steps org = some org') (hn : (steps.map Step.id).Nodup) (hd : org.Distinct)
    (hnew : ∀ s ∈ steps, toS s.id ∉ org.itemClasses) : org'.Distinct := by
  induction steps generalizing index org with
  | nil =>
    cases h
    exact hd
  | cons s ss ih =>
    obtain ⟨org₁, hstep, hrest⟩ := Option.bind_eq_some_iff.mp h
    obtain ⟨nested, hnested, rfl⟩ := Option.map_eq_some_iff.mp hstep
    rw [List.forall_mem_cons] at hnew
    rw [List.map_cons, List.nodup_cons] at hn
    split at hrest
    · refine ih hrest hn.2 (distinct_nestStep hnested hd hnew.1) fun t ht hmem => ?_
      rcases itemClasses_nestStep hnested hmem with hold | hid
      · exact hnew.2 t ht hold
      · rw [toS_inj] at hid
        exact hn.1 (hid ▸ List.mem_map_of_mem ht)
    · exact ih hrest hn.2 hd hnew.2

/-- The list that `_draw_list` builds shows each of its steps once. -/
theorem distinct_drawList {steps : List Step} {org : Dom} (h : drawList steps = some org)
    (hn : (steps.map Step.id).Nodup) : org.Distinct := by
  refine distinct_drawFrom h hn ⟨?_, ?_⟩ fun s _ => ?_
  · exact List.nodup_nil
  · exact List.nodup_singleton _
  · exact List.not_mem_nil

theorem length_itemClasses_drawList {steps : List Step} {org : Dom} (h : drawList steps = some org)
    (hn : (steps.map Step.id).Nodup) :
    org.itemClasses.length ≤ (steps.filter fun s => (scriptName s).isSome).length := by
  rw [← List.length_map (fun s : Step => toS s.id)]
  refine (List.subperm_of_subset (distinct_drawList h hn).items fun k hk => ?_).length_le
  rcases itemClasses_drawFrom h hk with hold | ⟨s, hs, hname, rfl⟩
  · exact absurd hold (by simp)
  · exact List.mem_map_of_mem (List.mem_filter.mpr ⟨hs, hname⟩)

/-- The box of the new step comes at most once. -/
theorem length_itemClasses_loadProcessMap {org : Dom} (hd : org.Distinct) (parent : Option Nat) :
    (loadProcessMap org parent).itemClasses.length ≤ org.itemClasses.length + 1 := by
  have hul : ∀ c (x : Dom), x.itemClasses.length = 1 →
      (org.appendToUl c x).itemClasses.length ≤ org.itemClasses.length + 1 := by
    intro c x hx
    have hone := List.nodup_iff_count_le_one.mp hd.lists c
    rw [← List.countP_true, Dom.countP_itemClasses_appendToUl, List.countP_true, hx]
    omega
  have hli : ∀ c (x : Dom), x.itemClasses.length = 1 →
      (org.appendToLi c x).itemClasses.length ≤ org.itemClasses.length + 1 := by
    intro c x hx
    have hone := List.nodup_iff_count_le_one.mp hd.items c
    rw [← List.countP_true, Dom.countP_itemClasses_appendToLi, List.countP_true, hx]
    omega
  cases parent with
  | none => exact hul _ _ rfl
  | some p =>
    unfold loadProcessMap
    dsimp only
    split
    · exact hul _ _ rfl
    · exact hli _ _ rfl
