import BuildInProgress.ProjectLog

/-!
# The time machine

`timemachine.html.erb` draws the process map of an entry of the log with a script of its own.  It takes
positions, ancestries and names from the entry where `_draw_list` takes them from the steps, and what throws in it ends
the drawing: an empty ancestry, which only ends the script of its own step there.  The names come to it as they are.
-/

open Text

namespace TimeMachine

/-- `ancestryArray[i].split("/")[ancestryArray[i].split("/").length-1]` -/
def lastPart (ancestry : Text) : Text := (ancestry.splitOn '/').getLastD []

/-- One iteration of `drawList`, `none` where it throws: null has no `split`, and without a class there is no
selector.  A name with markup is taken for text here. -/
def drawStep (ancestryArray : List (Option Text)) (i : Nat) (s : LogStep) (org : Dom) : Option Dom :=
  let item := Dom.li (toS s.id) .nil .nil
  -- `ancestryArray[-1]` is undefined, which equals null
  let previous := if i = 0 then none else (ancestryArray[i - 1]?).join
  if s.position = 0 then some (org.appendToUl ['0'] item)
  else
    match s.ancestry with
    | none => none
    | some a =>
      let parent := lastPart a
      if parent = [] then none
      else if some a = previous then some (org.appendToUl parent item)
      else if ancestryArray.idxOf (some a) = i then
        if org.hasUl parent then some (org.appendToUl parent item)
        -- first step with this ancestry
        else some (org.appendToLi parent (.ul parent item .nil))
      else
        -- returned to an existing branch
        some (org.appendToUl parent item)

def drawFrom (ancestryArray : List (Option Text)) : Nat → List LogStep → Dom → Dom
  | _, [], org => org
  | i, s :: ss, org =>
    match drawStep ancestryArray i s org with
    | none => org
    | some org => drawFrom ancestryArray (i + 1) ss org

/-- `drawList` on the steps of an entry. -/
def drawList (log : List LogStep) : Dom := drawFrom (log.map (·.ancestry)) 0 log (.ul ['0'] .nil .nil)

end TimeMachine

/-! ## What finds a place -/

namespace Drawing

/-- The step `s` behind the steps `before` finds a place in a list that has items for the steps of `drawn`: at the top,
beside a step below the same parent or, with an ancestry that no step before has, below its parent. -/
inductive Placed (drawn : List Step) : List Step → Step → Prop where
  | first (s : Step) : Placed drawn [] s
  | top {before : List Step} {s : Step} (hb : before ≠ []) (hs : s.ancestry.map getParent = some ['0']) :
      Placed drawn before s
  | sibling {before l : List Step} {t s : Step} (hb : l ++ [t] <+: before) (hl : l ≠ []) (ht : t ∈ drawn)
      (hplaced : Placed drawn l t) (hs : s.ancestry.map getParent = t.ancestry.map getParent) : Placed drawn before s
  | child {before l : List Step} {t s : Step} (hb : l ++ [t] <+: before) (ht : t ∈ drawn) (hplaced : Placed drawn l t)
      (hs : s.ancestry.map getParent = some (toS t.id)) (hfirst : ∀ q ∈ before, q.ancestry ≠ s.ancestry) :
      Placed drawn before s

variable {drawn before rest : List Step} {s : Step} {org : Dom}

/-- The step `t` behind `l` is one of `before`, and has an item. -/
structure Shown (drawn before l : List Step) (t : Step) : Prop where
  there : l ++ [t] <+: before
  mem : t ∈ drawn
  placed : Placed drawn l t

theorem shown_concat {l : List Step} {t : Step} :
    Shown drawn (before ++ [s]) l t ↔ Shown drawn before l t ∨ l = before ∧ t = s ∧ s ∈ drawn ∧ Placed drawn before s := by
  constructor
  · rintro ⟨hthere, hdrawn, hplaced⟩
    rcases List.prefix_concat_iff.mp hthere with heq | hthere
    · obtain ⟨rfl, hst⟩ := List.append_inj' heq rfl
      obtain rfl := List.singleton_inj.mp hst
      exact Or.inr ⟨rfl, rfl, hdrawn, hplaced⟩
    · exact Or.inl ⟨hthere, hdrawn, hplaced⟩
  · rintro (⟨hthere, hdrawn, hplaced⟩ | ⟨rfl, rfl, hdrawn, hplaced⟩)
    · exact ⟨hthere.trans (List.prefix_append _ _), hdrawn, hplaced⟩
    · exact ⟨List.prefix_rfl, hdrawn, hplaced⟩

/-- The list has an item for each step of `drawn` that found a place, and the lists that these hang in. -/
structure Draws (drawn before : List Step) (org : Dom) : Prop where
  items : ∀ k, k ∈ org.itemClasses ↔ ∃ l t, Shown drawn before l t ∧ k = toS t.id
  lists : ∀ k, k ∈ org.listClasses ↔
    k = ['0'] ∨ ∃ l t, Shown drawn before l t ∧ l ≠ [] ∧ t.ancestry.map getParent = some k

theorem draws_nil : Draws drawn [] (.ul ['0'] .nil .nil) := by
  have hnone : ∀ l t, ¬ Shown drawn [] l t := fun l t h => by simpa using h.there
  constructor
  · intro k
    simp [hnone]
  · intro k
    simp [Dom.listClasses, hnone]

namespace Draws

theorem notMem_items (h : Draws drawn before org) (hn : ((before ++ s :: rest).map Step.id).Nodup) :
    toS s.id ∉ org.itemClasses := by
  intro hmem
  obtain ⟨l, t, hshown, hid⟩ := (h.items _).mp hmem
  rw [toS_inj] at hid
  have ht : t ∈ before := hshown.there.subset (by simp)
  rw [List.map_append, List.nodup_append] at hn
  exact hn.2.2 _ (List.mem_map_of_mem ht) _ (List.mem_map_of_mem List.mem_cons_self) hid.symm

theorem placed_iff (h : Draws drawn before org) (hb : before ≠ []) {a : Text} (ha : s.ancestry = some a) :
    Placed drawn before s ↔ getParent a ∈ org.listClasses ∨
      (∀ q ∈ before, q.ancestry ≠ some a) ∧ getParent a ∈ org.itemClasses := by
  have hparent : s.ancestry.map getParent = some (getParent a) := by rw [ha, Option.map_some]
  rw [h.lists, h.items]
  constructor
  · intro hp
    cases hp with
    | first => exact absurd rfl hb
    | top _ hs => exact Or.inl (Or.inl (Option.some.inj (hparent.symm.trans hs)))
    | sibling hb hl ht hplaced hs => exact Or.inl (Or.inr ⟨_, _, ⟨hb, ht, hplaced⟩, hl, hs.symm.trans hparent⟩)
    | child hb ht hplaced hs hfirst =>
      refine Or.inr ⟨ha ▸ hfirst, _, _, ⟨hb, ht, hplaced⟩, ?_⟩
      exact Option.some.inj (hparent.symm.trans hs)
  · rintro ((htop | ⟨l, t, hshown, hl, ht⟩) | ⟨hfirst, l, t, hshown, hid⟩)
    · exact .top hb (by rw [hparent, htop])
    · exact .sibling hshown.there hl hshown.mem hshown.placed (hparent.trans ht.symm)
    · exact .child hshown.there hshown.mem hshown.placed (by rw [hparent, hid]) (ha ▸ hfirst)

/-- What the script of a step behind others does. -/
theorem nestStep_behind (hb : before ≠ []) {a : Text} (ha : s.ancestry = some a) (org : Dom) :
    nestStep ((before ++ s :: rest).map (·.ancestry)) before.length s org =
      some (if (∀ q ∈ before, q.ancestry ≠ some a) ∧ getParent a ∉ org.listClasses then
        org.appendToLi (getParent a) (.ul (getParent a) (.li (toS s.id) .nil .nil) .nil)
      else org.appendToUl (getParent a) (.li (toS s.id) .nil .nil)) := by
  have hlen : before.length ≠ 0 := fun h => hb (List.length_eq_zero_iff.mp h)
  have hlist : (before ++ s :: rest).map (·.ancestry) =
      before.map (·.ancestry) ++ some a :: rest.map (·.ancestry) := by
    rw [List.map_append, List.map_cons, ha]
  have hnew : some a ∉ before.map (·.ancestry) ↔ ∀ q ∈ before, q.ancestry ≠ some a := by
    rw [List.mem_map]
    push Not
    rfl
  have hidx := idxOf_ancestry (before.map (·.ancestry)) (rest.map (·.ancestry)) (some a)
  rw [List.length_map, hnew] at hidx
  rw [nestStep, if_neg hlen, hlist]
  split
  · -- the step before has the same ancestry
    rename_i heq
    rw [List.getElem?_append_right (by simp), List.getElem?_append_left (by simp; omega)] at heq
    simp only [List.length_map, Nat.sub_self, List.getElem?_cons_zero] at heq
    have hprev : ¬ ∀ q ∈ before, q.ancestry ≠ some a := fun hno => hnew.mpr hno (List.mem_of_getElem? heq.symm)
    rw [ha, if_neg fun h => hprev h.1]
  · rw [ha]
    dsimp only
    by_cases hfirst : ∀ q ∈ before, q.ancestry ≠ some a
    · rw [if_pos (hidx.mpr hfirst)]
      by_cases hul : getParent a ∈ org.listClasses
      · rw [if_pos (Dom.hasUl_iff.mpr hul), if_neg fun h => h.2 hul]
      · rw [if_neg fun h => hul (Dom.hasUl_iff.mp h), if_pos ⟨hfirst, hul⟩]
    · rw [if_neg fun h => hfirst (hidx.mp h), if_neg fun h => hfirst h.1]

/-- A step that finds a place gets an item there. -/
theorem nestStep_placed (h : Draws drawn before org) (ha : before ≠ [] → s.ancestry.isSome = true)
    (hp : Placed drawn before s) :
    ∃ org', nestStep ((before ++ s :: rest).map (·.ancestry)) before.length s org = some org' ∧
      (∀ k, k ∈ org'.itemClasses ↔ k ∈ org.itemClasses ∨ k = toS s.id) ∧
      ∀ k, k ∈ org'.listClasses ↔ k ∈ org.listClasses ∨ before ≠ [] ∧ s.ancestry.map getParent = some k := by
  by_cases hb : before = []
  · subst hb
    have htop : ['0'] ∈ org.listClasses := (h.lists _).mpr (Or.inl rfl)
    refine ⟨org.appendToUl ['0'] (.li (toS s.id) .nil .nil), ?_, fun k => ?_, fun k => ?_⟩
    · rw [nestStep]
      exact if_pos rfl
    · rw [Dom.mem_itemClasses_appendToUl]
      simp [htop]
    · rw [Dom.mem_listClasses_appendToUl]
      simp [Dom.listClasses]
  · obtain ⟨a, ha⟩ := Option.isSome_iff_exists.mp (ha hb)
    have hparent : ∀ k, s.ancestry.map getParent = some k ↔ getParent a = k := fun k => by
      rw [ha, Option.map_some, Option.some.injEq]
    refine ⟨_, nestStep_behind hb ha org, ?_⟩
    rw [h.placed_iff hb ha] at hp
    by_cases hul : getParent a ∈ org.listClasses
    · rw [if_neg fun h => h.2 hul]
      refine ⟨fun k => ?_, fun k => ?_⟩
      · rw [Dom.mem_itemClasses_appendToUl]
        simp [hul]
      · rw [Dom.mem_listClasses_appendToUl, hparent]
        simp only [Dom.listClasses, List.append_nil, List.not_mem_nil, and_false, or_false]
        exact ⟨Or.inl, fun hk => hk.elim id fun hk => hk.2 ▸ hul⟩
    · have hli := hp.resolve_left hul
      rw [if_pos ⟨hli.1, hul⟩]
      refine ⟨fun k => ?_, fun k => ?_⟩
      · rw [Dom.mem_itemClasses_appendToLi]
        simp [hli.2]
      · rw [Dom.mem_listClasses_appendToLi, hparent]
        simp [Dom.listClasses, hli.2, hb, eq_comm]

/-- For a step that finds none the script changes nothing. -/
theorem nestStep_not_placed (h : Draws drawn before org) (ha : before ≠ [] → s.ancestry.isSome = true)
    (hp : ¬ Placed drawn before s) :
    nestStep ((before ++ s :: rest).map (·.ancestry)) before.length s org = some org := by
  have hb : before ≠ [] := by
    rintro rfl
    exact hp (.first s)
  obtain ⟨a, ha⟩ := Option.isSome_iff_exists.mp (ha hb)
  rw [h.placed_iff hb ha, not_or, not_and] at hp
  rw [nestStep_behind hb ha]
  split
  · rename_i hfirst
    rw [Dom.appendToLi_of_notMem_items (hp.2 hfirst.1)]
  · rw [Dom.appendToUl_of_notMem_lists hp.1]

theorem concat_placed (h : Draws drawn before org) (hs : s ∈ drawn) (hp : Placed drawn before s) {org' : Dom}
    (hitems : ∀ k, k ∈ org'.itemClasses ↔ k ∈ org.itemClasses ∨ k = toS s.id)
    (hlists : ∀ k, k ∈ org'.listClasses ↔ k ∈ org.listClasses ∨ before ≠ [] ∧ s.ancestry.map getParent = some k) :
    Draws drawn (before ++ [s]) org' := by
  constructor
  · intro k
    rw [hitems, h.items]
    simp only [shown_concat, or_and_right, exists_or]
    exact or_congr_right ⟨fun hk => ⟨before, s, ⟨rfl, rfl, hs, hp⟩, hk⟩, fun ⟨_, _, ⟨_, ht, _⟩, hk⟩ => ht ▸ hk⟩
  · intro k
    rw [hlists, h.lists, or_assoc]
    simp only [shown_concat, or_and_right, exists_or]
    refine or_congr_right (or_congr_right ⟨fun hk => ⟨before, s, ⟨rfl, rfl, hs, hp⟩, hk⟩, ?_⟩)
    rintro ⟨_, _, ⟨rfl, rfl, -⟩, hk⟩
    exact hk

theorem concat_not (h : Draws drawn before org) (hno : ¬ (s ∈ drawn ∧ Placed drawn before s)) :
    Draws drawn (before ++ [s]) org := by
  have hsame : ∀ l t, Shown drawn (before ++ [s]) l t ↔ Shown drawn before l t := fun l t => by
    rw [shown_concat]
    exact or_iff_left fun hnew => hno hnew.2.2
  constructor
  · intro k
    simp only [hsame]
    exact h.items k
  · intro k
    simp only [hsame]
    exact h.lists k

end Draws

/-- The steps behind one that is listed. -/
theorem forall_prefix_cons {Q : List Step → Step → Prop} :
    (∀ l t, l ++ [t] <+: s :: rest → Q l t) ↔ Q [] s ∧ ∀ l t, l ++ [t] <+: rest → Q (s :: l) t := by
  constructor
  · intro h
    refine ⟨h [] s ?_, fun l t ht => h (s :: l) t ?_⟩
    · exact List.prefix_cons_inj s |>.mpr (List.nil_prefix)
    · exact List.prefix_cons_inj s |>.mpr ht
  · rintro ⟨hs, hrest⟩ l t ht
    cases l with
    | nil =>
      obtain rfl : t = s := (List.cons_prefix_cons.mp ht).1
      exact hs
    | cons u l =>
      obtain ⟨rfl, htail⟩ := List.cons_prefix_cons.mp ht
      exact hrest l t htail

end Drawing

/-! ## The same map -/

namespace TimeMachine

theorem lastPart_render (ids : List Nat) (n : Nat) : lastPart (render (ids ++ [n])) = toS n := by
  rw [lastPart, splitOn_render (List.concat_ne_nil _ _), List.map_append, List.map_singleton, List.getLastD_concat]

/-- At the same step the script does what that of the partial does. -/
theorem drawStep_stepJson {ancestry : List (Option Text)} {i : Nat} {s : Step} (hs : ancestry[i]? = some s.ancestry)
    (hpos : s.position = i) (hanc : i ≠ 0 → ∃ ids, ids ≠ [] ∧ s.ancestry = some (render ids)) (org : Dom) :
    drawStep ancestry i (Database.stepJson s) org = nestStep ancestry i s org := by
  have hposition : (Database.stepJson s).position = i := hpos
  rw [drawStep, nestStep]
  dsimp only
  by_cases hi : i = 0
  · rw [if_pos (show (Database.stepJson s).position = 0 by rw [hposition, hi]; rfl)]
    exact (if_pos hi).symm
  · have hne : (Database.stepJson s).position ≠ 0 := by
      rw [hposition]
      exact Int.natCast_ne_zero.mpr hi
    obtain ⟨ids, hids, ha⟩ := hanc hi
    obtain ⟨init, n, rfl⟩ := (List.eq_nil_or_concat' ids).resolve_left hids
    have hparent : getParent (render (init ++ [n])) = toS n := afterLast_render_concat init n
    -- both compare with the ancestry before
    have hprevious : some (render (init ++ [n])) = (ancestry[i - 1]?).join ↔ ancestry[i]? = ancestry[i - 1]? := by
      rw [hs, ha]
      cases ancestry[i - 1]? with
      | none => simp
      | some b => simp
    rw [if_neg hne, if_neg hi, if_neg hi, ha, show (Database.stepJson s).ancestry = some _ from ha]
    dsimp only
    rw [lastPart_render, hparent, if_neg (toS_ne_nil n), if_congr hprevious rfl rfl]
    rfl

/-- At an empty ancestry it throws. -/
theorem drawStep_of_empty {ancestry : List (Option Text)} {i : Nat} {s : Step} (hpos : s.position = i) (hi : i ≠ 0)
    (ha : s.ancestry = some []) (org : Dom) : drawStep ancestry i (Database.stepJson s) org = none := by
  have hne : (Database.stepJson s).position ≠ 0 := by
    rw [show (Database.stepJson s).position = i from hpos]
    exact Int.natCast_ne_zero.mpr hi
  rw [drawStep]
  dsimp only
  rw [if_neg hne, show (Database.stepJson s).ancestry = some [] from ha]
  rfl

/-- The script keeps the items that are there. -/
theorem itemClasses_drawStep {ancestry : List (Option Text)} {i : Nat} {s : LogStep} {org org' : Dom}
    (h : drawStep ancestry i s org = some org') {k : Text} (hk : k ∈ org.itemClasses) : k ∈ org'.itemClasses := by
  have hul : ∀ c x, k ∈ (org.appendToUl c x).itemClasses := fun c x => Dom.mem_itemClasses_appendToUl.mpr (Or.inl hk)
  have hli : ∀ c x, k ∈ (org.appendToLi c x).itemClasses := fun c x => Dom.mem_itemClasses_appendToLi.mpr (Or.inl hk)
  unfold drawStep at h
  dsimp only at h
  generalize (if i = 0 then none else (ancestry[i - 1]?).join) = previous at h
  split at h
  · exact Option.some.inj h ▸ hul _ _
  · split at h
    · cases h
    · split at h
      · cases h
      · split at h
        · exact Option.some.inj h ▸ hul _ _
        · split at h
          · split at h
            · exact Option.some.inj h ▸ hul _ _
            · exact Option.some.inj h ▸ hli _ _
          · exact Option.some.inj h ▸ hul _ _

theorem itemClasses_drawFrom {ancestry : List (Option Text)} {i : Nat} {log : List LogStep} {org : Dom} {k : Text}
    (hk : k ∈ org.itemClasses) : k ∈ (drawFrom ancestry i log org).itemClasses := by
  induction log generalizing i org with
  | nil => exact hk
  | cons s ss ih =>
    rw [drawFrom]
    split
    · exact hk
    · rename_i org' h
      exact ih (itemClasses_drawStep h hk)

/-- The steps that the script comes to: the first one, and those behind it up to an empty ancestry. -/
def reached : List Step → List Step
  | [] => []
  | s :: ss => s :: ss.takeWhile (·.ancestry ≠ some [])

/-- The other steps begin with an empty ancestry. -/
theorem exists_reached (steps : List Step) : ∃ rest, steps = reached steps ++ rest ∧
    (∀ s ∈ rest.head?, reached steps ≠ [] ∧ s.ancestry = some []) ∧
    ∀ l t, l ++ [t] <+: reached steps → l ≠ [] → t.ancestry ≠ some [] := by
  cases steps with
  | nil => exact ⟨[], rfl, by simp, by simp [reached]⟩
  | cons s ss =>
    refine ⟨ss.dropWhile (·.ancestry ≠ some []), ?_, ?_, ?_⟩
    · rw [reached, List.cons_append, List.takeWhile_append_dropWhile]
    · intro t ht
      have hstop := List.head?_dropWhile_not (fun t : Step => decide (t.ancestry ≠ some [])) ss
      rw [show (ss.dropWhile fun t => decide (t.ancestry ≠ some [])).head? = some t from ht] at hstop
      exact ⟨List.cons_ne_nil _ _, by simpa using hstop⟩
    · intro l t ht hl
      obtain ⟨u, l, rfl⟩ := List.exists_cons_of_ne_nil hl
      have htail := (List.cons_prefix_cons.mp ht).2
      have hmem : t ∈ ss.takeWhile (·.ancestry ≠ some []) := htail.subset (by simp)
      simpa using List.mem_takeWhile_imp hmem

end TimeMachine

namespace Drawing

variable {steps drawn before ahead rest : List Step} {s : Step} {org : Dom}

/-- Behind the end of the script of the time machine, the partial draws nothing when no step with a script finds a
place. -/
theorem drawFrom_eq_self_iff (hsteps : steps = before ++ rest) (hn : (steps.map Step.id).Nodup) (hb : before ≠ [])
    (hanc : ∀ s ∈ rest, s.ancestry.isSome = true) (hdrawn : ∀ s ∈ rest, s ∉ drawn) (h : Draws drawn before org) :
    drawFrom (steps.map (·.ancestry)) before.length rest org = some org ↔
      ∀ l t, l ++ [t] <+: rest → Placed drawn (before ++ l) t → (scriptName t).isSome = false := by
  induction rest generalizing before with
  | nil => simp [drawFrom]
  | cons s ss ih =>
    rw [List.forall_mem_cons] at hanc hdrawn
    have hnext := @ih (before ++ [s]) (by simp [hsteps]) (by simp) hanc.2 hdrawn.2
      (h.concat_not fun hs => hdrawn.1 hs.1)
    rw [List.length_append, List.length_singleton] at hnext
    rw [forall_prefix_cons, List.append_nil, drawFrom, drawStep]
    simp only [List.append_assoc, List.singleton_append] at hnext
    rw [hsteps] at hn hnext ⊢
    by_cases hp : Placed drawn before s
    · obtain ⟨org', hnest, hitems, -⟩ := @Draws.nestStep_placed _ _ ss _ _ h (fun _ => hanc.1) hp
      rw [hnest, Option.map_some, Option.bind_some]
      cases hscript : (scriptName s).isSome with
      | false => simpa [hp] using hnext
      | true =>
        -- the item of the step is new
        refine iff_of_false (fun heq => ?_) fun hall => by simpa using hall.1 hp
        have hitem := mem_itemClasses_of_drawFrom heq ((hitems (toS s.id)).mpr (Or.inr rfl))
        exact h.notMem_items hn hitem
    · rw [h.nestStep_not_placed (fun _ => hanc.1) hp, Option.map_some, Option.bind_some, ite_self]
      simpa [hp] using hnext

/-- As long as the script of the time machine goes on, it and the partial go on with the same list. -/
theorem drawFrom_eq_iff (hsteps : steps = before ++ (ahead ++ rest)) (hdrawn : drawn = before ++ ahead)
    (hn : (steps.map Step.id).Nodup)
    (hbehind : ∀ l t, l ++ [t] <+: steps → t.position = (l.length : Int) ∧ (l ≠ [] → ∃ ids, t.ancestry = some (render ids)))
    (hgoes : ∀ l t, l ++ [t] <+: drawn → l ≠ [] → t.ancestry ≠ some [])
    (hstop : ∀ t ∈ rest.head?, drawn ≠ [] ∧ t.ancestry = some []) (h : Draws drawn before org) :
    drawFrom (steps.map (·.ancestry)) before.length (ahead ++ rest) org =
        some (TimeMachine.drawFrom (steps.map (·.ancestry)) before.length ((ahead ++ rest).map Database.stepJson) org) ↔
      ∀ l t, l ++ [t] <+: ahead ++ rest → Placed drawn (before ++ l) t → (t ∈ drawn ↔ (scriptName t).isSome = true) := by
  induction ahead generalizing before org with
  | nil =>
    rw [List.append_nil] at hdrawn
    subst hdrawn
    cases rest with
    | nil => simp [drawFrom, TimeMachine.drawFrom]
    | cons t ts =>
      -- the script of the time machine throws
      obtain ⟨hb, hempty⟩ := hstop t rfl
      rw [List.nil_append] at hsteps ⊢
      have hlen : drawn.length ≠ 0 := fun hlen => hb (List.length_eq_zero_iff.mp hlen)
      have hpos := (hbehind drawn t (by rw [hsteps]; simp)).1
      rw [List.map_cons, TimeMachine.drawFrom, TimeMachine.drawStep_of_empty hpos hlen hempty]
      have hrest : ∀ x ∈ t :: ts, x.ancestry.isSome = true ∧ x ∉ drawn := by
        intro x hx
        obtain ⟨l, r, heq⟩ := List.append_of_mem hx
        constructor
        · obtain ⟨ids, ha⟩ := (hbehind (drawn ++ l) x (by rw [hsteps, heq]; simp)).2 (by simp [hb])
          rw [ha]
          rfl
        · intro hmem
          rw [hsteps, List.map_append, List.nodup_append] at hn
          exact hn.2.2 _ (List.mem_map_of_mem hmem) _ (List.mem_map_of_mem hx) rfl
      refine (drawFrom_eq_self_iff hsteps hn hb (fun x hx => (hrest x hx).1) (fun x hx => (hrest x hx).2) h).trans ?_
      refine forall₃_congr fun l x hx => imp_congr_right fun _ => ?_
      have hnot : x ∉ drawn := (hrest x (hx.subset (by simp))).2
      simp [hnot]
  | cons s ss ih =>
    have hs : s ∈ drawn := by simp [hdrawn]
    obtain ⟨hpos, hids⟩ := hbehind before s (by rw [hsteps]; simp)
    have hanc : before ≠ [] → s.ancestry.isSome = true := fun hb => by
      obtain ⟨ids, ha⟩ := hids hb
      rw [ha]
      rfl
    have hjson : ∀ org, TimeMachine.drawStep (steps.map (·.ancestry)) before.length (Database.stepJson s) org =
        nestStep (steps.map (·.ancestry)) before.length s org := by
      intro org
      refine TimeMachine.drawStep_stepJson (by simp [hsteps]) hpos (fun hlen => ?_) org
      have hb : before ≠ [] := fun hb => hlen (by rw [hb]; rfl)
      obtain ⟨ids, ha⟩ := hids hb
      refine ⟨ids, ?_, ha⟩
      rintro rfl
      exact hgoes before s (by rw [hdrawn]; simp) hb ha
    have hnext : ∀ {org}, Draws drawn (before ++ [s]) org → _ := fun {org} =>
      @ih (before ++ [s]) org (by simp [hsteps]) (by simp [hdrawn])
    rw [List.length_append, List.length_singleton] at hnext
    simp only [List.append_assoc, List.singleton_append] at hnext
    rw [List.cons_append, List.map_cons, forall_prefix_cons, List.append_nil, drawFrom, drawStep, TimeMachine.drawFrom,
      hjson]
    rw [List.cons_append] at hsteps
    subst hsteps
    by_cases hp : Placed drawn before s
    · obtain ⟨org', hnest, hitems, hlists⟩ := @Draws.nestStep_placed _ _ (ss ++ rest) _ _ h hanc hp
      rw [hnest, Option.map_some, Option.bind_some]
      dsimp only
      cases hscript : (scriptName s).isSome with
      | true => simpa [hp, hs] using hnext (h.concat_placed hs hp hitems hlists)
      | false =>
        -- the item of the step is in the list of the time machine only
        refine iff_of_false (fun heq => ?_) fun hall => by simpa [hs] using hall.1 hp
        have hitem := @TimeMachine.itemClasses_drawFrom ((before ++ s :: (ss ++ rest)).map (·.ancestry))
          (before.length + 1) ((ss ++ rest).map Database.stepJson) _ _ ((hitems (toS s.id)).mpr (Or.inr rfl))
        rcases itemClasses_drawFrom heq hitem with hold | ⟨t, ht, -, hid⟩
        · exact h.notMem_items hn hold
        · rw [toS_inj] at hid
          rw [List.map_append, List.nodup_append, List.map_cons, List.nodup_cons] at hn
          exact hn.2.1.1 (hid ▸ List.mem_map_of_mem ht)
    · rw [h.nestStep_not_placed hanc hp, Option.map_some, Option.bind_some, ite_self]
      simpa [hp] using hnext (h.concat_not fun hno => hp hno.2)

end Drawing

/-- From the steps of an entry the time machine draws the list that `_draw_list` draws from the steps the entry was
written for, exactly when the steps that find a place in its list are those whose names make scripts.  Names with markup
are left aside. -/
theorem time_machine_draws_map_iff {steps : List Step} (hn : (steps.map Step.id).Nodup)
    (hpos : steps.map (·.position) = (List.range steps.length).map (↑))
    (hanc : ∀ s ∈ steps.tail, ∃ ids, s.ancestry = some (render ids))
    (hmarkup : ∀ s ∈ steps, s.NoMarkup ∧ Script.isText (s.name.map Char.toNat) = true) :
    drawList steps = some (TimeMachine.drawList (steps.map Database.stepJson)) ↔
      ∀ before s, before ++ [s] <+: steps → Drawing.Placed (TimeMachine.reached steps) before s →
        (s ∈ TimeMachine.reached steps ↔ s.plainName = true) := by
  obtain ⟨rest, hsteps, hstop, hgoes⟩ := TimeMachine.exists_reached steps
  have hbehind : ∀ l t, l ++ [t] <+: steps →
      t.position = (l.length : Int) ∧ (l ≠ [] → ∃ ids, t.ancestry = some (render ids)) := by
    rintro l t ⟨r, rfl⟩
    constructor
    · have hget := congrArg (·[l.length]?) hpos
      simpa using hget
    · intro hl
      obtain ⟨u, l, rfl⟩ := List.exists_cons_of_ne_nil hl
      exact hanc t (by simp)
  have hancestry : (steps.map Database.stepJson).map (·.ancestry) = steps.map (·.ancestry) := by
    rw [List.map_map]
    rfl
  have hsame := @Drawing.drawFrom_eq_iff _ _ [] (TimeMachine.reached steps) rest _ hsteps rfl hn
    hbehind hgoes hstop Drawing.draws_nil
  rw [← hsteps, List.nil_append] at hsame
  rw [drawList, TimeMachine.drawList, hancestry]
  refine hsame.trans (forall₃_congr fun before s hs => imp_congr_right fun _ => ?_)
  have hplain : s.plainName = true ↔ (scriptName s).isSome = true :=
    Step.plainName_iff.trans (and_iff_left (hmarkup s (hs.subset (by simp))).1)
  rw [hplain]

/-- A first step without ancestry, one below it and one below a step that is not drawn. -/
def straySteps : List Step :=
  [{ StepsController.blankStep 1 1 0 with name := "Saw".toList, position := 0 },
    { StepsController.blankStep 2 1 0 with name := "Sand".toList, position := 1, ancestry := some "1".toList },
    { StepsController.blankStep 3 1 0 with name := "Glue".toList, position := 2, ancestry := some "9/7".toList }]

theorem time_machine_draws_straySteps :
    drawList straySteps = some (TimeMachine.drawList (straySteps.map Database.stepJson)) := by
  refine (time_machine_draws_map_iff (by decide) (by decide) (fun s hs => ?_) (by decide)).mpr fun before s hs _ => ?_
  · rcases List.mem_pair.mp (show s ∈ straySteps.tail from hs) with rfl | rfl
    · exact ⟨[1], by decide⟩
    · exact ⟨[9, 7], by decide⟩
  · have hall : ∀ s ∈ straySteps, s ∈ TimeMachine.reached straySteps ∧ s.plainName = true := by decide
    have hs := hall s (hs.subset (by simp))
    exact iff_of_true hs.1 hs.2

/-- The name of a folder is no part of a string in the script of the page, and behind the empty ancestry of step 3 the
time machine draws nothing. -/
theorem time_machine_draws_other_map :
    let saw : Step := { StepsController.blankStep 1 1 0 with name := "Saw".toList, position := 0 }
    let sand (i : Nat) (position : Int) : Step :=
      { StepsController.blankStep i 1 0 with name := "Sand".toList, position, ancestry := some "1".toList }
    let folder : List Step := [saw, { sand 2 1 with name := "C:\\users".toList }]
    let orphan : List Step := [saw, { sand 3 1 with ancestry := some [] }, sand 2 2]
    let below : Dom := .org (.node "1".toList (.node "2".toList .nil .nil) .nil)
    drawList folder = some (.org (.node "1".toList .nil .nil)) ∧
      TimeMachine.drawList (folder.map Database.stepJson) = below ∧
    drawList orphan = some below ∧
      TimeMachine.drawList (orphan.map Database.stepJson) = .org (.node "1".toList .nil .nil) := by
  decide
