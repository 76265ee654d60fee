import Mathlib.Data.List.Basic
import Mathlib.Data.List.Induction
import Mathlib.Data.List.Nodup

/-!
# Ordered forests

An ordered forest in first-child, next-sibling form: a node has a label, the forest of its
children and the forest of the siblings that follow it.  The labels in preorder together with the
path from the root to each node determine the forest, and inserting the nodes one after the other
below their parents rebuilds it.
-/

inductive Forest (α : Type) where
  | nil : Forest α
  | node (a : α) (kids rest : Forest α) : Forest α
  deriving DecidableEq, Repr

namespace Forest

variable {α β : Type}

def leaf (a : α) : Forest α := node a nil nil

/-- The labels in preorder. -/
def labels : Forest α → List α
  | nil => []
  | node a k r => a :: (k.labels ++ r.labels)

/-- The labels of the top-level nodes, in order. -/
def roots : Forest α → List α
  | nil => []
  | node a _ r => a :: r.roots

def append : Forest α → Forest α → Forest α
  | nil, g => g
  | node a k r, g => node a k (r.append g)

def map (f : α → β) : Forest α → Forest β
  | nil => nil
  | node a k r => node (f a) (k.map f) (r.map f)

/-- The labels in preorder, each with the labels on the path that leads to it. -/
def paths (pre : List α) : Forest α → List (α × List α)
  | nil => []
  | node a k r => (a, pre) :: (k.paths (pre ++ [a]) ++ r.paths pre)

section Graft

variable [DecidableEq α]

/-- Append `g` below every node labelled `p`, after the children it has. -/
def graft : Forest α → α → Forest α → Forest α
  | nil, _, _ => nil
  | node a k r, p, g =>
    node a (if a = p then (k.graft p g).append g else k.graft p g) (r.graft p g)

/-- The labels directly below the nodes labelled `p`. -/
def childrenOf (p : α) : Forest α → List α
  | nil => []
  | node a k r => (if a = p then k.roots else []) ++ (k.childrenOf p ++ r.childrenOf p)

/-- Insert a leaf below the last label of its path, at the top when the path is empty. -/
def place (f : Forest α) (e : α × List α) : Forest α :=
  match e.2.getLast? with
  | none => f.append (leaf e.1)
  | some p => f.graft p (leaf e.1)

/-- Take the nodes labelled `s` out, with everything below them. -/
def remove (s : α) : Forest α → Forest α
  | nil => nil
  | node a k r => if a = s then r.remove s else node a (k.remove s) (r.remove s)

/-- The tree below a node labelled `s`, as a forest of one tree. -/
def subtree (s : α) : Forest α → Forest α
  | nil => nil
  | node a k r => if a = s then node a k nil else (k.subtree s).append (r.subtree s)

end Graft

/-! ## Labels -/

@[simp] theorem labels_leaf (a : α) : (leaf a).labels = [a] := rfl

@[simp] theorem labels_append (f g : Forest α) : (f.append g).labels = f.labels ++ g.labels := by
  induction f with
  | nil => rfl
  | node a k r _ ihr => simp [append, labels, ihr]

@[simp] theorem roots_append (f g : Forest α) : (f.append g).roots = f.roots ++ g.roots := by
  induction f with
  | nil => rfl
  | node a k r _ ihr => simp [append, roots, ihr]

@[simp] theorem append_nil (f : Forest α) : f.append nil = f := by
  induction f with
  | nil => rfl
  | node a k r _ ihr => simp [append, ihr]

theorem append_assoc (f g h : Forest α) : (f.append g).append h = f.append (g.append h) := by
  induction f with
  | nil => rfl
  | node a k r _ ihr => simp [append, ihr]

@[simp] theorem append_eq_nil {f g : Forest α} : f.append g = nil ↔ f = nil ∧ g = nil := by
  cases f <;> simp [append]

@[simp] theorem labels_map (f : α → β) (t : Forest α) : (t.map f).labels = t.labels.map f := by
  induction t with
  | nil => rfl
  | node a k r ihk ihr => simp [map, labels, ihk, ihr]

@[simp] theorem map_append (f : α → β) (t u : Forest α) :
    (t.append u).map f = (t.map f).append (u.map f) := by
  induction t with
  | nil => rfl
  | node a k r _ ihr => simp [append, map, ihr]

@[simp] theorem map_eq_nil {f : α → β} {t : Forest α} : t.map f = nil ↔ t = nil := by
  cases t <;> simp [map]

@[simp] theorem roots_map (f : α → β) (t : Forest α) : (t.map f).roots = t.roots.map f := by
  induction t with
  | nil => rfl
  | node a k r _ ihr => rw [map, roots, ihr, roots, List.map_cons]

theorem map_fst_paths (pre : List α) (f : Forest α) : (f.paths pre).map Prod.fst = f.labels := by
  induction f generalizing pre with
  | nil => rfl
  | node a k r ihk ihr => simp [paths, labels, ihk, ihr]

theorem paths_append (pre : List α) (f g : Forest α) :
    (f.append g).paths pre = f.paths pre ++ g.paths pre := by
  induction f with
  | nil => rfl
  | node a k r _ ihr => simp [append, paths, ihr]

theorem paths_prefix (x pre : List α) (f : Forest α) :
    f.paths (x ++ pre) = (f.paths pre).map fun e => (e.1, x ++ e.2) := by
  induction f generalizing pre with
  | nil => rfl
  | node a k r ihk ihr => simp [paths, ihr, ← ihk, List.append_assoc]

theorem paths_map (f : α → β) (pre : List α) (t : Forest α) :
    (t.map f).paths (pre.map f) = (t.paths pre).map fun e => (f e.1, e.2.map f) := by
  induction t generalizing pre with
  | nil => rfl
  | node a k r ihk ihr => simp [map, paths, ihr, ← ihk]

/-- Every path extends the one it started from, through labels of the forest. -/
theorem mem_paths_prefix {pre : List α} {f : Forest α} {e : α × List α} (he : e ∈ f.paths pre) :
    ∃ q, e.2 = pre ++ q ∧ q ⊆ f.labels := by
  induction f generalizing pre with
  | nil => simp [paths] at he
  | node a k r ihk ihr =>
    rw [paths, List.mem_cons, List.mem_append] at he
    rcases he with rfl | he | he
    · exact ⟨[], by simp, by simp⟩
    · obtain ⟨q, hq, hsub⟩ := ihk he
      refine ⟨a :: q, by rw [hq]; simp, ?_⟩
      rw [labels]
      exact List.cons_subset_cons a (List.Subset.trans hsub (List.subset_append_left _ _))
    · obtain ⟨q, hq, hsub⟩ := ihr he
      exact ⟨q, hq, List.Subset.trans hsub (List.Subset.trans (List.subset_append_right _ _) (List.subset_cons_self _ _))⟩

theorem fst_mem_labels {pre : List α} {f : Forest α} {e : α × List α} (he : e ∈ f.paths pre) :
    e.1 ∈ f.labels := by
  rw [← map_fst_paths pre f]
  exact List.mem_map_of_mem he

/-- No label occurs on its own path. -/
theorem notMem_path {pre q : List α} {f : Forest α} {a : α} (hn : f.labels.Nodup)
    (he : (a, pre ++ q) ∈ f.paths pre) : a ∉ q := by
  induction f generalizing pre q with
  | nil => simp [paths] at he
  | node b k r ihk ihr =>
    simp only [labels, List.nodup_cons, List.mem_append, not_or, List.nodup_append] at hn
    obtain ⟨⟨hbk, -⟩, hk, hr, -⟩ := hn
    rw [paths, List.mem_cons, List.mem_append, Prod.mk.injEq] at he
    rcases he with ⟨-, hq⟩ | he | he
    · rw [List.append_right_eq_self.mp hq]
      exact List.not_mem_nil
    · obtain ⟨q', hq', -⟩ := mem_paths_prefix he
      rw [List.append_assoc, List.append_cancel_left_eq] at hq'
      rw [hq', ← List.append_assoc] at he
      rw [hq', List.singleton_append, List.mem_cons, not_or]
      refine ⟨?_, ihk hk he⟩
      rintro rfl
      exact hbk (fst_mem_labels he)
    · exact ihr hr he

/-! ## Grafting -/

section Graft

variable [DecidableEq α]

theorem graft_of_notMem {p : α} {f : Forest α} (h : p ∉ f.labels) (g : Forest α) :
    f.graft p g = f := by
  induction f with
  | nil => rfl
  | node a k r ihk ihr =>
    simp only [labels, List.mem_cons, List.mem_append, not_or] at h
    rw [graft, if_neg (Ne.symm h.1), ihk h.2.1, ihr h.2.2]

@[simp] theorem graft_nil (p : α) (f : Forest α) : f.graft p nil = f := by
  induction f with
  | nil => rfl
  | node a k r ihk ihr => rw [graft, append_nil, ite_self, ihk, ihr]

@[simp] theorem roots_graft (p : α) (g f : Forest α) : (f.graft p g).roots = f.roots := by
  induction f with
  | nil => rfl
  | node a k r _ ihr => rw [graft, roots, roots, ihr]

theorem graft_ne_nil {f : Forest α} (hf : f ≠ nil) (p : α) (g : Forest α) : f.graft p g ≠ nil := by
  cases f with
  | nil => exact absurd rfl hf
  | node a k r => simp [graft]

theorem graft_append (p : α) (g f h : Forest α) :
    (f.append h).graft p g = (f.graft p g).append (h.graft p g) := by
  induction f with
  | nil => rfl
  | node a k r _ ihr => rw [append, graft, graft, append, ihr]

/-- Grafting below a label that occurs once adds the labels of the graft. -/
theorem labels_graft_perm {p : α} {f : Forest α} (hn : f.labels.Nodup) (hp : p ∈ f.labels)
    (g : Forest α) : (f.graft p g).labels.Perm (f.labels ++ g.labels) := by
  induction f with
  | nil => simp [labels] at hp
  | node a k r ihk ihr =>
    simp only [labels, List.nodup_cons, List.mem_append, not_or, List.nodup_append] at hn
    obtain ⟨⟨hak, har⟩, hk, hr, hd⟩ := hn
    rw [graft, labels, labels, List.cons_append]
    apply List.Perm.cons
    by_cases ha : a = p
    · subst ha
      rw [if_pos rfl, labels_append, graft_of_notMem hak, graft_of_notMem har, List.append_assoc,
        List.append_assoc]
      exact List.Perm.append_left _ List.perm_append_comm
    · rw [if_neg ha]
      simp only [labels, List.mem_cons, List.mem_append] at hp
      rcases hp with rfl | hp | hp
      · exact absurd rfl ha
      · have hpr : p ∉ r.labels := fun h => hd p hp p h rfl
        rw [graft_of_notMem hpr]
        refine ((ihk hk hp).append_right _).trans ?_
        rw [List.append_assoc, List.append_assoc]
        exact List.Perm.append_left _ List.perm_append_comm
      · have hpk : p ∉ k.labels := fun h => hd p h p hp rfl
        rw [graft_of_notMem hpk, List.append_assoc]
        exact List.Perm.append_left _ (ihr hr hp)

theorem mem_labels_graft {p : α} {f g : Forest α} (hn : f.labels.Nodup) (hp : p ∈ f.labels)
    {x : α} : x ∈ (f.graft p g).labels ↔ x ∈ f.labels ∨ x ∈ g.labels := by
  rw [(labels_graft_perm hn hp g).mem_iff, List.mem_append]

theorem nodup_labels_graft {p : α} {f g : Forest α} (hn : f.labels.Nodup) (hp : p ∈ f.labels)
    (hg : g.labels.Nodup) (hd : ∀ a ∈ g.labels, a ∉ f.labels) : (f.graft p g).labels.Nodup := by
  rw [(labels_graft_perm hn hp g).nodup_iff]
  exact hn.append hg fun a hf ha => hd a ha hf

/-- Two grafts below the same label append one after the other. -/
theorem graft_graft_same {p : α} {g : Forest α} (hg : p ∉ g.labels) (f h : Forest α) :
    (f.graft p g).graft p h = f.graft p (g.append h) := by
  induction f with
  | nil => rfl
  | node a k r ihk ihr =>
    rw [graft, graft, graft, ihr]
    by_cases ha : a = p
    · rw [if_pos ha, if_pos ha, if_pos ha, graft_append, ihk, graft_of_notMem hg, append_assoc]
    · rw [if_neg ha, if_neg ha, if_neg ha, ihk]

/-- A graft below a label that only the last graft brought in goes into that graft. -/
theorem graft_graft_fresh {p a : α} {f : Forest α} (ha : a ∉ f.labels) (g h : Forest α) :
    (f.graft p g).graft a h = f.graft p (g.graft a h) := by
  induction f with
  | nil => rfl
  | node b k r ihk ihr =>
    simp only [labels, List.mem_cons, List.mem_append, not_or] at ha
    rw [graft, graft, graft, if_neg (Ne.symm ha.1), ihr ha.2.2]
    by_cases hb : b = p
    · rw [if_pos hb, if_pos hb, graft_append, ihk ha.2.1]
    · rw [if_neg hb, if_neg hb, ihk ha.2.1]

theorem map_graft [DecidableEq β] {f : α → β} (hf : Function.Injective f) (t : Forest α) (p : α)
    (g : Forest α) : (t.graft p g).map f = (t.map f).graft (f p) (g.map f) := by
  induction t with
  | nil => rfl
  | node a k r ihk ihr =>
    rw [graft, map, map, graft, ihr]
    by_cases ha : a = p
    · rw [if_pos ha, if_pos (congrArg f ha), map_append, ihk]
    · rw [if_neg ha, if_neg (fun h => ha (hf h)), ihk]

/-! ## Rebuilding a forest from its paths -/

theorem place_top (f : Forest α) (a : α) : f.place (a, []) = f.append (leaf a) := rfl

theorem place_below (f : Forest α) (a p : α) (q : List α) :
    f.place (a, q ++ [p]) = f.graft p (leaf a) := by
  simp [place]

/-- Only the last label of a path matters. -/
theorem place_getLast (f : Forest α) (a : α) (l : List α) :
    f.place (a, l.getLast?.toList) = f.place (a, l) := by
  cases h : l.getLast? with
  | none => simp [place, h]
  | some p => simp [place, h]

/-- Placing the nodes of `f` in preorder below a label of `b` grafts `f` there. -/
theorem foldl_place_below {b : Forest α} {p : α} (q : List α) {f : Forest α}
    (hn : f.labels.Nodup) (hd : ∀ a ∈ f.labels, a ∉ b.labels) (hb : b.labels.Nodup)
    (hp : p ∈ b.labels) : (f.paths (q ++ [p])).foldl place b = b.graft p f := by
  induction f generalizing b p q with
  | nil => simp [paths, graft_nil]
  | node a k r ihk ihr =>
    simp only [labels, List.nodup_cons, List.mem_append, not_or, List.nodup_append] at hn
    obtain ⟨⟨hak, har⟩, hk, hr, hkr⟩ := hn
    have hab : a ∉ b.labels := hd a (by simp [labels])
    have hkb : ∀ x ∈ k.labels, x ∉ b.labels := fun x hx => hd x (by simp [labels, hx])
    have hrb : ∀ x ∈ r.labels, x ∉ b.labels := fun x hx => hd x (by simp [labels, hx])
    -- the root of `f` comes first, then what is below it, then its siblings
    have hkids : (b.graft p (leaf a)).graft a k = b.graft p (node a k nil) := by
      rw [graft_graft_fresh hab]
      simp [leaf, graft, append]
    have hmem1 : ∀ x, x ∈ (b.graft p (leaf a)).labels ↔ x ∈ b.labels ∨ x = a := fun x => by
      rw [mem_labels_graft hb hp, labels_leaf, List.mem_singleton]
    have hn1 : (b.graft p (leaf a)).labels.Nodup :=
      nodup_labels_graft hb hp (by simp) (by simpa using hab)
    have hmem2 : ∀ x, x ∈ (b.graft p (node a k nil)).labels ↔
        x ∈ b.labels ∨ x = a ∨ x ∈ k.labels := fun x => by
      rw [mem_labels_graft hb hp]
      simp [labels]
    have hn2 : (b.graft p (node a k nil)).labels.Nodup :=
      nodup_labels_graft hb hp (by simp [labels, hak, hk]) (by simpa [labels] using ⟨hab, hkb⟩)
    rw [paths, List.foldl_cons, List.foldl_append, place_below,
      ihk (q ++ [p]) hk (fun x hx => by
        rw [hmem1]
        rintro (h | rfl)
        · exact hkb x hx h
        · exact hak hx) hn1 ((hmem1 a).mpr (Or.inr rfl)),
      hkids,
      ihr q hr (fun x hx => by
        rw [hmem2]
        rintro (h | rfl | h)
        · exact hrb x hx h
        · exact har hx
        · exact hkr x h x hx rfl) hn2 ((hmem2 p).mpr (Or.inl hp)),
      graft_graft_same (by
        simp only [labels, List.append_nil, List.mem_cons, not_or]
        exact ⟨fun h => hab (h ▸ hp), fun h => hkb p h hp⟩)]
    rfl

theorem foldl_place_top {b f : Forest α} (hn : f.labels.Nodup)
    (hd : ∀ a ∈ f.labels, a ∉ b.labels) (hb : b.labels.Nodup) :
    (f.paths []).foldl place b = b.append f := by
  induction f generalizing b with
  | nil => simp [paths]
  | node a k r _ ihr =>
    simp only [labels, List.nodup_cons, List.mem_append, not_or, List.nodup_append] at hn
    obtain ⟨⟨hak, har⟩, hk, hr, hkr⟩ := hn
    have hab : a ∉ b.labels := hd a (by simp [labels])
    have hkb : ∀ x ∈ k.labels, x ∉ b.labels := fun x hx => hd x (by simp [labels, hx])
    have hrb : ∀ x ∈ r.labels, x ∉ b.labels := fun x hx => hd x (by simp [labels, hx])
    have hn1 : (b.append (leaf a)).labels.Nodup := by
      rw [labels_append, labels_leaf]
      exact hb.append (List.nodup_singleton a) (by simpa using hab)
    have hkids : (b.append (leaf a)).graft a k = b.append (node a k nil) := by
      rw [graft_append, graft_of_notMem hab]
      simp [leaf, graft, append]
    have hd1 : ∀ x ∈ k.labels, x ∉ (b.append (leaf a)).labels := fun x hx => by
      simp only [labels_append, labels_leaf, List.mem_append, List.mem_singleton, not_or]
      exact ⟨hkb x hx, fun h => hak (h ▸ hx)⟩
    have hfold := foldl_place_below [] hk hd1 hn1 (p := a) (by simp)
    rw [List.nil_append] at hfold
    rw [paths, List.nil_append, List.foldl_cons, List.foldl_append, place_top, hfold, hkids, ihr hr,
      append_assoc]
    · rfl
    · intro x hx
      simp only [labels_append, labels, List.append_nil, List.mem_append, List.mem_cons, not_or]
      exact ⟨hrb x hx, fun h => har (h ▸ hx), fun h => hkr x h x hx rfl⟩
    · rw [labels_append]
      refine hb.append (by simp [labels, hak, hk]) ?_
      intro x hx hx'
      simp only [labels, List.append_nil, List.mem_cons] at hx'
      rcases hx' with rfl | h
      · exact hab hx
      · exact hkb x h hx

/-- Inserting the nodes in preorder, each below the last label of its path, rebuilds the forest. -/
theorem foldl_place_paths {f : Forest α} (hn : f.labels.Nodup) :
    (f.paths []).foldl place nil = f :=
  foldl_place_top hn (by simp [labels]) (by simp [labels])

/-! ## Children -/

theorem childrenOf_of_notMem {x : α} {f : Forest α} (h : x ∉ f.labels) : f.childrenOf x = [] := by
  induction f with
  | nil => rfl
  | node a k r ihk ihr =>
    simp only [labels, List.mem_cons, List.mem_append, not_or] at h
    rw [childrenOf, if_neg (Ne.symm h.1), ihk h.2.1, ihr h.2.2]
    rfl

theorem childrenOf_append (x : α) (f g : Forest α) :
    (f.append g).childrenOf x = f.childrenOf x ++ g.childrenOf x := by
  induction f with
  | nil => rfl
  | node a k r _ ihr => simp [append, childrenOf, ihr]

@[simp] theorem childrenOf_leaf (x a : α) : (leaf a).childrenOf x = [] := by
  simp [leaf, childrenOf, roots]

theorem childrenOf_map [DecidableEq β] {f : α → β} (hf : Function.Injective f) (t : Forest α)
    (x : α) : (t.map f).childrenOf (f x) = (t.childrenOf x).map f := by
  induction t with
  | nil => rfl
  | node a k r ihk ihr =>
    rw [map, childrenOf, ihk, ihr, childrenOf, roots_map, List.map_append, List.map_append]
    by_cases ha : a = x
    · rw [if_pos ha, if_pos (congrArg f ha)]
    · rw [if_neg ha, if_neg fun h => ha (hf h), List.map_nil]

/-- A leaf inserted below `p` becomes the last child of `p`; nobody else's children change. -/
theorem childrenOf_graft_leaf {f : Forest α} {p : α} (hn : f.labels.Nodup) (hp : p ∈ f.labels)
    (a x : α) :
    (f.graft p (leaf a)).childrenOf x = f.childrenOf x ++ if x = p then [a] else [] := by
  induction f with
  | nil => simp [labels] at hp
  | node b k r ihk ihr =>
    simp only [labels, List.nodup_cons, List.mem_append, not_or, List.nodup_append] at hn
    obtain ⟨⟨hbk, hbr⟩, hk, hr, hkr⟩ := hn
    simp only [labels, List.mem_cons, List.mem_append] at hp
    rw [graft, childrenOf, childrenOf]
    by_cases hb : b = p
    · subst hb
      rw [if_pos rfl, graft_of_notMem hbk, graft_of_notMem hbr, childrenOf_append, childrenOf_leaf,
        List.append_nil, roots_append]
      by_cases hx : x = b
      · subst hx
        rw [if_pos rfl, if_pos rfl, if_pos rfl, childrenOf_of_notMem hbk, childrenOf_of_notMem hbr]
        simp [leaf, roots]
      · rw [if_neg (Ne.symm hx), if_neg (Ne.symm hx), if_neg hx, List.append_nil]
    · rw [if_neg hb, roots_graft]
      rcases hp with rfl | hp | hp
      · exact absurd rfl hb
      · have hpr : p ∉ r.labels := fun h => hkr p hp p h rfl
        rw [ihk hk hp, graft_of_notMem hpr]
        by_cases hx : x = p
        · subst hx
          rw [childrenOf_of_notMem hpr]
          simp
        · simp [if_neg hx]
      · have hpk : p ∉ k.labels := fun h => hkr p h p hp rfl
        rw [ihr hr hp, graft_of_notMem hpk]
        simp only [List.append_assoc]

/-- Every entry comes after the entry of its parent. -/
def ParentsFirst (es : List (α × List α)) : Prop :=
  ∀ l e r, es = l ++ e :: r → ∀ p, e.2.getLast? = some p → p ∈ l.map Prod.fst

omit [DecidableEq α] in
theorem ParentsFirst.init {es : List (α × List α)} {e : α × List α}
    (h : ParentsFirst (es ++ [e])) : ParentsFirst es := by
  intro l x r hes p hp
  exact h l x (r ++ [e]) (by rw [hes]; simp) p hp

/-- A forest built in an order that puts parents first has every entry once, the entries without a
parent at the top and every other entry below its parent, siblings in the order of the entries. -/
theorem foldl_place_spec {es : List (α × List α)} (hn : (es.map Prod.fst).Nodup)
    (hp : ParentsFirst es) :
    (es.foldl place nil).labels.Perm (es.map Prod.fst) ∧
      (es.foldl place nil).roots = (es.filter (·.2 = [])).map Prod.fst ∧
      ∀ x, (es.foldl place nil).childrenOf x =
        (es.filter (·.2.getLast? = some x)).map Prod.fst := by
  induction es using List.reverseRecOn with
  | nil => simp [labels, roots, childrenOf]
  | append_singleton es e ih =>
    rw [List.map_append, List.nodup_append] at hn
    obtain ⟨hlabels, hroots, hkids⟩ := ih hn.1 hp.init
    rw [List.foldl_append, List.foldl_cons, List.foldl_nil]
    obtain ⟨a, q⟩ := e
    cases hq : q.getLast? with
    | none =>
      have hplace : (es.foldl place nil).place (a, q) = (es.foldl place nil).append (leaf a) := by
        simp [place, hq]
      rw [hplace]
      refine ⟨?_, ?_, ?_⟩
      · simpa using hlabels.append_right [a]
      · simp [hroots, leaf, roots, List.getLast?_eq_none_iff.mp hq]
      · intro x
        simp [childrenOf_append, hkids x, hq]
    | some p =>
      have hplace : (es.foldl place nil).place (a, q) = (es.foldl place nil).graft p (leaf a) := by
        simp [place, hq]
      -- the parent is among the entries before
      have hmem : p ∈ (es.foldl place nil).labels :=
        hlabels.mem_iff.mpr (hp es (a, q) [] rfl p hq)
      have hnod : (es.foldl place nil).labels.Nodup := hlabels.nodup_iff.mpr hn.1
      rw [hplace]
      refine ⟨?_, ?_, ?_⟩
      · refine (labels_graft_perm hnod hmem _).trans ?_
        simpa using hlabels.append_right [a]
      · have hne : q ≠ [] := by
          rintro rfl
          simp at hq
        simp [hroots, hne]
      · intro x
        rw [childrenOf_graft_leaf hnod hmem, hkids x]
        by_cases hx : x = p
        · simp [hx, hq]
        · simp [hx, hq, Ne.symm hx]

/-! ## Moving a subtree -/

/-- Move the tree of `s` below `t`, after the children `t` has.  Nothing moves when `s` or `t` is
not there or `t` lies in the tree of `s`. -/
def drop (f : Forest α) (s t : α) : Forest α :=
  if s ∈ f.labels ∧ t ∈ f.labels ∧ t ∉ (f.subtree s).labels then
    (f.remove s).graft t (f.subtree s)
  else f

theorem remove_of_notMem {s : α} {f : Forest α} (h : s ∉ f.labels) : f.remove s = f := by
  induction f with
  | nil => rfl
  | node a k r ihk ihr =>
    simp only [labels, List.mem_cons, List.mem_append, not_or] at h
    rw [remove, if_neg (Ne.symm h.1), ihk h.2.1, ihr h.2.2]

/-- The labels of a forest are those of a subtree and those outside it. -/
theorem labels_remove_subtree_perm {f : Forest α} (hn : f.labels.Nodup) (s : α) :
    ((f.remove s).labels ++ (f.subtree s).labels).Perm f.labels := by
  induction f with
  | nil => rfl
  | node a k r ihk ihr =>
    simp only [labels, List.nodup_cons, List.mem_append, not_or, List.nodup_append] at hn
    obtain ⟨⟨hak, har⟩, hk, hr, hkr⟩ := hn
    rw [remove, subtree]
    by_cases ha : a = s
    · subst ha
      rw [if_pos rfl, if_pos rfl, remove_of_notMem har, labels, labels, labels, List.append_nil]
      exact List.perm_append_comm
    · rw [if_neg ha, if_neg ha, labels_append, labels, labels, List.cons_append]
      apply List.Perm.cons
      calc (k.remove s).labels ++ (r.remove s).labels ++ ((k.subtree s).labels ++ (r.subtree s).labels)
          |>.Perm ((k.remove s).labels ++ (k.subtree s).labels ++
            ((r.remove s).labels ++ (r.subtree s).labels)) := by
            simp only [List.append_assoc]
            apply List.Perm.append_left
            simp only [← List.append_assoc]
            exact List.Perm.append_right _ List.perm_append_comm
        _ |>.Perm (k.labels ++ r.labels) := (ihk hk).append (ihr hr)

theorem mem_labels_subtree {f : Forest α} {s : α} (h : s ∈ f.labels) : s ∈ (f.subtree s).labels := by
  induction f with
  | nil => simp [labels] at h
  | node a k r ihk ihr =>
    rw [subtree]
    by_cases ha : a = s
    · rw [if_pos ha, labels, ha]
      exact List.mem_cons_self
    · rw [if_neg ha, labels_append, List.mem_append]
      simp only [labels, List.mem_cons, List.mem_append] at h
      rcases h with rfl | h | h
      · exact absurd rfl ha
      · exact Or.inl (ihk h)
      · exact Or.inr (ihr h)

/-- What is not below `s` stays when `s` is taken out. -/
theorem mem_labels_remove {f : Forest α} (hn : f.labels.Nodup) {s t : α} (h : t ∈ f.labels)
    (ht : t ∉ (f.subtree s).labels) : t ∈ (f.remove s).labels := by
  have hmem := (labels_remove_subtree_perm hn s).mem_iff.mpr h
  exact (List.mem_append.mp hmem).resolve_right ht

theorem labels_drop_perm {f : Forest α} (hn : f.labels.Nodup) (s t : α) :
    (f.drop s t).labels.Perm f.labels := by
  rw [drop]
  split
  · rename_i h
    have hperm := labels_remove_subtree_perm hn s
    have hn' := hperm.nodup_iff.mpr hn
    have ht := mem_labels_remove hn h.2.1 h.2.2
    exact (labels_graft_perm (List.nodup_append.mp hn').1 ht _).trans hperm
  · exact List.Perm.refl _

theorem map_remove [DecidableEq β] {f : α → β} (hf : Function.Injective f) (s : α) (t : Forest α) :
    (t.map f).remove (f s) = (t.remove s).map f := by
  induction t with
  | nil => rfl
  | node a k r ihk ihr =>
    rw [map, remove, remove, ihk, ihr]
    by_cases ha : a = s
    · rw [if_pos ha, if_pos (congrArg f ha)]
    · rw [if_neg ha, if_neg fun h => ha (hf h), map]

theorem map_subtree [DecidableEq β] {f : α → β} (hf : Function.Injective f) (s : α) (t : Forest α) :
    (t.map f).subtree (f s) = (t.subtree s).map f := by
  induction t with
  | nil => rfl
  | node a k r ihk ihr =>
    rw [map, subtree, subtree, ihk, ihr]
    by_cases ha : a = s
    · rw [if_pos ha, if_pos (congrArg f ha), map, map]
    · rw [if_neg ha, if_neg fun h => ha (hf h), map_append]

theorem map_drop [DecidableEq β] {f : α → β} (hf : Function.Injective f) (t : Forest α) (s d : α) :
    (t.map f).drop (f s) (f d) = (t.drop s d).map f := by
  have hcond : (f s ∈ (t.map f).labels ∧ f d ∈ (t.map f).labels ∧ f d ∉ ((t.map f).subtree (f s)).labels) ↔
      (s ∈ t.labels ∧ d ∈ t.labels ∧ d ∉ (t.subtree s).labels) := by
    rw [map_subtree hf, labels_map, labels_map, List.mem_map_of_injective hf,
      List.mem_map_of_injective hf, List.mem_map_of_injective hf]
  rw [drop, drop]
  by_cases h : s ∈ t.labels ∧ d ∈ t.labels ∧ d ∉ (t.subtree s).labels
  · rw [if_pos h, if_pos (hcond.mpr h), map_remove hf, map_subtree hf, map_graft hf]
  · rw [if_neg h, if_neg fun h' => h (hcond.mp h')]

/-- A forest of one tree stays one tree with the same root. -/
theorem drop_node_nil (r : α) (k : Forest α) (s t : α) :
    ∃ k', (node r k nil).drop s t = node r k' nil := by
  rw [drop]
  split
  · rename_i h
    have hs : r ≠ s := by
      rintro rfl
      have hsub : (node r k nil).subtree r = node r k nil := by simp [subtree]
      rw [hsub] at h
      exact h.2.2 h.2.1
    rw [remove, if_neg hs, remove, graft]
    exact ⟨_, rfl⟩
  · exact ⟨k, rfl⟩

/-- A leaf grafted below `p` stands, in preorder, somewhere after `p`; nothing else moves. -/
theorem paths_graft_leaf {f : Forest α} (hn : f.labels.Nodup) {p : α} (hp : p ∈ f.labels) (x : α)
    (pre : List α) :
    ∃ A B w, f.paths pre = A ++ B ∧ p ∈ A.map Prod.fst ∧
      (f.graft p (leaf x)).paths pre = A ++ (x, w) :: B := by
  induction f generalizing pre with
  | nil => simp [labels] at hp
  | node a k r ihk ihr =>
    simp only [labels, List.nodup_cons, List.mem_append, not_or, List.nodup_append] at hn
    obtain ⟨⟨hak, har⟩, hk, hr, hkr⟩ := hn
    rw [graft, paths, paths]
    by_cases ha : a = p
    · subst ha
      refine ⟨(a, pre) :: k.paths (pre ++ [a]), r.paths pre, pre ++ [a], rfl, by simp, ?_⟩
      rw [if_pos rfl, graft_of_notMem hak, graft_of_notMem har, paths_append]
      simp [leaf, paths]
    · rw [if_neg ha]
      simp only [labels, List.mem_cons, List.mem_append] at hp
      rcases hp.resolve_left (Ne.symm ha) with hpk | hpr
      · obtain ⟨A, B, w, hpaths, hmem, hgraft⟩ := ihk hk hpk (pre ++ [a])
        refine ⟨(a, pre) :: A, B ++ r.paths pre, w, by simp [hpaths], by simp [hmem], ?_⟩
        rw [hgraft, graft_of_notMem fun h => hkr p hpk p h rfl]
        simp
      · obtain ⟨A, B, w, hpaths, hmem, hgraft⟩ := ihr hr hpr pre
        refine ⟨(a, pre) :: (k.paths (pre ++ [a]) ++ A), B, w, by simp [hpaths], by simp [hmem], ?_⟩
        rw [hgraft, graft_of_notMem fun h => hkr p h p hpr rfl]
        simp

end Graft

/-! ## Parents come first in preorder -/

/-- A node below the start of the paths has its parent earlier in preorder. -/
theorem paths_parent {pre : List α} {f : Forest α} {i : Nat} {a : α} {l : List α}
    (h : (f.paths pre)[i]? = some (a, l)) :
    l = pre ∨ ∃ j < i, ∃ p q, l = q ++ [p] ∧ (f.paths pre)[j]? = some (p, q) := by
  induction f generalizing pre i with
  | nil => simp [paths] at h
  | node b k r ihk ihr =>
    rw [paths] at h ⊢
    cases i with
    | zero =>
      rw [List.getElem?_cons_zero, Option.some.injEq, Prod.mk.injEq] at h
      exact Or.inl h.2.symm
    | succ i =>
      rw [List.getElem?_cons_succ] at h
      by_cases hi : i < (k.paths (pre ++ [b])).length
      · rw [List.getElem?_append_left hi] at h
        rcases ihk h with rfl | ⟨j, hj, p, q, rfl, hq⟩
        · exact Or.inr ⟨0, Nat.succ_pos i, b, pre, rfl, rfl⟩
        · refine Or.inr ⟨j + 1, by omega, p, q, rfl, ?_⟩
          rw [List.getElem?_cons_succ, List.getElem?_append_left (by omega)]
          exact hq
      · rw [List.getElem?_append_right (by omega)] at h
        rcases ihr h with rfl | ⟨j, hj, p, q, rfl, hq⟩
        · exact Or.inl rfl
        · refine Or.inr ⟨(k.paths (pre ++ [b])).length + j + 1, by omega, p, q, rfl, ?_⟩
          rw [List.getElem?_cons_succ, List.getElem?_append_right (by omega)]
          simpa using hq

/-- A node is a root, or a child of the last node on its path, which has the rest of the path. -/
theorem roots_or_childrenOf [DecidableEq α] {pre : List α} {f : Forest α} {a : α} {l : List α}
    (h : (a, l) ∈ f.paths pre) :
    (l = pre ∧ a ∈ f.roots) ∨ ∃ t p, l = t ++ [p] ∧ a ∈ f.childrenOf p ∧ (p, t) ∈ f.paths pre := by
  induction f generalizing pre with
  | nil => simp [paths] at h
  | node b k r ihk ihr =>
    rw [paths, List.mem_cons, List.mem_append] at h
    rcases h with h | h | h
    · rw [Prod.mk.injEq] at h
      exact Or.inl ⟨h.2, h.1 ▸ List.mem_cons_self⟩
    · right
      rcases ihk h with ⟨rfl, ha⟩ | ⟨t, p, rfl, ha, hp⟩
      · refine ⟨pre, b, rfl, ?_, List.mem_cons_self⟩
        rw [childrenOf, if_pos rfl]
        exact List.mem_append_left _ ha
      · refine ⟨t, p, rfl, ?_, List.mem_cons_of_mem _ (List.mem_append_left _ hp)⟩
        exact List.mem_append_right _ (List.mem_append_left _ ha)
    · rcases ihr h with ⟨rfl, ha⟩ | ⟨t, p, rfl, ha, hp⟩
      · exact Or.inl ⟨rfl, List.mem_cons_of_mem _ ha⟩
      · refine Or.inr ⟨t, p, rfl, ?_, List.mem_cons_of_mem _ (List.mem_append_right _ hp)⟩
        exact List.mem_append_right _ (List.mem_append_right _ ha)

end Forest
