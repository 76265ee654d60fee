import BuildInProgress.Lib.Forest

/-!
# Forests in preorder

In preorder what lies below a node follows it without a gap, and of the nodes directly below one node the order is
kept.
-/

namespace Forest

variable {α : Type} [DecidableEq α]

/-- With the leaf only its own entry comes in. -/
theorem mem_paths_graft_leaf {f : Forest α} (hn : f.labels.Nodup) {p x : α} {pre : List α} {e : α × List α} :
    e ∈ (f.graft p (leaf x)).paths pre ↔ e ∈ f.paths pre ∨ ∃ q, (p, q) ∈ f.paths pre ∧ e = (x, q ++ [p]) := by
  induction f generalizing pre with
  | nil => simp [graft, paths]
  | node a k r ihk ihr =>
    simp only [labels, List.nodup_cons, List.mem_append, not_or, List.nodup_append] at hn
    obtain ⟨⟨hak, -⟩, hk, hr, -⟩ := hn
    have hkids : e ∈ (if a = p then (k.graft p (leaf x)).append (leaf x) else k.graft p (leaf x)).paths (pre ++ [a]) ↔
        e ∈ k.paths (pre ++ [a]) ∨ (∃ q, (p, q) ∈ k.paths (pre ++ [a]) ∧ e = (x, q ++ [p])) ∨
          a = p ∧ e = (x, pre ++ [a]) := by
      split
      · rename_i hap
        rw [paths_append, List.mem_append, ihk hk, leaf, paths, paths, paths, List.append_nil, List.mem_singleton,
          or_assoc, and_iff_right hap]
      · rename_i hap
        rw [ihk hk]
        simp only [hap, false_and, or_false]
    rw [graft, paths, paths, List.mem_cons, List.mem_append, hkids, ihr hr, List.mem_cons, List.mem_append]
    constructor
    · rintro (h | (h | ⟨q, hq, h⟩ | ⟨rfl, h⟩) | h | ⟨q, hq, h⟩)
      · exact Or.inl (Or.inl h)
      · exact Or.inl (Or.inr (Or.inl h))
      · exact Or.inr ⟨q, List.mem_cons_of_mem _ (List.mem_append_left _ hq), h⟩
      · exact Or.inr ⟨pre, List.mem_cons_self, h⟩
      · exact Or.inl (Or.inr (Or.inr h))
      · exact Or.inr ⟨q, List.mem_cons_of_mem _ (List.mem_append_right _ hq), h⟩
    · rintro ((h | h | h) | ⟨q, hq, h⟩)
      · exact Or.inl h
      · exact Or.inr (Or.inl (Or.inl h))
      · exact Or.inr (Or.inr (Or.inl h))
      · rcases List.mem_cons.mp hq with hq | hq
        · rw [Prod.mk.injEq] at hq
          exact Or.inr (Or.inl (Or.inr (Or.inr ⟨hq.1.symm, by rw [h, hq.2, hq.1]⟩)))
        · rcases List.mem_append.mp hq with hq | hq
          · exact Or.inr (Or.inl (Or.inr (Or.inl ⟨q, hq, h⟩)))
          · exact Or.inr (Or.inr (Or.inr ⟨q, hq, h⟩))

omit [DecidableEq α] in
/-- The nodes below a node stand right behind it, and nowhere else. -/
theorem exists_block {f : Forest α} (hn : f.labels.Nodup) {a : α} {p pre : List α} (ha : a ∉ pre)
    (h : (a, p) ∈ f.paths pre) :
    ∃ A D C, f.paths pre = A ++ (a, p) :: (D ++ C) ∧ (∀ e ∈ D, a ∈ e.2) ∧ ∀ e ∈ A ++ C, a ∉ e.2 := by
  induction f generalizing pre with
  | nil => cases h
  | node b k r ihk ihr =>
    simp only [labels, List.nodup_cons, List.mem_append, not_or, List.nodup_append] at hn
    obtain ⟨⟨hbk, hbr⟩, hk, hr, hkr⟩ := hn
    -- a path leads through labels of its own forest only
    have hoff : ∀ {g : Forest α} {pre : List α}, a ∉ pre → a ∉ g.labels → ∀ e ∈ g.paths pre, a ∉ e.2 := by
      intro g pre hpre hg e he hmem
      obtain ⟨q, hq, hsub⟩ := mem_paths_prefix he
      rw [hq, List.mem_append] at hmem
      exact hmem.elim hpre fun hm => hg (hsub hm)
    rw [paths] at h ⊢
    rcases List.mem_cons.mp h with heq | h
    · rw [Prod.mk.injEq] at heq
      obtain ⟨rfl, rfl⟩ := heq
      refine ⟨[], k.paths (p ++ [a]), r.paths p, rfl, ?_, hoff ha hbr⟩
      intro e he
      obtain ⟨q, hq, -⟩ := mem_paths_prefix he
      rw [hq]
      simp
    · rcases List.mem_append.mp h with h | h
      · have hab : a ≠ b := fun hab => hbk (hab ▸ fst_mem_labels h)
        have hpre : a ∉ pre ++ [b] := by
          rw [List.mem_append, List.mem_singleton, not_or]
          exact ⟨ha, hab⟩
        obtain ⟨A, D, C, hpaths, hD, hAC⟩ := ihk hk hpre h
        refine ⟨(b, pre) :: A, D, C ++ r.paths pre, by rw [hpaths]; simp, hD, ?_⟩
        intro e he
        have har : a ∉ r.labels := fun har => hkr a (fst_mem_labels h) a har rfl
        simp only [List.cons_append, List.mem_cons, List.mem_append] at he
        rcases he with rfl | he | he | he
        · exact ha
        · exact hAC e (List.mem_append_left _ he)
        · exact hAC e (List.mem_append_right _ he)
        · exact hoff ha har e he
      · have hab : a ≠ b := fun hab => hbr (hab ▸ fst_mem_labels h)
        obtain ⟨A, D, C, hpaths, hD, hAC⟩ := ihr hr ha h
        refine ⟨(b, pre) :: (k.paths (pre ++ [b]) ++ A), D, C, by rw [hpaths]; simp, hD, ?_⟩
        intro e he
        have hak : a ∉ k.labels := fun hak => hkr a hak a (fst_mem_labels h) rfl
        have hpre : a ∉ pre ++ [b] := by
          rw [List.mem_append, List.mem_singleton, not_or]
          exact ⟨ha, hab⟩
        simp only [List.cons_append, List.mem_cons, List.mem_append] at he
        rcases he with rfl | (he | he) | he
        · exact ha
        · exact hoff hpre hak e he
        · exact hAC e (List.mem_append_left _ he)
        · exact hAC e (List.mem_append_right _ he)

omit [DecidableEq α] in
/-- A path starts at the top. -/
theorem head_mem_roots {f : Forest α} {p a : α} {q : List α} (h : (p, q) ∈ f.paths [])
    (hhead : (q ++ [p]).head? = some a) : a ∈ f.roots := by
  induction f with
  | nil => cases h
  | node b k r _ ihr =>
    rw [paths, List.nil_append, List.mem_cons, List.mem_append] at h
    rw [roots]
    rcases h with h | h | h
    · rw [Prod.mk.injEq] at h
      rw [h.1, h.2, List.nil_append, List.head?_cons, Option.some.injEq] at hhead
      rw [hhead]
      exact List.mem_cons_self
    · obtain ⟨q', hq', -⟩ := mem_paths_prefix h
      have hq' : q = [b] ++ q' := hq'
      rw [hq', List.append_assoc, List.singleton_append, List.head?_cons, Option.some.injEq] at hhead
      rw [hhead]
      exact List.mem_cons_self
    · exact List.mem_cons_of_mem _ (ihr h)

omit [DecidableEq α] in
/-- A label has one path. -/
theorem paths_unique {f : Forest α} (hn : f.labels.Nodup) {pre : List α} {e e' : α × List α} (he : e ∈ f.paths pre)
    (he' : e' ∈ f.paths pre) (h : e.1 = e'.1) : e = e' := by
  rw [← map_fst_paths pre] at hn
  exact List.inj_on_of_nodup_map hn he he' h

/-! ## The nodes below one node -/

/-- Of a forest that hangs below `pre`, the entries with this path are its top. -/
theorem filter_paths_top (f : Forest α) (pre : List α) :
    ((f.paths pre).filter (·.2 = pre)).map Prod.fst = f.roots := by
  induction f with
  | nil => rfl
  | node a k r _ ihr =>
    have hkids : (k.paths (pre ++ [a])).filter (·.2 = pre) = [] := by
      rw [List.filter_eq_nil_iff]
      intro e he
      obtain ⟨q, hq, -⟩ := mem_paths_prefix he
      simp [hq]
    rw [paths, List.filter_cons_of_pos (by simp), List.filter_append, hkids, List.nil_append, List.map_cons, ihr,
      roots]

/-- The entries that end in `p` are the children of `p`, in their order. -/
theorem filter_paths_last {f : Forest α} (hn : f.labels.Nodup) {p : α} {pre : List α} (hp : p ∉ pre) :
    ((f.paths pre).filter (·.2.getLast? = some p)).map Prod.fst = f.childrenOf p := by
  induction f generalizing pre with
  | nil => rfl
  | node a k r ihk ihr =>
    simp only [labels, List.nodup_cons, List.mem_append, not_or, List.nodup_append] at hn
    obtain ⟨⟨hak, har⟩, hk, hr, -⟩ := hn
    have hpre : pre.getLast? ≠ some p := fun h => hp (List.mem_of_getLast? h)
    have hrest := ihr hr hp
    rw [paths, List.filter_cons_of_neg (by simpa using hpre), List.filter_append, List.map_append, hrest, childrenOf]
    by_cases hap : a = p
    · subst hap
      -- below `p` only the top ends in `p`
      have htop : (k.paths (pre ++ [a])).filter (·.2.getLast? = some a) =
          (k.paths (pre ++ [a])).filter (·.2 = pre ++ [a]) := by
        apply List.filter_congr
        intro e he
        obtain ⟨q, hq, hsub⟩ := mem_paths_prefix he
        rw [decide_eq_decide, hq]
        constructor
        · intro hlast
          rcases List.eq_nil_or_concat q with rfl | ⟨q', c, rfl⟩
          · rw [List.append_nil]
          · rw [List.concat_eq_append, ← List.append_assoc, List.getLast?_concat, Option.some.injEq] at hlast
            exact absurd (hsub (by simp [hlast])) hak
        · intro heq
          rw [heq, List.getLast?_concat]
      rw [htop, filter_paths_top, if_pos rfl, childrenOf_of_notMem hak, List.nil_append]
    · have hmem : p ∉ pre ++ [a] := by
        rw [List.mem_append, List.mem_singleton, not_or]
        exact ⟨hp, Ne.symm hap⟩
      rw [ihk hk hmem, if_neg hap, List.nil_append]

end Forest
