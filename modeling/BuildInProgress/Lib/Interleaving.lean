import BuildInProgress.Lib.Run
import Mathlib.Data.List.Basic

/-!
# Requests that interleave

Several requests are under way over one shared state.  A request that has been received is at some point
of its code; at each turn it accesses the shared state once and either goes on from another point or is
done.  Which request has the next turn is open.
-/

namespace Interleaving

variable {σ π ρ τ : Type}

structure System (σ π : Type) where
  shared : σ
  pending : List π

inductive Event (ρ τ : Type) where
  /-- A request is received. -/
  | arrive (r : ρ)
  /-- The `k`-th request under way has its turn. -/
  | turn (k : Nat) (t : τ)

/-- The requests under way after a turn of the `k`-th one. -/
def resume (k : Nat) (ps : List π) : Option π → List π
  | none => ps.eraseIdx k
  | some p => ps.set k p

section Step

variable (start : ρ → π) (access : τ → π → σ → σ × Option π)

def step (s : System σ π) : Event ρ τ → System σ π
  | .arrive r => { s with pending := s.pending ++ [start r] }
  | .turn k t =>
    match s.pending[k]? with
    | none => s
    | some p => ⟨(access t p s.shared).1, resume k s.pending (access t p s.shared).2⟩

/-- A request that runs without interruption. -/
inductive Alone (t : τ) : π → σ → σ → Prop where
  | last {p : π} {x y : σ} : access t p x = (y, none) → Alone t p x y
  | more {p q : π} {x y z : σ} : access t p x = (y, some q) → Alone t q y z → Alone t p x z

end Step

/-- What is asked of each access, in the state in which it is made. -/
def Admits (P : τ → π → σ → Prop) (s : System σ π) : Event ρ τ → Prop
  | .arrive _ => True
  | .turn k t => ∀ p, s.pending[k]? = some p → P t p s.shared

instance decidableAdmits {P : τ → π → σ → Prop} [∀ t p x, Decidable (P t p x)] (s : System σ π) :
    ∀ e : Event ρ τ, Decidable (Admits P s e)
  | .arrive _ => .isTrue trivial
  | .turn k t =>
    match hk : s.pending[k]? with
    | none => .isTrue fun p hp => by rw [hk] at hp; cases hp
    | some p =>
      decidable_of_iff (P t p s.shared)
        ⟨fun h q hq => by rw [hk] at hq; cases hq; exact h, fun h => h p hk⟩

variable {start : ρ → π} {access : τ → π → σ → σ × Option π}

/-! ## What requests know of the shared state -/

/-- The shared state satisfies `S`, and every request under way what its point says of that state. -/
structure Sound (S : σ → Prop) (K : π → σ → Prop) (s : System σ π) : Prop where
  shared : S s.shared
  points : ∀ p ∈ s.pending, K p s.shared

/-- The rule for such knowledge: it holds where a request starts and where it goes on, and what one request
does leaves the knowledge of the others right. -/
structure Keeps (start : ρ → π) (access : τ → π → σ → σ × Option π) (S : σ → Prop) (K : π → σ → Prop) : Prop where
  start : ∀ r x, S x → K (start r) x
  shared : ∀ t p x, S x → K p x → S (access t p x).1
  point : ∀ t p x, S x → K p x → ∀ q, (access t p x).2 = some q → K q (access t p x).1
  others : ∀ t p x, S x → K p x → ∀ q, K q x → K q (access t p x).1

theorem mem_resume {k : Nat} {ps : List π} {o : Option π} {q : π} (hq : q ∈ resume k ps o) :
    q ∈ ps ∨ o = some q := by
  cases o with
  | none => exact Or.inl (List.mem_of_mem_eraseIdx hq)
  | some p =>
    rcases List.mem_or_eq_of_mem_set hq with hold | hnew
    · exact Or.inl hold
    · exact Or.inr (congrArg some hnew.symm)

theorem step_turn {s : System σ π} {k : Nat} {p : π} (hk : s.pending[k]? = some p) (t : τ) :
    step start access s (.turn k t : Event ρ τ) =
      ⟨(access t p s.shared).1, resume k s.pending (access t p s.shared).2⟩ := by
  rw [step]
  simp only [hk]

/-- The other requests stay where they are. -/
theorem mem_resume_of_ne {k : Nat} {ps : List π} {o : Option π} {p q : π} (hk : ps[k]? = some p) (hq : q ∈ ps)
    (hne : q ≠ p) : q ∈ resume k ps o := by
  obtain ⟨i, hi⟩ := List.mem_iff_getElem?.mp hq
  have hik : i ≠ k := by
    rintro rfl
    exact hne (Option.some.inj (hi.symm.trans hk))
  cases o with
  | none => exact List.mem_eraseIdx_iff_getElem?.mpr ⟨i, hik, hi⟩
  | some p' =>
    refine List.mem_iff_getElem?.mpr ⟨i, ?_⟩
    rw [resume, List.getElem?_set_ne (Ne.symm hik)]
    exact hi

theorem mem_resume_some {k : Nat} {ps : List π} {p q : π} (hk : ps[k]? = some p) : q ∈ resume k ps (some q) := by
  obtain ⟨hlt, -⟩ := List.getElem?_eq_some_iff.mp hk
  exact List.mem_set hlt q

theorem Keeps.step {S : σ → Prop} {K : π → σ → Prop} (h : Keeps start access S K) {s : System σ π}
    (hs : Sound S K s) (e : Event ρ τ) : Sound S K (step start access s e) := by
  cases e with
  | arrive r =>
    refine ⟨hs.shared, fun p hp => ?_⟩
    rcases List.mem_append.mp hp with hold | hnew
    · exact hs.points p hold
    · rw [List.mem_singleton.mp hnew]
      exact h.start r s.shared hs.shared
  | turn k t =>
    rw [Interleaving.step]
    cases hk : s.pending[k]? with
    | none => exact hs
    | some p =>
      have hp := hs.points p (List.mem_of_getElem? hk)
      refine ⟨h.shared t p s.shared hs.shared hp, fun q hq => ?_⟩
      rcases mem_resume hq with hold | hnew
      · exact h.others t p s.shared hs.shared hp q (hs.points q hold)
      · exact h.point t p s.shared hs.shared hp q hnew

/-- When an access keeps `I` exactly if `P` holds of it, the shared state has `I` at every moment exactly if
`P` holds of every access. -/
theorem Keeps.forall_take_iff {S : σ → Prop} {K : π → σ → Prop} (h : Keeps start access S K) {I : σ → Prop}
    {P : τ → π → σ → Prop} (haccess : ∀ t p x, S x → K p x → I x → (P t p x ↔ I (access t p x).1))
    {s : System σ π} (hs : Sound S K s) (hI : I s.shared) (es : List (Event ρ τ)) :
    (∀ n, I (Run.after (Interleaving.step start access) s (es.take n)).shared) ↔
      Run.Along (Interleaving.step start access) (fun s (e : Event ρ τ) => Admits P s e) s es := by
  refine Run.along_iff_forall_take (A := fun _ _ => True) (I := fun s : System σ π => I s.shared)
    (J := Sound S K) (fun _ e hs _ => h.step hs e) ?_ hs hI (Run.Along.of_forall fun _ _ => trivial)
  intro s e hs hI _
  cases e with
  | arrive r => exact iff_of_true trivial hI
  | turn k t =>
    rw [Admits, Interleaving.step]
    cases hk : s.pending[k]? with
    | none => exact iff_of_true (fun _ hp => by cases hp) hI
    | some p =>
      rw [← haccess t p s.shared hs.shared (hs.points p (List.mem_of_getElem? hk)) hI]
      exact ⟨fun hall => hall p rfl, fun hp q hq => Option.some.inj hq ▸ hp⟩

end Interleaving
