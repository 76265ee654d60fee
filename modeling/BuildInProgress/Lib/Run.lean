import Mathlib.Logic.Basic

/-!
# Runs of a request-driven system

A system that handles one request after the other is a step function; a run is its fold.  What is
known of the requests may depend on the state in which each one arrives, so the assumption on a
run is itself a recursion over it.
-/

namespace Run

variable {σ ρ : Type} (step : σ → ρ → σ)

/-- The state after handling the requests in order. -/
def after : σ → List ρ → σ
  | s, [] => s
  | s, r :: rs => after (step s r) rs

/-- What the requests answer, one after the other. -/
def output {β : Type} (answer : σ → ρ → List β) : σ → List ρ → List β
  | _, [] => []
  | s, r :: rs => answer s r ++ output answer (step s r) rs

/-- `P` holds of every request in the state in which it arrives. -/
def Along (P : σ → ρ → Prop) : σ → List ρ → Prop
  | _, [] => True
  | s, r :: rs => P s r ∧ Along P (step s r) rs

variable {step}

instance decidableAlong {P : σ → ρ → Prop} [∀ s r, Decidable (P s r)] :
    ∀ (s : σ) (rs : List ρ), Decidable (Along step P s rs)
  | _, [] => .isTrue trivial
  | s, r :: rs => @instDecidableAnd _ _ _ (decidableAlong (step s r) rs)

theorem after_append (s : σ) (rs rs' : List ρ) : after step s (rs ++ rs') = after step (after step s rs) rs' := by
  induction rs generalizing s with
  | nil => rfl
  | cons r rs ih => exact ih (step s r)

theorem Along.of_forall {A : ρ → Prop} {s : σ} {rs : List ρ} (h : ∀ r ∈ rs, A r) :
    Along step (fun _ r => A r) s rs := by
  induction rs generalizing s with
  | nil => trivial
  | cons r rs ih => exact ⟨h r List.mem_cons_self, ih fun r' hr' => h r' (List.mem_cons_of_mem _ hr')⟩

theorem Along.and {P Q : σ → ρ → Prop} {s : σ} {rs : List ρ} (hP : Along step P s rs)
    (hQ : Along step Q s rs) : Along step (fun s r => P s r ∧ Q s r) s rs := by
  induction rs generalizing s with
  | nil => trivial
  | cons r rs ih => exact ⟨⟨hP.1, hQ.1⟩, ih hP.2 hQ.2⟩

theorem Along.imp {P Q : σ → ρ → Prop} (h : ∀ s r, P s r → Q s r) {s : σ} {rs : List ρ}
    (hP : Along step P s rs) : Along step Q s rs := by
  induction rs generalizing s with
  | nil => trivial
  | cons r rs ih => exact ⟨h s r hP.1, ih hP.2⟩

theorem Along.take {P : σ → ρ → Prop} {s : σ} {rs : List ρ} (h : Along step P s rs) (n : Nat) :
    Along step P s (rs.take n) := by
  induction rs generalizing s n with
  | nil =>
    rw [List.take_nil]
    trivial
  | cons r rs ih =>
    cases n with
    | zero => trivial
    | succ n => exact ⟨h.1, ih h.2 n⟩

/-- An invariant that every admitted request keeps holds at the end of every admitted run. -/
theorem invariant {P : σ → ρ → Prop} {I : σ → Prop}
    (hstep : ∀ s r, I s → P s r → I (step s r)) {s : σ} {rs : List ρ}
    (h0 : I s) (hP : Along step P s rs) : I (after step s rs) := by
  induction rs generalizing s with
  | nil => exact h0
  | cons r rs ih => exact ih (hstep s r h0 hP.1) hP.2

/-- When the first request without `P` does a harm that no later request undoes, the harm is absent at
the end exactly of the runs along which `P` holds. -/
theorem along_iff_not_harmed {A P : σ → ρ → Prop} {I H : σ → Prop}
    (hgood : ∀ s r, I s → A s r → P s r → I (step s r)) (hbad : ∀ s r, I s → A s r → ¬ P s r → H (step s r))
    (hstays : ∀ s r, H s → A s r → H (step s r)) (hsound : ∀ s, I s → ¬ H s) {s : σ} {rs : List ρ}
    (h0 : I s) (hA : Along step A s rs) : Along step P s rs ↔ ¬ H (after step s rs) := by
  induction rs generalizing s with
  | nil => exact iff_of_true trivial (hsound s h0)
  | cons r rs ih =>
    by_cases hP : P s r
    · exact (and_iff_right hP).trans (ih (hgood s r h0 hA.1 hP) hA.2)
    · refine iff_of_false (fun h => hP h.1) fun hno => hno ?_
      show H (after step (step s r) rs)
      exact invariant hstays (hbad s r h0 hA.1 hP) hA.2

/-- When a request keeps `I` exactly if `P` holds of it, every state of a run has `I` exactly if `P` holds
along the run.  The invariant `J` is kept by all requests. -/
theorem along_iff_forall_take {A P : σ → ρ → Prop} {I J : σ → Prop}
    (hkeep : ∀ s r, J s → A s r → J (step s r)) (hstep : ∀ s r, J s → I s → A s r → (P s r ↔ I (step s r)))
    {s : σ} {rs : List ρ} (hJ : J s) (hI : I s) (hA : Along step A s rs) :
    (∀ n, I (after step s (rs.take n))) ↔ Along step P s rs := by
  induction rs generalizing s with
  | nil =>
    refine iff_of_true (fun n => ?_) trivial
    rw [List.take_nil]
    exact hI
  | cons r rs ih =>
    constructor
    · intro h
      have hnext : I (step s r) := h 1
      exact ⟨(hstep s r hJ hI hA.1).mpr hnext, (ih (hkeep s r hJ hA.1) hnext hA.2).mp fun n => h (n + 1)⟩
    · intro h n
      have hnext : I (step s r) := (hstep s r hJ hI hA.1).mp h.1
      cases n with
      | zero => exact hI
      | succ n => exact (ih (hkeep s r hJ hA.1) hnext hA.2).mpr h.2 n

/-- A harm `H` that only a reset `E` ends, after which all requests keep `I`: at the end `I` holds exactly of the
runs that have come through a reset. -/
theorem restored_iff {A : σ → ρ → Prop} {I H E : σ → Prop} (hkeep : ∀ s r, I s → A s r → I (step s r))
    (hstays : ∀ s r, H s → ¬ E s → A s r → H (step s r)) (hreset : ∀ s, E s → I s)
    (hsound : ∀ s, H s → I s → E s) {s : σ} {rs : List ρ} (h0 : H s) (hA : Along step A s rs) :
    I (after step s rs) ↔ ∃ n, E (after step s (rs.take n)) := by
  induction rs generalizing s with
  | nil =>
    simp only [List.take_nil]
    exact ⟨fun h => ⟨0, hsound s h0 h⟩, fun ⟨_, h⟩ => hreset s h⟩
  | cons r rs ih =>
    by_cases hE : E s
    · exact iff_of_true (invariant hkeep (hreset s hE) hA) ⟨0, hE⟩
    · refine (ih (hstays s r h0 hE hA.1) hA.2).trans ⟨fun ⟨n, h⟩ => ⟨n + 1, h⟩, fun ⟨n, h⟩ => ?_⟩
      cases n with
      | zero => exact absurd h hE
      | succ n => exact ⟨n, h⟩

/-! ## Loops that an exception ends -/

/-- Handle the requests in order until one of them fails.  The flag says whether all were handled; what a failing
request has written stays. -/
def each (f : σ → ρ → Bool × σ) : σ → List ρ → Bool × σ
  | s, [] => (true, s)
  | s, r :: rs => if (f s r).1 then each f (f s r).2 rs else f s r

/-- The loop comes to its end exactly when no request fails in the state in which it arrives. -/
theorem each_done_iff {f : σ → ρ → Bool × σ} {P : σ → ρ → Prop} (hP : ∀ s r, (f s r).1 = true ↔ P s r) {s : σ}
    {rs : List ρ} : (each f s rs).1 = true ↔ Along (fun s r => (f s r).2) P s rs := by
  induction rs generalizing s with
  | nil => exact iff_of_true rfl trivial
  | cons r rs ih =>
    rw [each]
    by_cases hdone : (f s r).1 = true
    · rw [if_pos hdone, ih]
      exact (and_iff_right ((hP s r).mp hdone)).symm
    · rw [if_neg hdone]
      exact iff_of_false hdone fun h => hdone ((hP s r).mpr h.1)

end Run
