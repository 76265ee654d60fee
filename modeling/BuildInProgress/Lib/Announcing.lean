import Mathlib.Logic.Basic

/-!
# Announcing oneself before looking around

Whoever enters first says so and then looks who else is inside.  Between the two anybody else may move.  Nobody waits,
but of two who are inside one has seen the other, as soon as both have looked.
-/

namespace Announcing

variable {α : Type} {inside inside' looking looking' : α → Prop} {seen seen' : α → α → Prop} {a : α}

/-- Of two who are inside one has still to look, or has seen the other. -/
def Aware (inside looking : α → Prop) (seen : α → α → Prop) : Prop :=
  ∀ a b, a ≠ b → inside a → inside b → looking a ∨ looking b ∨ seen a b ∨ seen b a

theorem Aware.mono (h : Aware inside looking seen) (hinside : ∀ b, inside' b → inside b)
    (hlooking : ∀ b, looking b → looking' b) (hseen : ∀ b c, seen b c → seen' b c) : Aware inside' looking' seen' := by
  intro b c hne hb hc
  rcases h b c hne (hinside b hb) (hinside c hc) with hl | hl | hs | hs
  · exact Or.inl (hlooking b hl)
  · exact Or.inr (Or.inl (hlooking c hl))
  · exact Or.inr (Or.inr (Or.inl (hseen b c hs)))
  · exact Or.inr (Or.inr (Or.inr (hseen c b hs)))

/-- `a` enters and then has to look, or leaves.  Either way it may forget what it has seen. -/
theorem Aware.move (h : Aware inside looking seen) (hothers : ∀ b, b ≠ a → inside' b → inside b)
    (hown : inside' a → looking' a) (hlooking : ∀ b, looking b → looking' b)
    (hseen : ∀ b c, b ≠ a → seen b c → seen' b c) : Aware inside' looking' seen' := by
  intro b c hne hb hc
  by_cases hba : b = a
  · rw [hba] at hb ⊢
    exact Or.inl (hown hb)
  by_cases hca : c = a
  · rw [hca] at hc ⊢
    exact Or.inr (Or.inl (hown hc))
  rcases h b c hne (hothers b hba hb) (hothers c hca hc) with hl | hl | hs | hs
  · exact Or.inl (hlooking b hl)
  · exact Or.inr (Or.inl (hlooking c hl))
  · exact Or.inr (Or.inr (Or.inl (hseen b c hba hs)))
  · exact Or.inr (Or.inr (Or.inr (hseen c b hca hs)))

/-- When `a` looks while it is inside, it sees all the others who are. -/
theorem Aware.look (h : Aware inside looking seen) (hlooking : ∀ b, b ≠ a → looking b → looking' b)
    (hsee : inside a → ∀ b, b ≠ a → inside b → seen' a b) (hseen : ∀ b c, seen b c → seen' b c) :
    Aware inside looking' seen' := by
  intro b c hne hb hc
  by_cases hba : b = a
  · rw [hba] at hb hne ⊢
    exact Or.inr (Or.inr (Or.inl (hsee hb c (Ne.symm hne) hc)))
  by_cases hca : c = a
  · rw [hca] at hc ⊢
    exact Or.inr (Or.inr (Or.inr (hsee hc b hba hb)))
  rcases h b c hne hb hc with hl | hl | hs | hs
  · exact Or.inl (hlooking b hba hl)
  · exact Or.inr (Or.inl (hlooking c hca hl))
  · exact Or.inr (Or.inr (Or.inl (hseen b c hs)))
  · exact Or.inr (Or.inr (Or.inr (hseen c b hs)))

/-- Once everybody has looked, of two who are inside one has seen the other. -/
theorem Aware.sees (h : Aware inside looking seen) (hlooking : ∀ b, ¬ looking b) {b : α} (hne : a ≠ b) (ha : inside a)
    (hb : inside b) : seen a b ∨ seen b a := by
  rcases h a b hne ha hb with hl | hl | hs
  · exact absurd hl (hlooking a)
  · exact absurd hl (hlooking b)
  · exact hs

end Announcing
