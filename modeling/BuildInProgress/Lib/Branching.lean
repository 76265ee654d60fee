import Mathlib.Algebra.BigOperators.Group.Finset.Piecewise
import Mathlib.Algebra.Order.BigOperators.Group.Finset

/-!
# Counting in a tree

A finite tree is given by the parent of each of its elements but the root.  The elements without children, those with
more than one and those that have siblings are counted together: each of the last stands for a branch that begins at
it.
-/

namespace Branching

variable {α : Type} [DecidableEq α] (S : Finset α) (root : α) (parent : α → α)

def children (q : α) : Finset α := (S.erase root).filter fun s => parent s = q

def leaves : Finset α := S.filter fun q => (children S root parent q).card = 0

def forks : Finset α := S.filter fun q => 1 < (children S root parent q).card

/-- The elements that are not their parent's only child. -/
def siblings : Finset α := (S.erase root).filter fun s => 1 < (children S root parent (parent s)).card

variable {S root parent}

theorem card_erase_eq_sum (hparent : ∀ s ∈ S.erase root, parent s ∈ S) :
    (S.erase root).card = ∑ q ∈ S, (children S root parent q).card :=
  Finset.card_eq_sum_card_fiberwise hparent

theorem card_siblings_eq_sum (hparent : ∀ s ∈ S.erase root, parent s ∈ S) :
    (siblings S root parent).card =
      ∑ q ∈ S, if 1 < (children S root parent q).card then (children S root parent q).card else 0 := by
  have hmaps : ∀ s ∈ siblings S root parent, parent s ∈ S := fun s hs => hparent s (Finset.mem_filter.mp hs).1
  rw [Finset.card_eq_sum_card_fiberwise hmaps]
  apply Finset.sum_congr rfl
  intro q _
  have hfiber : (siblings S root parent).filter (fun s => parent s = q) =
      (children S root parent q).filter fun _ => 1 < (children S root parent q).card := by
    rw [siblings, children, Finset.filter_filter, Finset.filter_filter]
    apply Finset.filter_congr
    intro s _
    constructor
    · rintro ⟨hmany, rfl⟩
      exact ⟨rfl, hmany⟩
    · rintro ⟨rfl, hmany⟩
      exact ⟨hmany, rfl⟩
  rw [hfiber]
  split
  · rename_i hmany
    rw [Finset.filter_true_of_mem fun _ _ => hmany]
  · rename_i hfew
    rw [Finset.filter_false_of_mem fun _ _ => hfew, Finset.card_empty]

/-- The leaves and the forks are together one more than the elements with siblings. -/
theorem card_leaves_add_card_forks (hroot : root ∈ S) (hparent : ∀ s ∈ S.erase root, parent s ∈ S) :
    (leaves S root parent).card + (forks S root parent).card = (siblings S root parent).card + 1 := by
  have hall := card_erase_eq_sum hparent
  have hsiblings := card_siblings_eq_sum hparent
  have herase := Finset.card_erase_add_one hroot
  have hsize : S.card = ∑ _q ∈ S, 1 := Finset.card_eq_sum_ones S
  -- an element counts once among the leaves, the only children's parents or the forks
  have hpoint : (∑ q ∈ S, (children S root parent q).card) +
      (∑ q ∈ S, if (children S root parent q).card = 0 then 1 else 0) +
      (∑ q ∈ S, if 1 < (children S root parent q).card then 1 else 0) =
      (∑ _q ∈ S, 1) +
        ∑ q ∈ S, if 1 < (children S root parent q).card then (children S root parent q).card else 0 := by
    rw [← Finset.sum_add_distrib, ← Finset.sum_add_distrib, ← Finset.sum_add_distrib]
    apply Finset.sum_congr rfl
    intro q _
    split_ifs <;> omega
  rw [leaves, forks, Finset.card_filter, Finset.card_filter]
  omega

end Branching
