import BuildInProgress.Ability

/-!
# Asking an ability more than once

The rule for reading a project has a block that itself adds a rule, `can :read, :all`, to the ability it belongs
to.  An ability is therefore a list of rules that grows, and CanCan consults the rule that was added last first.
-/

/-- The rules about reading that concern a project. -/
inductive ReadRule where
  /-- `can :read, Project do |project| .. end` -/
  | project
  /-- `can :read, :all` -/
  | all
  deriving DecidableEq, Repr

/-- What a check is about: a project, and the database at that time. -/
abbrev Check := Database × Project

namespace Ability

/-- The rules of a new ability. -/
def newAbility : List ReadRule := [.project]

/-- The condition inside the block. -/
def readable (viewer : Option User) (c : Check) : Bool := readProject c.1 viewer c.2

/-- The rules are asked one after the other until one matches; the block that matches has added a rule. -/
def detect (viewer : Option User) (c : Check) (rules : List ReadRule) : List ReadRule → Bool × List ReadRule
  | [] => (false, rules)
  | .all :: _ => (true, rules)
  | .project :: rest => if readable viewer c then (true, rules ++ [.all]) else detect viewer c rules rest

/-- `can?(:read, project)`, with the rules that the ability has afterwards. -/
def canRead (viewer : Option User) (rules : List ReadRule) (c : Check) : Bool × List ReadRule :=
  detect viewer c rules rules.reverse

/-- The answers to a sequence of checks against one ability. -/
def answers (viewer : Option User) : List ReadRule → List Check → List Bool
  | _, [] => []
  | rules, c :: cs => (canRead viewer rules c).1 :: answers viewer (canRead viewer rules c).2 cs

variable {viewer : Option User}

/-- A new ability answers as the block says, and a positive answer adds the rule. -/
theorem canRead_new (c : Check) : canRead viewer newAbility c =
    if readable viewer c then (true, [.project, .all]) else (false, newAbility) := by
  show (if readable viewer c then (true, newAbility ++ [.all]) else detect viewer c newAbility []) = _
  rfl

/-- With the added rule on top every check is positive, and nothing is added. -/
theorem canRead_all (rules : List ReadRule) (c : Check) :
    canRead viewer (rules ++ [.all]) c = (true, rules ++ [.all]) := by
  rw [canRead, List.reverse_append, List.reverse_singleton, List.singleton_append, detect]

theorem answers_all (rules : List ReadRule) (cs : List Check) :
    answers viewer (rules ++ [.all]) cs = cs.map fun _ => true := by
  induction cs with
  | nil => rfl
  | cons c cs ih => rw [answers, canRead_all, ih, List.map_cons]

/-- The answers are those of the rule exactly if no check of a project that must not be read comes after a check
of one that may. -/
theorem answers_iff (viewer : Option User) (cs : List Check) :
    answers viewer newAbility cs = cs.map (readable viewer) ↔
      cs.Pairwise fun c c' => readable viewer c = true → readable viewer c' = true := by
  induction cs with
  | nil => exact iff_of_true rfl List.Pairwise.nil
  | cons c cs ih =>
    rw [answers, canRead_new, List.map_cons, List.pairwise_cons]
    by_cases hc : readable viewer c = true
    · -- from here on the answers are all positive
      rw [if_pos hc]
      show true :: answers viewer ([.project] ++ [.all]) cs = readable viewer c :: cs.map (readable viewer) ↔ _
      rw [answers_all, hc, List.cons.injEq, and_iff_right rfl, List.map_inj_left]
      constructor
      · intro h
        refine ⟨fun c' hc' _ => (h c' hc').symm, ?_⟩
        exact List.Pairwise.imp_of_mem (R := fun _ _ => True) (fun _ hb _ _ => (h _ hb).symm)
          (List.pairwise_of_forall fun _ _ => trivial)
      · intro h c' hc'
        exact (h.1 c' hc' rfl).symm
    · rw [if_neg hc]
      show false :: answers viewer newAbility cs = readable viewer c :: cs.map (readable viewer) ↔ _
      rw [Bool.eq_false_of_not_eq_true hc, List.cons.injEq, and_iff_right rfl, ih]
      exact (and_iff_right fun _ _ h => absurd h Bool.false_ne_true).symm

/-- A visitor who has been shown a public project may then read a private one. -/
theorem read_after_read :
    let lamp : Project := ⟨1, "Lamp".toList, none, some "public".toList, none, none, none, none, none, 0, 0⟩
    let saw : Project := ⟨2, "Saw".toList, none, some "private".toList, none, none, none, none, none, 0, 0⟩
    readable none (Database.empty, saw) = false ∧
      answers none newAbility [(Database.empty, saw)] = [false] ∧
      answers none newAbility [(Database.empty, lamp), (Database.empty, saw)] = [true, true] := by
  decide

end Ability
