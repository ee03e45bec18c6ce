import Consultation.Text.Blank
import Consultation.Truth

namespace Consultation

/-- How a rule joins its conditions: under `all` every condition must hold,
    under `any` one is enough. -/
inductive Combinator where
  | all
  | any
  deriving DecidableEq, Repr, Inhabited

/-- The word that stands between two conditions. -/
def Combinator.text : Combinator → String
  | all => "AND"
  | any => "OR"

/-- A rule concludes its action when its conditions, joined by its combinator,
    hold. Conditions are asked in the order in which they stand. A goal is a
    rule whose action is an outcome of the consultation, and the category
    groups rules for display. -/
structure Rule where
  conditions : List Fact
  action : Fact
  combinator : Combinator := .all
  goal : Bool := false
  category : String := ""
  deriving DecidableEq, Repr, Inhabited

namespace Rule

/-- The rule that needs all its conditions. -/
def needsAll (conditions : List Fact) (action : Fact) : Rule := { conditions, action }

/-- The rule that needs any one of its conditions. -/
def needsAny (conditions : List Fact) (action : Fact) : Rule :=
  { conditions, action, combinator := .any }

/-- Marks a rule as a goal. -/
def asGoal (rule : Rule) : Rule := { rule with goal := true }

/-- Files a rule under a category. -/
def inCategory (rule : Rule) (category : String) : Rule := { rule with category }

def isAny (rule : Rule) : Bool := rule.combinator == .any

/-- The rule in words. -/
def text (rule : Rule) : String :=
  "IF " ++ String.intercalate (" " ++ rule.combinator.text ++ " ") rule.conditions ++
    " THEN " ++ rule.action ++ (if rule.goal then " [goal]" else "")

/-- A rule is well formed when it can be evaluated: it concludes a fact that is
    not blank, from at least one condition, and no condition is blank or the
    fact that it concludes. -/
structure WellFormed (rule : Rule) : Prop where
  action_not_blank : ¬ Text.IsBlankText rule.action
  conditions_ne_nil : rule.conditions ≠ []
  condition_not_blank : ∀ condition ∈ rule.conditions, ¬ Text.IsBlankText condition
  condition_ne_action : ∀ condition ∈ rule.conditions, condition ≠ rule.action

theorem wellFormed_iff {rule : Rule} :
    rule.WellFormed ↔ ¬ Text.IsBlankText rule.action ∧ rule.conditions ≠ [] ∧
      ∀ condition ∈ rule.conditions, ¬ Text.IsBlankText condition ∧ condition ≠ rule.action := by
  constructor
  · intro h
    exact ⟨h.action_not_blank, h.conditions_ne_nil,
      fun condition hmem => ⟨h.condition_not_blank condition hmem, h.condition_ne_action condition hmem⟩⟩
  · rintro ⟨haction, hnonempty, hconditions⟩
    exact ⟨haction, hnonempty, fun condition hmem => (hconditions condition hmem).1,
      fun condition hmem => (hconditions condition hmem).2⟩

end Rule

end Consultation
