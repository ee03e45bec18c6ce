import Consultation.Inference.Propagation

namespace Consultation

/-- A condition as it is shown, with the value noted when its rule was last
    evaluated. -/
structure ConditionRow where
  text : Fact
  value : Option Truth
  isDerived : Bool
  deriving DecidableEq, Repr

/-- A rule as it is shown. Its position counts from zero. -/
structure RuleRow where
  position : Nat
  conclusion : Fact
  category : String
  combinator : Combinator
  isGoal : Bool
  conditions : List ConditionRow
  status : RuleStatus
  deriving DecidableEq, Repr

/-- A goal that holds. -/
structure Applicable where
  action : Fact
  category : String
  deriving DecidableEq, Repr

/-- A goal that may yet hold, with those of its conditions that are `unknown`. -/
structure Conditional where
  action : Fact
  category : String
  unknownConditions : List Fact
  deriving DecidableEq, Repr

/-- The result of a consultation: the goals that hold, those that may yet hold,
    the facts answered `unknown` in answer order, and the journal. -/
structure Summary where
  applicable : List Applicable
  conditional : List Conditional
  unknownAnswers : List Fact
  journal : List String
  deriving DecidableEq, Repr

namespace Summary

def isApplicable (summary : Summary) (action : Fact) : Bool :=
  summary.applicable.any (·.action = action)

/-- The unknown conditions of the first conditional goal with this action. -/
def conditionalOn? (summary : Summary) (action : Fact) : Option (List Fact) :=
  (summary.conditional.find? (·.action = action)).map (·.unknownConditions)

end Summary

namespace KnowledgeBase

variable (kb : KnowledgeBase)

def ruleRow (table : RuleTable kb.size) (id : kb.Id) : RuleRow :=
  let rule := kb.rule id
  let state := table.get id
  { position := id
    conclusion := rule.action
    category := rule.category
    combinator := rule.combinator
    isGoal := rule.goal
    conditions := rule.conditions.map fun condition =>
      { text := condition
        value := state.checkedValue condition
        isDerived := kb.isDerived condition }
    status := state.status }

/-- All rules as they are shown, in display order. -/
def ruleRows (table : RuleTable kb.size) : List RuleRow := kb.displayOrder.map (kb.ruleRow table)

/-- The conditions of a rule whose present value is `unknown`. -/
def unknownConditions (memory : Memory) (id : kb.Id) : List Fact :=
  (kb.rule id).conditions.filter fun condition => kb.effectiveValue memory condition = some .unknown

/-- A fired goal holds. -/
def applicable? (table : RuleTable kb.size) (id : kb.Id) : Option Applicable :=
  if table.status id = .fired then some ⟨(kb.rule id).action, (kb.rule id).category⟩ else none

/-- A goal neither fired nor blocked may yet hold when one of its conditions is
    `unknown`. -/
def conditional? (memory : Memory) (table : RuleTable kb.size) (id : kb.Id) : Option Conditional :=
  let unknown := kb.unknownConditions memory id
  if (table.status id).isTerminal || unknown.isEmpty then none
  else some ⟨(kb.rule id).action, (kb.rule id).category, unknown⟩

/-- Sums up the goals in declaration order. -/
def summarize (board : Board kb.size) : Summary :=
  { applicable := kb.goals.filterMap (kb.applicable? board.table)
    conditional := kb.goals.filterMap (kb.conditional? board.memory board.table)
    unknownAnswers := board.memory.unknownAnswers
    journal := board.log.lines }

end KnowledgeBase

end Consultation
