import Consultation.Inference.Evaluation

namespace Consultation

namespace KnowledgeBase

variable (kb : KnowledgeBase)

/-- Goes through the conditions of a rule for the first fact to ask. A
    condition without a value is asked itself. One that was answered `unknown`
    is pursued through the rules that conclude it. The rest does not matter
    once a value decides the rule. -/
def scanConditions (memory : Memory) (combinator : Combinator) (pursue : kb.Id → Option Fact) :
    List Fact → Option Fact
  | [] => none
  | condition :: rest =>
    match kb.effectiveValue memory condition with
    | none => some condition
    | some .unknown =>
      (kb.concluding condition).findSome? pursue <|>
        scanConditions memory combinator pursue rest
    | some .fails =>
      if combinator = .all then none else scanConditions memory combinator pursue rest
    | some .holds =>
      if combinator = .any then none else scanConditions memory combinator pursue rest

/-- Searches below a rule for a fact to ask. The path holds the rules above it,
    none of which is entered again, and `levels` bounds how many more rules a
    path may take in. -/
def searchBelow (memory : Memory) (table : RuleTable kb.size) :
    (levels : Nat) → (path : List kb.Id) → kb.Id → Option Fact
  | 0, _, _ => none
  | levels + 1, path, id =>
    if (table.status id).isTerminal || path.contains id then none
    else
      kb.scanConditions memory (kb.rule id).combinator
        (searchBelow memory table levels (id :: path)) (kb.rule id).conditions

/-- The fact to ask next for the sake of one rule. A path reaches at most
    `maxDepth` rules below it. -/
def questionForRule (memory : Memory) (table : RuleTable kb.size) (maxDepth : Nat)
    (id : kb.Id) : Option Fact :=
  kb.searchBelow memory table (maxDepth + 1) [] id

/-- The fact to ask next: the first that any goal, in declaration order, needs. -/
def nextQuestion (memory : Memory) (table : RuleTable kb.size) (maxDepth : Nat) : Option Fact :=
  kb.goals.findSome? (kb.questionForRule memory table maxDepth)

end KnowledgeBase

end Consultation
