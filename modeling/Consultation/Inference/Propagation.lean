import Consultation.Inference.Evaluation
import Consultation.Log

namespace Consultation

/-- What inference works on: the memory, the states of the rules, and the
    journal of what was inferred. -/
@[ext]
structure Board (size : Nat) where
  memory : Memory
  table : RuleTable size
  log : Log

/-- How a propagation went: the rounds it took, whether any of them inferred
    something, and whether the last one inferred nothing. -/
structure Propagation where
  iterations : Nat
  changed : Bool
  reachedFixpoint : Bool
  deriving DecidableEq, Repr

def Board.fresh (size : Nat) : Board size := ⟨.empty, .fresh size, []⟩

namespace KnowledgeBase

variable (kb : KnowledgeBase)

/-- Records a derived value with the event that tells of it, and notes the
    value in the rules that have the fact as a condition. -/
def infer (board : Board kb.size) (fact : Fact) (value : Truth) (event : Event) : Board kb.size :=
  { memory := board.memory.putHypothesis fact value
    table := kb.noteCondition board.table fact value
    log := board.log ++ [event] }

/-- Derives the action of a fired rule, unless it already counts as true. -/
def deriveAction (board : Board kb.size) (id : kb.Id) : Board kb.size × Bool :=
  let action := (kb.rule id).action
  if board.memory.rawValue action ≠ some .holds ∧ board.memory.hypothesis action ≠ some .holds then
    (kb.infer board action .holds (.derived action action), true)
  else (board, false)

/-- Takes the firing of a rule as proof of those conditions that were answered
    `unknown` and are not derived yet. -/
def promotePremises (action : Fact) : List Fact → Board kb.size → Board kb.size × Bool
  | [], board => (board, false)
  | condition :: rest, board =>
    if board.memory.finding condition = some .unknown ∧
        board.memory.hypothesis condition ≠ some .holds then
      let promoted := kb.infer board condition .holds (.premisePromoted condition action)
      ((promotePremises action rest promoted).1, true)
    else promotePremises action rest board

/-- What a fired rule infers. Only a rule that needs all its conditions proves
    them by firing. -/
def assertFired (board : Board kb.size) (id : kb.Id) : Board kb.size × Bool :=
  let rule := kb.rule id
  let (derived, changed) := kb.deriveAction board id
  match rule.combinator with
  | .any => (derived, changed)
  | .all =>
    let (promoted, promotes) := kb.promotePremises rule.action rule.conditions derived
    (promoted, changed || promotes)

/-- What a rule infers that was resolved without firing. A rule that needs all
    its conditions refutes its action, once every rule with the same action is
    resolved without firing. -/
def refuteFailed (board : Board kb.size) (id : kb.Id) : Board kb.size × Bool :=
  let rule := kb.rule id
  let refutes :=
    rule.combinator = .all ∧
    (∀ other ∈ kb.concluding rule.action, (board.table.status other).isNegative = true) ∧
    board.memory.rawValue rule.action ≠ some .fails ∧
    board.memory.hypothesis rule.action ≠ some .fails
  if refutes then (kb.infer board rule.action .fails (.refuted rule.action rule.action), true)
  else (board, false)

/-- What a rule infers from its status. -/
def visit (board : Board kb.size) (id : kb.Id) : Board kb.size × Bool :=
  match board.table.status id with
  | .fired => kb.assertFired board id
  | .blocked | .uncertain => kb.refuteFailed board id
  | .pending | .evaluating => (board, false)

/-- Visits the listed rules one after the other and tells whether any of them
    inferred something. -/
def visitList : List kb.Id → Board kb.size → Board kb.size × Bool
  | [], board => (board, false)
  | id :: rest, board =>
    let (visited, changed) := kb.visit board id
    let (final, changes) := visitList rest visited
    (final, changed || changes)

/-- One round of propagation: every rule in declaration order. -/
def propagateOnce (board : Board kb.size) : Board kb.size × Bool := kb.visitList kb.ids board

/-- Runs rounds until one infers nothing, and at most as many as the cap. -/
def propagate : Nat → Board kb.size → Board kb.size × Propagation
  | 0, board => (board, ⟨0, false, false⟩)
  | cap + 1, board =>
    match kb.propagateOnce board with
    | (next, false) => (next, ⟨1, false, true⟩)
    | (next, true) =>
      let (final, outcome) := propagate cap next
      (final, ⟨outcome.iterations + 1, true, outcome.reachedFixpoint⟩)

end KnowledgeBase

end Consultation
