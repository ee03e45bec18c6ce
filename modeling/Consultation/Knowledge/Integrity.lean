import Consultation.Knowledge.Basic

namespace Consultation

/-- How grave an issue is. A consultation over rules with an error needs to be
    asked for expressly. -/
inductive Severity where
  | warning
  | error
  deriving DecidableEq, Repr

def Severity.text : Severity → String
  | warning => "warning"
  | error => "error"

/-- What can be wrong with rules that can all be evaluated. -/
inductive Issue where
  /-- Several rules conclude the same action. -/
  | duplicateAction (action : Fact) (count : Nat)
  /-- Actions that are derived from each other. -/
  | cycle (path : List Fact)
  /-- An action that is no goal and that no rule has as a condition. -/
  | orphan (action : Fact)
  | noGoals
  deriving DecidableEq, Repr

namespace Issue

def severity : Issue → Severity
  | duplicateAction .. | cycle .. => .error
  | orphan .. | noGoals => .warning

def text (issue : Issue) : String :=
  issue.severity.text ++ ": " ++ match issue with
    | duplicateAction action count =>
      "action \"" ++ action ++ "\" is concluded by " ++ toString count ++ " rules"
    | cycle path => "derivation cycle: " ++ String.intercalate " -> " path
    | orphan action => "\"" ++ action ++ "\" is not a goal and no rule uses it as a condition"
    | noGoals => "the rule set has no goal rules"

end Issue

namespace KnowledgeBase

variable (kb : KnowledgeBase)

/-- The facts that rules conclude, each once, by first declaration. -/
def actions : List Fact := (kb.rules.map (·.action)).eraseDups

/-- The derived facts that a fact depends on: they are conditions of a rule
    that concludes it. -/
def derivedConditions (fact : Fact) : List Fact :=
  ((kb.rules.filter (·.action = fact)).flatMap (·.conditions)).filter kb.isDerived

/-- Adds to the facts found so far those that the facts found last depend on,
    again and again while there are new ones. -/
def dependencyClosure : (rounds : Nat) → (found last : List Fact) → List Fact
  | 0, found, _ => found
  | rounds + 1, found, last =>
    let next := ((last.flatMap kb.derivedConditions).filter (· ∉ found)).eraseDups
    if next.isEmpty then found else dependencyClosure rounds (found ++ next) next

/-- All derived facts that a fact depends on, directly or through others. Each
    round finds at least one new action, so there are enough rounds. -/
def dependencies (fact : Fact) : List Fact :=
  let direct := (kb.derivedConditions fact).eraseDups
  kb.dependencyClosure kb.actions.length direct direct

/-- The actions that a fact depends on and that depend on it, given the
    dependencies of every action. -/
def cycleThrough (table : List (Fact × List Fact)) (fact : Fact) : List Fact :=
  let below := (table.lookup fact).getD []
  kb.actions.filter fun other => other ∈ below && fact ∈ (table.lookup other).getD []

/-- The classes of actions that depend on each other, ordered by their first
    members. Within a class the actions are ordered by first declaration. -/
def cycles : List (List Fact) :=
  let table := kb.actions.map fun action => (action, kb.dependencies action)
  kb.actions.filterMap fun action =>
    let path := kb.cycleThrough table action
    if path.head? = some action then some path else none

def duplicateActions : List Issue :=
  kb.actions.filterMap fun action =>
    let count := (kb.concluding action).length
    if 1 < count then some (.duplicateAction action count) else none

def orphans : List Issue :=
  (((kb.rules.filter fun rule => !rule.goal && !kb.isCondition rule.action).map
    (·.action)).eraseDups).map .orphan

/-- Every issue of a knowledge base, kind by kind. One without rules is not
    expected to have goals. -/
def issues : List Issue :=
  kb.duplicateActions ++ kb.cycles.map .cycle ++ kb.orphans ++
    if kb.goals.isEmpty && !kb.rules.isEmpty then [.noGoals] else []

def hasErrors : Bool := kb.issues.any (·.severity = .error)

end KnowledgeBase

end Consultation
