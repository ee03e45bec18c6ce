import Consultation.Memory
import Consultation.RuleTable

namespace Consultation

namespace KnowledgeBase

/-- The value of a fact as the rules see it. -/
def effectiveValue (kb : KnowledgeBase) (memory : Memory) (fact : Fact) : Option Truth :=
  memory.effectiveValue fact (kb.isDerived fact)

/-- The conditions of a rule, each with its present value. -/
def conditionValues (kb : KnowledgeBase) (memory : Memory) (id : kb.Id) :
    List (Fact × Option Truth) :=
  (kb.rule id).conditions.map fun condition => (condition, kb.effectiveValue memory condition)

/-- A fact is open when some rule that concludes it is not resolved, so that
    an `unknown` about it may still be overridden. -/
def isOpen (kb : KnowledgeBase) (table : RuleTable kb.size) (fact : Fact) : Bool :=
  (kb.concluding fact).any fun id => !(table.status id).isResolved

end KnowledgeBase

/-- Decides a rule that needs all its conditions, as far as their values allow.
    One false condition blocks it, whatever else is missing. -/
def classifyAll (values : List (Option Truth)) : Option RuleStatus :=
  if values.all (· = some .holds) then some .fired
  else if some .fails ∈ values then some .blocked
  else if values.all (·.isSome) then some .uncertain
  else none

/-- Decides a rule that needs any one of its conditions, as far as their values
    allow. One true value fires it. Otherwise every condition must have a value
    and no `unknown` one may be open. -/
def classifyAny (isOpen : Fact → Bool) (conditions : List Fact) (values : List (Option Truth)) :
    Option RuleStatus :=
  let pairs := conditions.zip values
  if some .holds ∈ values then some .fired
  else if pairs.any fun pair => pair.2 = none || (pair.2 = some .unknown && isOpen pair.1) then none
  else if pairs.any (·.2 = some .unknown) then some .uncertain
  else some .blocked

namespace KnowledgeBase

variable (kb : KnowledgeBase)

/-- Decides a rule under its combinator, given the values of its conditions. -/
def classify (table : RuleTable kb.size) (id : kb.Id) (values : List (Option Truth)) :
    Option RuleStatus :=
  match (kb.rule id).combinator with
  | .all => classifyAll values
  | .any => classifyAny (kb.isOpen table) (kb.rule id).conditions values

/-- The status that a rule takes when it is evaluated: a terminal status
    stays, and so does the status of a rule that cannot be decided. -/
def evaluatedStatus (memory : Memory) (table : RuleTable kb.size) (id : kb.Id) : RuleStatus :=
  let current := table.status id
  if current.isTerminal then current
  else (kb.classify table id ((kb.conditionValues memory id).map (·.2))).getD current

/-- Evaluates one rule: notes the present values of its conditions and
    classifies it. -/
def evaluateRule (memory : Memory) (table : RuleTable kb.size) (id : kb.Id) : RuleTable kb.size :=
  table.set id ⟨kb.evaluatedStatus memory table id, kb.conditionValues memory id⟩

/-- Whether evaluating a rule gives it another status. -/
def reclassifies (memory : Memory) (table : RuleTable kb.size) (id : kb.Id) : Bool :=
  kb.evaluatedStatus memory table id != table.status id

/-- Evaluates the listed rules one after the other, each seeing the statuses
    that the earlier ones took, and counts those with a new status. -/
def evaluateList (memory : Memory) : List kb.Id → RuleTable kb.size → RuleTable kb.size × Nat
  | [], table => (table, 0)
  | id :: rest, table =>
    let (final, count) := evaluateList memory rest (kb.evaluateRule memory table id)
    (final, count + (kb.reclassifies memory table id).toNat)

/-- Evaluates every rule in declaration order. -/
def evaluateAll (memory : Memory) (table : RuleTable kb.size) : RuleTable kb.size × Nat :=
  kb.evaluateList memory kb.ids table

end KnowledgeBase

end Consultation
