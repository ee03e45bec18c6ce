namespace Consultation

/-- How far a rule is decided. `evaluating` differs from `pending` in displays
    only: one of the rule's conditions has been asked. -/
inductive RuleStatus where
  | pending
  | evaluating
  | fired
  | blocked
  | uncertain
  deriving DecidableEq, Repr, Inhabited

namespace RuleStatus

def text : RuleStatus → String
  | pending => "pending"
  | evaluating => "evaluating"
  | fired => "fired"
  | blocked => "blocked"
  | uncertain => "uncertain"

/-- Every condition that matters has been answered. -/
def isResolved : RuleStatus → Bool
  | fired | blocked | uncertain => true
  | pending | evaluating => false

/-- Resolved without firing. -/
def isNegative : RuleStatus → Bool
  | blocked | uncertain => true
  | pending | evaluating | fired => false

/-- Never classified again until a rollback. -/
def isTerminal : RuleStatus → Bool
  | fired | blocked => true
  | pending | evaluating | uncertain => false

end RuleStatus

end Consultation
