import Consultation.Session.Basic

namespace Consultation

/-- The operations that change a consultation. -/
inductive Operation where
  | seed (fact : Fact) (value : Bool)
  | start
  | answer (fact : Fact) (value : Answer)
  | answerToken (fact : Fact) (token : String)
  | goBack (steps : Nat)
  | restart
  deriving DecidableEq, Repr

/-- What an accepted operation tells. -/
inductive Reply where
  | seeded
  | asked (question : Option Fact)
  | answered (outcome : AnswerOutcome)
  | rolledBack (outcome : RollbackOutcome)

namespace Session

variable {kb : KnowledgeBase}

/-- Carries out an operation, or refuses it. -/
def perform (limits : Limits) (session : Session kb) :
    Operation → Except SessionError (Session kb × Reply)
  | .seed fact value => do
    let next ← session.seed fact value
    return (next, .seeded)
  | .start => do
    let next ← session.start limits
    return (next, .asked next.question)
  | .answer fact value => do
    let (next, outcome) ← session.answer limits fact value
    return (next, .answered outcome)
  | .answerToken fact token => do
    let (next, outcome) ← session.answerToken limits fact token
    return (next, .answered outcome)
  | .goBack steps => do
    let (next, outcome) ← session.goBack limits steps
    return (next, .rolledBack outcome)
  | .restart =>
    let next := session.restart limits
    return (next, .asked next.question)

/-- One step of a consultation. A refused operation leaves it as it is. -/
def step (limits : Limits) (session : Session kb) (operation : Operation) :
    Session kb × Except SessionError Reply :=
  match session.perform limits operation with
  | .ok (next, reply) => (next, .ok reply)
  | .error reason => (session, .error reason)

/-- The consultation that a list of operations leads to, refused ones
    included. -/
def run (limits : Limits) (session : Session kb) (operations : List Operation) : Session kb :=
  operations.foldl (fun current operation => (current.step limits operation).1) session

end Session

end Consultation
