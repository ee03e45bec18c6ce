import Consultation.Truth

namespace Consultation

/-- The events of a consultation that its journal records. -/
inductive Event where
  | started (goals : Nat)
  | seeded (fact : Fact) (value : Truth)
  | answered (fact : Fact) (value : Truth)
  | answerNormalized (fact : Fact) (token : String)
  | derived (fact rule : Fact)
  | premisePromoted (fact rule : Fact)
  | refuted (fact rule : Fact)
  | rolledBack (fact : Fact) (steps : Nat)
  | capReached (passes : Nat)
  | completed (applicable conditional : Nat)
  deriving DecidableEq, Repr, Inhabited

/-- The line that the journal shows for an event. Facts and tokens stand in it
    as they are, quotation marks included. -/
def Event.text : Event → String
  | started goals =>
    "Consultation started: evaluating " ++ toString goals ++ " goal(s) in parallel."
  | seeded fact value => "Initial fact: \"" ++ fact ++ "\" -> " ++ value.text
  | answered fact value => "Answer: \"" ++ fact ++ "\" -> " ++ value.text
  | answerNormalized fact token =>
    "Answer for \"" ++ fact ++ "\" was \"" ++ token ++ "\"; treated as unknown"
  | derived fact rule => "Derived: \"" ++ fact ++ "\" (rule \"" ++ rule ++ "\" fired)"
  | premisePromoted fact rule =>
    "Inferred: \"" ++ fact ++ "\" -> true (premise of fired rule \"" ++ rule ++ "\")"
  | refuted fact rule => "Refuted: \"" ++ fact ++ "\" (rule \"" ++ rule ++ "\" cannot fire)"
  | rolledBack fact steps => "Went back " ++ toString steps ++ " step(s) to \"" ++ fact ++ "\""
  | capReached passes =>
    "Stopped after " ++ toString passes ++ " evaluation pass(es) without reaching a fixpoint"
  | completed applicable conditional =>
    "Consultation complete: " ++ toString applicable ++ " applicable, " ++
      toString conditional ++ " conditional"

/-- The journal of a consultation, oldest event first. -/
abbrev Log := List Event

/-- The journal as lines of text. -/
def Log.lines (log : Log) : List String := log.map Event.text

end Consultation
