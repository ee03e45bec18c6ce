import Consultation.Diagnostic
import Consultation.Truth

namespace Consultation

/-- Why an operation on a consultation is refused. -/
inductive SessionError where
  | notStarted
  | alreadyStarted
  | noPendingQuestion
  | unknownFact (fact : Fact)
  | alreadyAnswered (fact : Fact)
  | rollbackOutOfRange (steps answered : Nat)
  | seedAfterStart (fact : Fact)
  deriving DecidableEq, Repr

def SessionError.diagnostic : SessionError → Diagnostic
  | notStarted =>
    { message := "the consultation has not been started"
      code := "visa::engine::not_started"
      help := "Call `Engine::start()` before answering or rewinding." }
  | alreadyStarted =>
    { message := "the consultation is already running"
      code := "visa::engine::already_started"
      help := "Use `Engine::restart()` to begin a fresh dialogue." }
  | noPendingQuestion =>
    { message := "no question is pending"
      code := "visa::engine::no_pending_question"
      help := "The dialogue is complete. Inspect the result with `current_state()`, " ++
        "rewind with `go_back()`, or start over with `restart()`." }
  | unknownFact fact =>
    { message := "fact \"" ++ fact ++ "\" is not a condition of any rule"
      code := "visa::engine::unknown_fact"
      help := "Only facts that appear in some rule's condition list can be answered." }
  | alreadyAnswered fact =>
    { message := "fact \"" ++ fact ++ "\" has already been answered"
      code := "visa::engine::already_answered"
      help := "Rewind with `go_back()` to change an earlier answer." }
  | rollbackOutOfRange steps answered =>
    { message := "cannot go back " ++ toString steps ++ " step(s): only " ++ toString answered ++
        " answer(s) recorded"
      code := "visa::engine::rollback_out_of_range"
      help := "The number of steps must be between 1 and the number of recorded answers." }
  | seedAfterStart fact =>
    { message := "cannot seed fact \"" ++ fact ++ "\" after the consultation has started"
      code := "visa::engine::seed_after_start"
      help := "Seed initial facts before calling `start()`, or `restart()` the dialogue." }

end Consultation
