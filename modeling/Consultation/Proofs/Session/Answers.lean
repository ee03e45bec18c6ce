import Consultation.Proofs.Session.Reachable

namespace Consultation

namespace Session

variable {kb : KnowledgeBase} {limits : Limits} {session : Session kb}

theorem memory_ask (limits : Limits) (session : Session kb) :
    (session.ask limits).memory = session.memory := by
  unfold ask
  split <;> rfl

/-- Drawing inferences and asking leave the answers as they are. -/
theorem answers_proceed (limits : Limits) (session : Session kb) :
    (session.proceed limits).memory.answers = session.memory.answers := by
  rw [proceed, memory_ask]
  exact KnowledgeBase.answers_converge limits session.board

theorem answers_begin (limits : Limits) (session : Session kb) :
    (session.begin limits).memory.answers = session.memory.answers :=
  answers_proceed limits _

theorem answers_acceptAnswer (limits : Limits) (session : Session kb) (fact : Fact)
    (value : Answer) (normalizedFrom : Option String) :
    (session.acceptAnswer limits fact value normalizedFrom).memory.answers =
      session.memory.answers.putFinding fact value.truth := by
  unfold acceptAnswer
  rw [answers_proceed]
  cases normalizedFrom <;> rfl

/-- Going back is one pass over the answers that remain, with every rule afresh
    and those marked that have been asked. -/
theorem rewind_eq (limits : Limits) (session : Session kb) (kept steps : Nat) (target : Fact) :
    let pass := (kb.convergeOnce limits.maxPropagationIterations
      ⟨session.memory.clearAfter target, .fresh kb.size, session.log⟩).1
    session.rewind limits kept steps target =
      { board :=
          { memory := pass.memory
            table := ((session.memory.history.take (kept + 1)).map (·.1)).foldl kb.markEvaluating
              pass.table
            log := pass.log ++ [.rolledBack target steps] }
        question := some target
        phase := .awaitingAnswer } := rfl

theorem answers_rewind (limits : Limits) (session : Session kb) (kept steps : Nat) (target : Fact) :
    (session.rewind limits kept steps target).memory.answers =
      (session.memory.clearAfter target).answers := by
  rw [rewind_eq]
  exact (KnowledgeBase.infersAll_convergeOnce _ _).answers_eq

end Session

end Consultation
