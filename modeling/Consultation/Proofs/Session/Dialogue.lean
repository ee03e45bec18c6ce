import Consultation.Proofs.Inference.Question
import Consultation.Proofs.Session.Answers

namespace Consultation

/-- What is asked next has not been answered, and nothing was derived about it. -/
theorem KnowledgeBase.Justified.open_of_nextQuestion {kb : KnowledgeBase} {board : Board kb.size}
    (h : kb.Justified board) {maxDepth : Nat} {fact : Fact}
    (hquestion : kb.nextQuestion board.memory board.table maxDepth = some fact) :
    kb.isCondition fact = true ∧ board.memory.finding fact = none ∧
      board.memory.hypothesis fact = none := by
  obtain ⟨hcondition, hvalue⟩ := nextQuestion_eq_some hquestion
  obtain ⟨hhypothesis, hfinding⟩ := (Option.orElse_eq_none _ _).mp
    ((h.effectiveValue_eq fact).symm.trans hvalue)
  exact ⟨hcondition, hfinding, hhypothesis⟩

namespace Session

variable {kb : KnowledgeBase} {limits : Limits} {session next : Session kb}
  {given : List (Fact × Answer)} {fact : Fact} {value : Answer}

/-- The consultations that come from a start by answering what is asked, each
    with the answers that were given. -/
inductive Dialogue (limits : Limits) : List (Fact × Answer) → Session kb → Prop where
  | start {session : Session kb} (h : (idle kb).start limits = .ok session) :
      Dialogue limits [] session
  | answer {given : List (Fact × Answer)} {session next : Session kb} {fact : Fact}
      {value : Answer} {outcome : AnswerOutcome} (h : Dialogue limits given session)
      (hquestion : session.question = some fact)
      (hanswer : session.answer limits fact value = .ok (next, outcome)) :
      Dialogue limits (given ++ [(fact, value)]) next

/-- What is asked is the next question, also when the fact in question is shown
    as asked. -/
theorem question_proceed (limits : Limits) (session : Session kb) :
    (session.proceed limits).question =
      kb.nextQuestion (session.proceed limits).memory (session.proceed limits).table
        limits.maxQuestionDepth := by
  unfold proceed ask
  split
  · next fact hfact =>
    rw [← hfact]
    exact (KnowledgeBase.nextQuestion_congr (KnowledgeBase.congr_status_markEvaluating
      RuleStatus.isTerminal rfl _ fact) _).symm
  · next hnone => exact hnone.symm

theorem phase_proceed (limits : Limits) (session : Session kb) :
    (session.proceed limits).phase =
      if (session.proceed limits).question.isSome then .awaitingAnswer else .complete := by
  unfold proceed ask
  split <;> rfl

theorem question_acceptAnswer (limits : Limits) (session : Session kb) (fact : Fact)
    (value : Answer) :
    (session.acceptAnswer limits fact value none).question =
      kb.nextQuestion (session.acceptAnswer limits fact value none).memory
        (session.acceptAnswer limits fact value none).table limits.maxQuestionDepth :=
  question_proceed limits _

theorem phase_acceptAnswer (limits : Limits) (session : Session kb) (fact : Fact)
    (value : Answer) :
    (session.acceptAnswer limits fact value none).phase =
      if (session.acceptAnswer limits fact value none).question.isSome then .awaitingAnswer
      else .complete :=
  phase_proceed limits _

theorem start_idle_eq_ok_iff :
    (idle kb).start limits = .ok session ↔ session = (idle kb).begin limits :=
  start_eq_ok_iff.trans (and_iff_right rfl)

namespace Dialogue

/-- A dialogue is always at a point where all inferences have just been drawn
    and the next question asked. -/
theorem exists_proceed (h : session.Dialogue limits given) :
    ∃ before : Session kb, before.Reachable limits ∧ session = before.proceed limits := by
  induction h with
  | start h =>
    have hbegin := start_idle_eq_ok_iff.mp h
    exact ⟨_, (reachable_idle kb).note _, hbegin⟩
  | @answer _ session next fact value outcome _ _ hanswer ih =>
    obtain ⟨before, hbefore, hproceed⟩ := ih
    obtain ⟨⟨-, hcondition, hnew⟩, hnext, -⟩ := answer_eq_ok_iff.mp hanswer
    have hsession : session.Reachable limits := by
      rw [hproceed]
      exact hbefore.proceed
    have hanswered := KnowledgeBase.Reachable.answer hsession fact value.truth hcondition hnew
    exact ⟨_, hanswered.note _, hnext⟩

theorem reachable (h : session.Dialogue limits given) : session.Reachable limits := by
  obtain ⟨before, hbefore, rfl⟩ := h.exists_proceed
  exact hbefore.proceed

theorem settled (h : session.Dialogue limits given) (hlimits : limits.Ample kb) :
    kb.Settled session.board := by
  obtain ⟨before, hbefore, rfl⟩ := h.exists_proceed
  exact Reachable.settled_proceed hbefore hlimits

theorem question_eq (h : session.Dialogue limits given) :
    session.question = kb.nextQuestion session.memory session.table limits.maxQuestionDepth := by
  obtain ⟨before, -, rfl⟩ := h.exists_proceed
  exact question_proceed limits before

theorem phase_eq (h : session.Dialogue limits given) :
    session.phase = if session.question.isSome then .awaitingAnswer else .complete := by
  obtain ⟨before, -, rfl⟩ := h.exists_proceed
  exact phase_proceed limits before

/-- The fact in question has not been answered, and nothing was derived about
    it. -/
theorem question_open (h : session.Dialogue limits given)
    (hquestion : session.question = some fact) :
    kb.isCondition fact = true ∧ session.memory.finding fact = none ∧
      session.memory.hypothesis fact = none := by
  rw [h.question_eq] at hquestion
  exact h.reachable.justified.open_of_nextQuestion hquestion

theorem history_eq (h : session.Dialogue limits given) :
    session.memory.history = given.map fun entry => (entry.1, entry.2.truth) := by
  induction h with
  | start h =>
    rw [start_idle_eq_ok_iff.mp h, ← Memory.history_answers, answers_begin]
    rfl
  | answer _ _ hanswer ih =>
    obtain ⟨-, rfl, -⟩ := answer_eq_ok_iff.mp hanswer
    rw [← Memory.history_answers, answers_acceptAnswer, List.map_append, ← ih]
    rfl

/-- Every finding was given as an answer. -/
theorem exists_answer_of_finding (h : session.Dialogue limits given) {truth : Truth}
    (hfinding : session.memory.finding fact = some truth) :
    ∃ value, (fact, value) ∈ given ∧ value.truth = truth := by
  induction h with
  | start h =>
    rw [start_idle_eq_ok_iff.mp h, ← Memory.finding_answers, answers_begin] at hfinding
    cases hfinding
  | @answer given _ _ asked value _ _ _ hanswer ih =>
    obtain ⟨-, rfl, -⟩ := answer_eq_ok_iff.mp hanswer
    rw [← Memory.finding_answers, answers_acceptAnswer, Memory.finding_putFinding] at hfinding
    split at hfinding
    · next heq =>
      subst heq
      exact ⟨value, by simp, Option.some.inj hfinding⟩
    · obtain ⟨before, hmem, htruth⟩ := ih hfinding
      exact ⟨before, List.mem_append_left _ hmem, htruth⟩

/-- A property of boards is an invariant of dialogues when it holds at the
    outset, and is kept by each step of inference, by each fact asked, by each
    event that tells of no inference, and by each answer to a fact about which
    nothing was known. -/
theorem invariant {P : Board kb.size → Prop} (hfresh : P (.fresh kb.size))
    (hstep : ∀ board next, kb.Justified board → kb.Infers board next → P board → P next)
    (hmark : ∀ board fact, P board → P { board with table := kb.markEvaluating board.table fact })
    (hnote : ∀ board event, (∀ fact, event ≠ .refuted fact fact) → P board →
      P { board with log := board.log ++ [event] })
    (hanswer : ∀ board fact value, board.memory.finding fact = none →
      board.memory.hypothesis fact = none → P board →
      P { board with memory := board.memory.putFinding fact value })
    (h : session.Dialogue limits given) : P session.board := by
  have hproceed (session : Session kb) (hreachable : session.Reachable limits)
      (hsession : P session.board) : P (session.proceed limits).board := by
    have hconverge : P (kb.converge limits session.board) := by
      obtain ⟨final, hsteps, hfinal⟩ := kb.converge_cases limits session.board
      have hinferred : P final := hreachable.justified.preserves hsteps hstep hsession
      rcases hfinal with hfinal | hfinal
      · exact hfinal ▸ hinferred
      · exact hfinal ▸ hnote final _ nofun hinferred
    unfold proceed ask
    split
    · exact hmark _ _ hconverge
    · exact hnote _ _ nofun hconverge
  induction h with
  | start h =>
    rw [start_idle_eq_ok_iff.mp h]
    exact hproceed _ ((reachable_idle kb).note _) (hnote _ _ nofun hfresh)
  | answer hbefore hquestion hanswered ih =>
    obtain ⟨-, rfl, -⟩ := answer_eq_ok_iff.mp hanswered
    obtain ⟨hcondition, hfinding, hhypothesis⟩ := hbefore.question_open hquestion
    exact hproceed _
      ((KnowledgeBase.Reachable.answer hbefore.reachable _ _ hcondition hfinding).note _)
      (hnote _ _ nofun (hanswer _ _ _ hfinding hhypothesis ih))

end Dialogue

end Session

end Consultation
