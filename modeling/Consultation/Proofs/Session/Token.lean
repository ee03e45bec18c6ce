import Consultation.Proofs.Answer
import Consultation.Proofs.Session.Kept
import Consultation.Proofs.Session.Procedure

namespace Consultation

/-- Boards that differ in their journals at most, and there only in what stands before the
    events that were entered since. -/
structure Board.SameSince {size : Nat} (front other : Log) (left right : Board size) : Prop
    extends left.SameButLog right where
  entered : ∃ events, left.log = front ++ events ∧ right.log = other ++ events

namespace KnowledgeBase

variable {kb : KnowledgeBase} {front other : Log} {left right : Board kb.size}

theorem sameSince_note (h : left.SameSince front other right) (event : Event) :
    Board.SameSince front other { left with log := left.log ++ [event] }
      { right with log := right.log ++ [event] } := by
  obtain ⟨events, hleft, hright⟩ := h.entered
  refine ⟨⟨h.memory, h.table⟩, events ++ [event], ?_, ?_⟩
  · rw [hleft, List.append_assoc]
  · rw [hright, List.append_assoc]

/-- Inference enters the same events whatever stands in the journal. -/
theorem lockstep_sameSince (kb : KnowledgeBase) (front other : Log) :
    kb.Lockstep kb id (Board.SameSince front other) where
  ids := kb.lockstep_sameButLog.ids
  action := kb.lockstep_sameButLog.action
  fired h := kb.lockstep_sameButLog.fired h.toSameButLog
  inferred h := kb.lockstep_sameButLog.inferred h.toSameButLog
  reclassifies h := kb.lockstep_sameButLog.reclassifies h.toSameButLog
  evaluate h id := ⟨kb.lockstep_sameButLog.evaluate h.toSameButLog id, h.entered⟩
  infer h fact value event :=
    ⟨kb.lockstep_sameButLog.infer h.toSameButLog fact value event, (sameSince_note h event).entered⟩

end KnowledgeBase

namespace Session

variable {kb : KnowledgeBase} {limits : Limits} {front other : Log}
  {left right session : Session kb} {fact : Fact} {value : Answer} {normalizedFrom : Option String}

/-- Consultations that stand at the same point, but for what stood in their journals before
    the events that were entered since. -/
structure SameSince (front other : Log) (left right : Session kb) : Prop where
  board : left.board.SameSince front other right.board
  question : right.question = left.question
  phase : right.phase = left.phase

/-- Inference and asking go the same way whatever stands in the journal. -/
theorem Reachable.sameSince_proceed (hleft : left.Reachable limits)
    (hright : right.Reachable limits) (h : left.board.SameSince front other right.board) :
    SameSince front other (left.proceed limits) (right.proceed limits) := by
  have hboard : (kb.converge limits left.board).SameSince front other
      (kb.converge limits right.board) :=
    (kb.lockstep_sameSince front other).converge hleft.justified hright.justified h
      KnowledgeBase.sameSince_note limits
  have hquestion : kb.nextQuestion (kb.converge limits right.board).memory
      (kb.converge limits right.board).table limits.maxQuestionDepth =
      kb.nextQuestion (kb.converge limits left.board).memory
        (kb.converge limits left.board).table limits.maxQuestionDepth := by
    rw [hboard.memory, hboard.table]
  have happlicable : (kb.summarize (kb.converge limits right.board)).applicable =
      (kb.summarize (kb.converge limits left.board)).applicable := by
    simp only [KnowledgeBase.summarize, hboard.table]
  have hconditional : (kb.summarize (kb.converge limits right.board)).conditional =
      (kb.summarize (kb.converge limits left.board)).conditional := by
    simp only [KnowledgeBase.summarize, hboard.memory, hboard.table]
  unfold Session.proceed Session.ask
  simp only [Session.memory, Session.table, hquestion]
  split
  · exact ⟨⟨⟨hboard.memory, by simp only [hboard.table]⟩, hboard.entered⟩, rfl, rfl⟩
  · refine ⟨?_, rfl, rfl⟩
    simp only [summary, happlicable, hconditional]
    exact KnowledgeBase.sameSince_note hboard _

/-- What an answer is noted with, before it is recorded. -/
def notice (fact : Fact) (normalizedFrom : Option String) : Log :=
  normalizedFrom.toList.map (.answerNormalized fact)

theorem sameSince_enterAnswer (session : Session kb) (fact : Fact) (value : Answer)
    (normalizedFrom : Option String) :
    (session.enterAnswer fact value none).board.SameSince
      (session.log ++ [.answered fact value.truth])
      (session.log ++ notice fact normalizedFrom ++ [.answered fact value.truth])
      (session.enterAnswer fact value normalizedFrom).board := by
  cases normalizedFrom with
  | none =>
    have hlog : session.log ++ notice fact none = session.log := List.append_nil _
    rw [hlog]
    exact ⟨⟨rfl, rfl⟩, [], (List.append_nil _).symm, (List.append_nil _).symm⟩
  | some token => exact ⟨⟨rfl, rfl⟩, [], (List.append_nil _).symm, (List.append_nil _).symm⟩

/-- What there is to tell after an answer depends on the journal in the lines of the result
    alone. -/
theorem SameButLog.answerOutcome_eq (h : left.SameButLog right) (normalizedFrom : Option String) :
    right.answerOutcome normalizedFrom =
      { left.answerOutcome none with
        result := (left.answerOutcome none).result.map fun summary =>
          { summary with journal := right.log.lines }
        normalizedFrom } := by
  have hcomplete : right.isComplete = left.isComplete := by rw [isComplete, h.phase, isComplete]
  have hsummary : right.summary = { left.summary with journal := right.log.lines } := by
    have hmemory : right.board.memory = left.board.memory := h.memory
    have htable : right.board.table = left.board.table := h.table
    simp only [summary, KnowledgeBase.summarize, hmemory, htable]
    rfl
  have hresult : right.result? =
      left.result?.map fun summary => { summary with journal := right.log.lines } := by
    rw [result?, result?, hcomplete, hsummary]
    split <;> rfl
  simp only [answerOutcome, rows, h.question, hcomplete, h.memory, h.table, hresult]

/-- A refused answer is refused for the fact and not for what is said about it. -/
theorem applyAnswer_eq_error_iff {reason : SessionError} :
    session.applyAnswer limits fact value normalizedFrom = .error reason ↔
      session.checkAnswer fact = .error reason :=
  bind_eq_error_iff.trans (or_iff_left nofun)

/-- However an answer is noted, it leads to the same point. -/
theorem Reachable.sameSince_acceptAnswer (h : session.Reachable limits)
    (hcondition : kb.isCondition fact = true) (hnew : session.memory.finding fact = none)
    (value : Answer) (normalizedFrom : Option String) :
    SameSince (session.log ++ [.answered fact value.truth])
      (session.log ++ notice fact normalizedFrom ++ [.answered fact value.truth])
      (session.acceptAnswer limits fact value none)
      (session.acceptAnswer limits fact value normalizedFrom) := by
  rw [acceptAnswer_eq, acceptAnswer_eq]
  exact Reachable.sameSince_proceed (h.enterAnswer value none hcondition hnew)
    (h.enterAnswer value normalizedFrom hcondition hnew)
    (sameSince_enterAnswer session fact value normalizedFrom)

/-- A free-form token takes the path of the answer that it is read as. After any operations
    whatever it is refused exactly where that answer is, on the same grounds and without an
    entry in the journal. Where it is accepted, both lead to the same point and tell the same,
    but for the journal: the token is noted as it was given, right before the answer, exactly
    where its form is none of the words that are understood. Neither the case of its letters
    nor blanks around it matter to how it is read. -/
theorem token_taken_as_answer (kb : KnowledgeBase) (limits : Limits) (operations : List Operation)
    (fact : Fact) (token : String) :
    let session := (idle kb).run limits operations
    let value := (Answer.read token).value
    let outside := Text.foldCase (Text.trim token) ∉
      ["yes", "y", "true", "no", "n", "false", "unknown", "?", "dont-know"]
    (∀ reason, session.answerToken limits fact token = .error reason ↔
      session.answer limits fact value = .error reason) ∧
    (∀ reason, session.answerToken limits fact token = .error reason →
      (Procedure.answerToken limits fact token).run session = .error reason session ∧
      (Procedure.applyAnswer limits fact value none).run session = .error reason session) ∧
    (∀ next outcome, session.answer limits fact value = .ok (next, outcome) →
      ∃ later events,
        session.answerToken limits fact token = .ok (later,
          { outcome with
            result := outcome.result.map fun summary =>
              { summary with journal := later.log.lines }
            normalizedFrom := if outside then some token else none }) ∧
        next.SameButLog later ∧
        next.memory.history = session.memory.history ++ [(fact, value.truth)] ∧
        next.log = session.log ++ .answered fact value.truth :: events ∧
        later.log = session.log ++ (if outside then [.answerNormalized fact token] else []) ++
          .answered fact value.truth :: events) ∧
    ∀ respelled front back, Text.Respells token respelled → Text.IsBlankText front →
      Text.IsBlankText back → Answer.read (front ++ respelled ++ back) = Answer.read token := by
  intro session value outside
  have hreachable : session.Reachable limits := reachable_run kb limits operations
  have hreads : (if (Answer.read token).normalized then some token else none) =
      if outside then some token else none := if_congr Answer.normalized_iff rfl rfl
  have hnotice : notice fact (if outside then some token else none) =
      if outside then [.answerNormalized fact token] else [] := by
    split <;> rfl
  refine ⟨fun reason => applyAnswer_eq_error_iff.trans applyAnswer_eq_error_iff.symm,
    fun reason hrefused => ?_, fun next outcome hanswer => ?_, fun respelled front back =>
      Answer.read_respelled⟩
  · have hcheck : session.checkAnswer fact = .error reason := applyAnswer_eq_error_iff.mp hrefused
    constructor
    · rw [Procedure.answerToken, Procedure.run_applyAnswer, applyAnswer_eq_error_iff.mpr hcheck]
      rfl
    · rw [Procedure.run_applyAnswer, applyAnswer_eq_error_iff.mpr hcheck]
      rfl
  · obtain ⟨⟨hphase, hcondition, hnew⟩, hnext, rfl⟩ := answer_eq_ok_iff.mp hanswer
    have hsame := hreachable.sameSince_acceptAnswer hcondition hnew value
      (if outside then some token else none)
    rw [← hnext, hnotice] at hsame
    obtain ⟨events, hleft, hright⟩ := hsame.board.entered
    have hbutLog : next.SameButLog (session.acceptAnswer limits fact value
        (if outside then some token else none)) :=
      ⟨hsame.board.memory, hsame.board.table, hsame.question, hsame.phase⟩
    refine ⟨_, events, ?_, hbutLog, ?_, ?_, ?_⟩
    · rw [answerToken, hreads]
      exact applyAnswer_eq_ok_iff.mpr
        ⟨⟨hphase, hcondition, hnew⟩, rfl, (hbutLog.answerOutcome_eq _).symm⟩
    · rw [hnext]
      exact congrArg Memory.history (answers_acceptAnswer _ _ _ _ _)
    · rw [log, hleft, List.append_assoc, List.singleton_append]
    · rw [log, hright, List.append_assoc, List.singleton_append]

theorem shared_token_taken_as_answer :
    let session := (idle shared).run {} [.seed "e" true, .start]
    (∃ next outcome later told events, session.answer {} "x" .unknown = .ok (next, outcome) ∧
      session.answerToken {} "x" " Yess" = .ok (later, told) ∧
      told.normalizedFrom = some " Yess" ∧ next.SameButLog later ∧
      next.log = session.log ++ .answered "x" .unknown :: events ∧
      later.log = session.log ++
        .answerNormalized "x" " Yess" :: .answered "x" .unknown :: events) ∧
    (Procedure.answerToken {} "e" " Yess").run session = .error (.alreadyAnswered "e") session ∧
    Answer.read ("\u3000" ++ " YESS" ++ "\n") = Answer.read " Yess" := by
  intro session
  have hanswer : session.answer {} "x" .unknown = .ok (_, _) :=
    answer_eq_ok_iff.mpr ⟨⟨by decide +kernel, by decide, by decide +kernel⟩, rfl, rfl⟩
  have hrefused : session.answerToken {} "e" " Yess" = .error (.alreadyAnswered "e") :=
    applyAnswer_eq_error_iff.mpr (by decide +kernel)
  obtain ⟨-, hleaves, hleads, hrespelled⟩ :=
    token_taken_as_answer shared {} [.seed "e" true, .start] "x" " Yess"
  obtain ⟨later, events, htoken, hsame, -, hlog, hlaterLog⟩ := hleads _ _ hanswer
  refine ⟨⟨_, _, later, _, events, hanswer, htoken, rfl, hsame, hlog, hlaterLog⟩, ?_, ?_⟩
  · exact ((token_taken_as_answer shared {} [.seed "e" true, .start] "e" " Yess").2.1 _ hrefused).1
  · exact hrespelled " YESS" "\u3000" "\n" (by decide) (by simp [Text.IsBlankText, Text.isBlank])
      (by simp [Text.IsBlankText, Text.isBlank])

end Session

end Consultation
