import Consultation.Proofs.Inference.Agreement
import Consultation.Proofs.Session.Dialogue

namespace Consultation

namespace KnowledgeBase

variable {kb : KnowledgeBase} {board next final : Board kb.size}

/-- Inference only shows in the statuses of rules that it resolves. -/
theorem InfersAll.status_eq_of_not_isResolved (h : kb.InfersAll board final) {id : kb.Id}
    (hopen : (final.table.status id).isResolved = false) :
    board.table.status id = final.table.status id := by
  have hkept : (final.table.status id).isResolved = false →
      board.table.status id = final.table.status id := by
    refine h.preserves (P := fun next => (next.table.status id).isResolved = false →
      board.table.status id = next.table.status id) (fun middle next hstep hmiddle hnext => ?_)
      fun _ => rfl
    rcases hstep.status_cases id with hsame | ⟨-, -, hdecided⟩
    · rw [hsame] at hnext ⊢
      exact hmiddle hnext
    · rw [isResolved_of_decision hdecided] at hnext
      cases hnext
  exact hkept hopen

theorem Undisputed.of_infersAll (hfinal : kb.Undisputed final) (h : kb.InfersAll board final)
    (hboard : kb.Justified board) : kb.Undisputed board := by
  have hbackwards : kb.Undisputed final → kb.Undisputed board := by
    refine hboard.preserves (P := fun next => kb.Undisputed next → kb.Undisputed board) h ?_ id
    exact fun _ _ hmiddle hstep hbefore hnext => hbefore (hnext.of_infers hmiddle hstep)
  exact hbackwards hfinal

/-- Inference derives no value that was answered. -/
theorem Justified.irredundant (hboard : kb.Justified board) (hstep : kb.Infers board next)
    (h : board.memory.Irredundant) : next.memory.Irredundant := by
  intro fact value hvalue
  rw [hstep.finding_eq]
  cases hboard.writes hstep fact with
  | kept hkept => exact h fact value (hkept.symm.trans hvalue)
  | derived _ _ _ _ hnew hwritten =>
    rw [hwritten] at hvalue
    cases hvalue
    exact fun hfinding => hnew (.inl hfinding)
  | refuted _ _ _ hnew _ hwritten =>
    rw [hwritten] at hvalue
    cases hvalue
    exact fun hfinding => hnew (.inl hfinding)

theorem Justified.irredundant_steps (hboard : kb.Justified board)
    (hsteps : kb.InfersAll board final) (h : board.memory.Irredundant) :
    final.memory.Irredundant :=
  hboard.preserves (P := fun next => next.memory.Irredundant) hsteps
    (fun _ _ hbefore hstep hkept => hbefore.irredundant hstep hkept) h

end KnowledgeBase

namespace Memory

theorem Irredundant.putFinding {memory : Memory} (h : memory.Irredundant) {fact : Fact}
    (value : Truth) (hunderived : memory.hypothesis fact = none) :
    (memory.putFinding fact value).Irredundant := by
  intro query derived hderived
  rw [hypothesis_putFinding] at hderived
  have hne : query ≠ fact := by
    rintro rfl
    rw [hunderived] at hderived
    cases hderived
  rw [finding_putFinding, if_neg hne]
  exact h query derived hderived

end Memory

namespace Session

variable {kb : KnowledgeBase} {limits : Limits} {session shadow : Session kb}
  {given : List (Fact × Answer)} {fact : Fact}

/-- The facts that were asked: those answered, and the one in question. -/
def asked (session : Session kb) : List Fact :=
  session.memory.history.map (·.1) ++ session.question.toList

/-- Exactly the rules with a condition that was asked are shown as such, as long
    as they are not resolved. -/
def Marked (session : Session kb) : Prop :=
  ∀ id, (session.table.status id).isResolved = false →
    (session.table.status id = .evaluating ↔
      ∃ fact ∈ session.asked, fact ∈ (kb.rule id).conditions)

/-- Where nothing is resolved, inference and the next question together only
    mark the rules that have the question as a condition. -/
theorem status_proceed (session : Session kb) {id : kb.Id}
    (hopen : ((session.proceed limits).table.status id).isResolved = false) :
    (session.table.status id).isResolved = false ∧
      ((session.proceed limits).table.status id = .evaluating ↔
        session.table.status id = .evaluating ∨
          ∃ fact ∈ (session.proceed limits).question.toList, fact ∈ (kb.rule id).conditions) := by
  have hconverge (hopen : ((kb.converge limits session.board).table.status id).isResolved = false) :
      session.table.status id = (kb.converge limits session.board).table.status id := by
    obtain ⟨final, hsteps, hfinal | hfinal⟩ := kb.converge_cases limits session.board
    · rw [hfinal] at hopen ⊢
      exact hsteps.status_eq_of_not_isResolved hopen
    · rw [hfinal] at hopen ⊢
      exact hsteps.status_eq_of_not_isResolved hopen
  unfold proceed ask at hopen ⊢
  cases hquestion : kb.nextQuestion (kb.converge limits session.board).memory
      (kb.converge limits session.board).table limits.maxQuestionDepth with
  | some fact =>
    simp only [memory, table, hquestion] at hopen hconverge ⊢
    rw [KnowledgeBase.congr_status_markEvaluating RuleStatus.isResolved rfl] at hopen
    rw [hconverge hopen, KnowledgeBase.status_markEvaluating]
    refine ⟨hopen, ?_⟩
    generalize (kb.converge limits session.board).table.status id = status at hopen ⊢
    cases status with
    | pending => by_cases hmem : fact ∈ (kb.rule id).conditions <;> simp [hmem]
    | evaluating => simp
    | fired | blocked | uncertain => cases hopen
  | none =>
    simp only [memory, table, hquestion, record] at hopen hconverge ⊢
    rw [hconverge hopen]
    exact ⟨hopen, by simp⟩

/-- Asking and answering keep the marks. -/
theorem Marked.acceptAnswer (h : session.Marked) (hquestion : session.question = some fact)
    (value : Answer) : (session.acceptAnswer limits fact value none).Marked := by
  intro id hopen
  have hproceed := status_proceed _ hopen
  have hbefore : (session.table.status id).isResolved = false := hproceed.1
  have hmarked : (session.acceptAnswer limits fact value none).table.status id = .evaluating ↔
      session.table.status id = .evaluating ∨
        ∃ query ∈ (session.acceptAnswer limits fact value none).question.toList,
          query ∈ (kb.rule id).conditions := hproceed.2
  have hasked : (session.acceptAnswer limits fact value none).asked =
      session.asked ++ (session.acceptAnswer limits fact value none).question.toList := by
    rw [asked, asked, hquestion, ← Memory.history_answers, answers_acceptAnswer]
    simp [Memory.putFinding]
  rw [hmarked, h id hbefore, hasked]
  simp only [List.mem_append, or_and_right, exists_or]

theorem marked_begin (limits : Limits) : ((idle kb).begin limits).Marked := by
  intro id hopen
  obtain ⟨-, hmarked⟩ := status_proceed _ hopen
  have hpending : (idle kb).table.status id ≠ .evaluating := by
    change (RuleTable.fresh kb.size).status id ≠ .evaluating
    rw [RuleTable.status_fresh]
    nofun
  have hhistory : ((idle kb).begin limits).memory.history = [] := by
    rw [← Memory.history_answers, answers_begin]
    rfl
  refine hmarked.trans ?_
  rw [asked, hhistory]
  exact ⟨fun h => h.resolve_left hpending, .inr⟩

theorem irredundant_proceed (hreachable : session.Reachable limits)
    (h : session.memory.Irredundant) : (session.proceed limits).memory.Irredundant := by
  rw [proceed, memory_ask]
  obtain ⟨final, hsteps, hfinal⟩ := kb.converge_cases limits session.board
  have hinferred : final.memory.Irredundant := hreachable.justified.irredundant_steps hsteps h
  rcases hfinal with hfinal | hfinal
  · exact hfinal ▸ hinferred
  · exact hfinal ▸ hinferred

theorem irredundant_acceptAnswer (hreachable : session.Reachable limits)
    (h : session.memory.Irredundant) (value : Answer) (hcondition : kb.isCondition fact = true)
    (hnew : session.memory.finding fact = none)
    (hunderived : session.memory.hypothesis fact = none) :
    (session.acceptAnswer limits fact value none).memory.Irredundant := by
  apply irredundant_proceed
  · exact (KnowledgeBase.Reachable.answer hreachable fact value.truth hcondition hnew).note _
  · exact h.putFinding value.truth hunderived

/-- Inferring and answering more resolves no dispute. -/
theorem undisputed_of_acceptAnswer (hreachable : session.Reachable limits) {value : Answer}
    (hcondition : kb.isCondition fact = true) (hnew : session.memory.finding fact = none)
    (h : kb.Undisputed (session.acceptAnswer limits fact value none).board) :
    kb.Undisputed session.board := by
  have hproceed {entered : Session kb} (hentered : entered.Reachable limits)
      (h : kb.Undisputed (entered.proceed limits).board) : kb.Undisputed entered.board := by
    have hconverged : kb.Undisputed (kb.converge limits entered.board) := by
      unfold proceed ask at h
      split at h
      · exact h.of_mark
      · exact ⟨h.answers, h.premises⟩
    obtain ⟨final, hsteps, hfinal⟩ := kb.converge_cases limits entered.board
    have hundisputed : kb.Undisputed final := by
      rcases hfinal with hfinal | hfinal
      · exact hfinal ▸ hconverged
      · rw [hfinal] at hconverged
        exact ⟨hconverged.answers, hconverged.premises⟩
    exact hundisputed.of_infersAll hsteps hentered.justified
  have hentered := KnowledgeBase.Reachable.answer hreachable fact value.truth hcondition hnew
  have hundisputed := hproceed (hentered.note (.answered fact value.truth)) h
  exact KnowledgeBase.Undisputed.of_answer ⟨hundisputed.answers, hundisputed.premises⟩ hnew

namespace Dialogue

theorem irredundant (h : session.Dialogue limits given) : session.memory.Irredundant := by
  refine h.invariant (P := fun board => board.memory.Irredundant) ?_ ?_ ?_ ?_ ?_
  · intro fact value hvalue
    cases hvalue
  · exact fun _ _ hboard hstep hkept => hboard.irredundant hstep hkept
  · exact fun _ _ hkept => hkept
  · exact fun _ _ _ hkept => hkept
  · exact fun _ _ value _ hunderived hkept => hkept.putFinding value hunderived

theorem marked (h : session.Dialogue limits given) : session.Marked := by
  induction h with
  | start h =>
    rw [start_idle_eq_ok_iff.mp h]
    exact marked_begin limits
  | answer _ hquestion hanswer ih =>
    obtain ⟨-, rfl, -⟩ := answer_eq_ok_iff.mp hanswer
    exact ih.acceptAnswer hquestion _

theorem faithful (h : session.Dialogue limits given) : session.memory.Faithful := by
  rw [← Memory.faithful_answers]
  induction h with
  | start h =>
    rw [start_idle_eq_ok_iff.mp h, answers_begin]
    exact ⟨List.nodup_nil, fun _ => rfl⟩
  | answer _ _ hanswer ih =>
    obtain ⟨⟨-, -, hnew⟩, rfl, -⟩ := answer_eq_ok_iff.mp hanswer
    rw [answers_acceptAnswer]
    exact ih.putFinding _ hnew

end Dialogue

/-- A consultation that stands where another one does, though it may have come
    there by another way: the same was answered, the same is asked, and what was
    asked is shown. What was derived may differ. -/
structure Retraces (limits : Limits) (session original : Session kb) : Prop where
  reachable : session.Reachable limits
  answers : session.memory.answers = original.memory.answers
  question : session.question = original.question
  phase : session.phase = original.phase
  irredundant : session.memory.Irredundant
  marked : session.Marked

/-- Two consultations that agree in all that is shown of them but the journal. -/
structure Agrees (session original : Session kb) : Prop where
  status : ∀ id, session.table.status id = original.table.status id
  memory : session.memory = original.memory
  question : session.question = original.question
  phase : session.phase = original.phase

/-- The same marks show the same of the rules that are not resolved. -/
theorem Marked.status_eq {original : Session kb} (h : session.Marked) (horiginal : original.Marked)
    (hasked : session.asked = original.asked) {id : kb.Id}
    (hunmarked : (session.table.status id).unmarked = (original.table.status id).unmarked) :
    session.table.status id = original.table.status id := by
  have hresolved : (session.table.status id).isResolved = (original.table.status id).isResolved :=
    RuleStatus.congr_of_unmarked_eq RuleStatus.isResolved rfl hunmarked
  cases hopen : (session.table.status id).isResolved with
  | true => exact RuleStatus.eq_of_unmarked_eq hunmarked hopen
  | false =>
    have hevaluating : session.table.status id = .evaluating ↔
        original.table.status id = .evaluating := by
      rw [h id hopen, horiginal id (hresolved ▸ hopen), hasked]
    revert hevaluating hunmarked
    generalize session.table.status id = left at hopen
    generalize original.table.status id = right
    cases left <;> cases right <;> first | rfl | simp [RuleStatus.unmarked]

namespace Retraces

variable {original : Session kb}

theorem asked_eq (h : session.Retraces limits original) : session.asked = original.asked := by
  have hhistory : session.memory.history = original.memory.history :=
    congrArg (fun memory => memory.history) h.answers
  rw [asked, asked, hhistory, h.question]

/-- Nothing was derived about what a dialogue asks next, wherever it is
    retraced. -/
theorem hypothesis_eq_none (h : session.Retraces limits original)
    (horiginal : original.Dialogue limits given) (hlimits : limits.Ample kb)
    (hundisputed : kb.Undisputed original.board) (hquestion : original.question = some fact) :
    session.memory.hypothesis fact = none := by
  obtain ⟨hcondition, hfinding, hunderived⟩ := horiginal.question_open hquestion
  have hstable : kb.Stable original.board :=
    horiginal.reachable.stable (horiginal.settled hlimits) hundisputed
  have hbehind : kb.Precedes session.board original.board :=
    KnowledgeBase.Reachable.precedes h.reachable hstable fun query value hvalue =>
      (Memory.finding_eq_of_answers_eq h.answers query).symm.trans hvalue
  cases hhypothesis : session.memory.hypothesis fact with
  | none => rfl
  | some value =>
    have hvalue := hbehind.hypothesis fact value hcondition hhypothesis
    have hrecords : original.memory.finding fact = some value ∨
        original.memory.hypothesis fact = some value := Memory.records_of_effectiveValue hvalue
    rw [hfinding, hunderived] at hrecords
    rcases hrecords with hrecords | hrecords <;> cases hrecords

/-- Answering what is asked leads to the same in a dialogue and wherever it is
    retraced. -/
theorem acceptAnswer (h : session.Retraces limits original)
    (horiginal : original.Dialogue limits given) (hlimits : limits.Ample kb)
    (hquestion : original.question = some fact) {value : Answer}
    (hundisputed : kb.Undisputed (original.acceptAnswer limits fact value none).board) :
    (session.acceptAnswer limits fact value none).Retraces limits
        (original.acceptAnswer limits fact value none) ∧
      (session.acceptAnswer limits fact value none).Agrees
        (original.acceptAnswer limits fact value none) := by
  obtain ⟨hcondition, hnewOriginal, hunderivedOriginal⟩ := horiginal.question_open hquestion
  have hbefore := undisputed_of_acceptAnswer horiginal.reachable hcondition hnewOriginal hundisputed
  have hunderived := h.hypothesis_eq_none horiginal hlimits hbefore hquestion
  have hnew : session.memory.finding fact = none :=
    (Memory.finding_eq_of_answers_eq h.answers fact).trans hnewOriginal
  have hreachable := Reachable.acceptAnswer h.reachable value none hcondition hnew
  have hreachableOriginal :=
    Reachable.acceptAnswer horiginal.reachable value none hcondition hnewOriginal
  have hirredundant := irredundant_acceptAnswer h.reachable h.irredundant value hcondition hnew
    hunderived
  have hirredundantOriginal := irredundant_acceptAnswer horiginal.reachable horiginal.irredundant
    value hcondition hnewOriginal hunderivedOriginal
  have hanswers : (session.acceptAnswer limits fact value none).memory.answers =
      (original.acceptAnswer limits fact value none).memory.answers := by
    rw [answers_acceptAnswer, answers_acceptAnswer, h.answers]
  obtain ⟨hstableOriginal, hstable, hunmarked⟩ := KnowledgeBase.Reachable.agree hreachableOriginal
    hreachable (Reachable.settled_acceptAnswer horiginal.reachable hlimits value none hcondition
      hnewOriginal)
    (Reachable.settled_acceptAnswer h.reachable hlimits value none hcondition hnew) hundisputed
    fun query => (Memory.finding_eq_of_answers_eq hanswers query).symm
  have hmemory : (session.acceptAnswer limits fact value none).memory =
      (original.acceptAnswer limits fact value none).memory :=
    hstable.memory_eq hstableOriginal hirredundant hirredundantOriginal
      (fun id => (hunmarked id).symm) hanswers
  have hquestionNext : (session.acceptAnswer limits fact value none).question =
      (original.acceptAnswer limits fact value none).question := by
    rw [question_acceptAnswer, question_acceptAnswer, hmemory]
    exact KnowledgeBase.nextQuestion_congr (fun id =>
      RuleStatus.congr_of_unmarked_eq RuleStatus.isTerminal rfl (hunmarked id).symm) _
  have hphase : (session.acceptAnswer limits fact value none).phase =
      (original.acceptAnswer limits fact value none).phase := by
    rw [phase_acceptAnswer, phase_acceptAnswer, hquestionNext]
  have hretraces : (session.acceptAnswer limits fact value none).Retraces limits
      (original.acceptAnswer limits fact value none) :=
    ⟨hreachable, hanswers, hquestionNext, hphase, hirredundant,
      h.marked.acceptAnswer (h.question.trans hquestion) value⟩
  refine ⟨hretraces, fun id => ?_, hmemory, hquestionNext, hphase⟩
  exact hretraces.marked.status_eq (horiginal.marked.acceptAnswer hquestion value)
    hretraces.asked_eq (hunmarked id).symm

end Retraces

end Session

end Consultation
