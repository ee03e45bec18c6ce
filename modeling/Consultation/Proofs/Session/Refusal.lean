import Consultation.Proofs.Session.Phase
import Consultation.Proofs.Session.Procedure

namespace Consultation

namespace Session

variable {kb : KnowledgeBase} {limits : Limits} {session : Session kb} {operation : Operation}
  {reason : SessionError} {fact : Fact}

/-- Why a fact cannot be answered: no rule has it as a condition, or else it was
    answered before. -/
inductive Unanswerable (session : Session kb) (fact : Fact) : SessionError → Prop where
  | unknown (hcondition : ¬ ∃ id, fact ∈ (kb.rule id).conditions) :
      Unanswerable session fact (.unknownFact fact)
  | answered {value : Truth} (hcondition : ∃ id, fact ∈ (kb.rule id).conditions)
      (hfinding : session.memory.finding fact = some value) :
      Unanswerable session fact (.alreadyAnswered fact)

/-- The grounds on which an operation is refused, in the order in which they count.
    Neither the value of an answer nor its words are among them. -/
def Barred (session : Session kb) : Operation → SessionError → Prop
  | .seed fact _, reason =>
    session.phase ≠ .idle ∧ reason = .seedAfterStart fact ∨
    session.phase = .idle ∧ session.Unanswerable fact reason
  | .start, reason => session.phase ≠ .idle ∧ reason = .alreadyStarted
  | .answer fact _, reason | .answerToken fact _, reason =>
    session.phase = .idle ∧ reason = .notStarted ∨
    session.phase = .complete ∧ reason = .noPendingQuestion ∨
    session.phase = .awaitingAnswer ∧ session.Unanswerable fact reason
  | .goBack steps, reason =>
    session.phase = .idle ∧ reason = .notStarted ∨
    session.phase ≠ .idle ∧ (steps = 0 ∨ session.memory.history.length < steps) ∧
      reason = .rollbackOutOfRange steps session.memory.history.length
  | .restart, _ => False

theorem checkAnswerable_eq_error_iff :
    session.checkAnswerable fact = .error reason ↔ session.Unanswerable fact reason := by
  unfold checkAnswerable
  by_cases hcondition : ∃ id, fact ∈ (kb.rule id).conditions
  · rw [KnowledgeBase.isCondition_iff.mpr hcondition]
    cases hfinding : session.memory.finding fact with
    | none =>
      refine iff_of_false nofun fun h => ?_
      cases h with
      | unknown hnot => exact hnot hcondition
      | answered _ hsome =>
        rw [hfinding] at hsome
        cases hsome
    | some value =>
      constructor
      · intro h
        cases h
        exact .answered hcondition hfinding
      · intro h
        cases h with
        | unknown hnot => exact absurd hcondition hnot
        | answered => rfl
  · rw [Bool.eq_false_iff.mpr (mt KnowledgeBase.isCondition_iff.mp hcondition)]
    constructor
    · intro h
      cases h
      exact .unknown hcondition
    · intro h
      cases h with
      | unknown => rfl
      | answered hmem => exact absurd hmem hcondition

theorem checkAnswer_eq_error_iff (hrest : session.phase ≠ .processing) :
    session.checkAnswer fact = .error reason ↔
      session.phase = .idle ∧ reason = .notStarted ∨
      session.phase = .complete ∧ reason = .noPendingQuestion ∨
      session.phase = .awaitingAnswer ∧ session.Unanswerable fact reason := by
  unfold checkAnswer
  cases hphase : session.phase with
  | idle => simp [eq_comm]
  | processing => exact absurd hphase hrest
  | complete => simp [eq_comm]
  | awaitingAnswer => simp [checkAnswerable_eq_error_iff]

/-- Between operations, what is refused is what is barred. -/
theorem refuses_iff_barred (hrest : session.phase ≠ .processing) :
    session.Refuses operation reason ↔ session.Barred operation reason := by
  constructor
  · intro h
    cases h with
    | seedAfterStart fact value hphase => exact .inl ⟨hphase, rfl⟩
    | seed fact value hphase hcheck => exact .inr ⟨hphase, checkAnswerable_eq_error_iff.mp hcheck⟩
    | start hphase => exact ⟨hphase, rfl⟩
    | answer fact value hcheck | answerToken fact token hcheck =>
      exact (checkAnswer_eq_error_iff hrest).mp hcheck
    | goBackBeforeStart steps hphase => exact .inl ⟨hphase, rfl⟩
    | goBackOutOfRange steps hphase hrange => exact .inr ⟨hphase, by omega, rfl⟩
  · intro h
    cases operation with
    | seed fact value =>
      rcases h with ⟨hphase, rfl⟩ | ⟨hphase, hnot⟩
      · exact .seedAfterStart fact value hphase
      · exact .seed fact value hphase (checkAnswerable_eq_error_iff.mpr hnot)
    | start =>
      obtain ⟨hphase, rfl⟩ := h
      exact .start hphase
    | answer fact value => exact .answer fact value ((checkAnswer_eq_error_iff hrest).mpr h)
    | answerToken fact token =>
      exact .answerToken fact token ((checkAnswer_eq_error_iff hrest).mpr h)
    | goBack steps =>
      rcases h with ⟨hphase, rfl⟩ | ⟨hphase, hrange, rfl⟩
      · exact .goBackBeforeStart steps hphase
      · exact .goBackOutOfRange steps hphase (by omega)
    | restart => exact h.elim

/-- Exactly what is barred is refused, for just that reason, and leaves no trace. After
    any operations whatever, refused ones included, an operation fails on one of its
    grounds and on nothing else, and succeeds where there is none. Although it is carried
    out by writing one part after the other, a consultation that it fails on is the
    same in every part as before. -/
theorem refusals_exact (kb : KnowledgeBase) (limits : Limits) (operations : List Operation)
    (operation : Operation) :
    let session := (idle kb).run limits operations
    (∀ reason, session.perform limits operation = .error reason ↔
      session.Barred operation reason) ∧
    (∀ reason, session.Barred operation reason →
      (Procedure.carryOut limits operation).run session = .error reason session) ∧
    ((∀ reason, ¬ session.Barred operation reason) →
      ∃ next reply, session.perform limits operation = .ok (next, reply) ∧
        (Procedure.carryOut limits operation).run session = .ok reply next) := by
  intro session
  have hrest : session.phase ≠ .processing := (poised_run kb limits operations).at_rest
  have hrefused : ∀ reason, session.perform limits operation = .error reason ↔
      session.Barred operation reason :=
    fun reason => perform_eq_error_iff.trans (refuses_iff_barred hrest)
  refine ⟨hrefused, fun reason hbarred => ?_, fun hfree => ?_⟩
  · rw [Procedure.run_carryOut, (hrefused reason).mpr hbarred]
    rfl
  · rw [Procedure.run_carryOut]
    cases hperform : session.perform limits operation with
    | error reason => exact absurd ((hrefused reason).mp hperform) (hfree reason)
    | ok result => exact ⟨result.1, result.2, rfl, rfl⟩

theorem shared_refusals_exact :
    let session := (idle shared).run {} [.seed "e" true, .start, .answer "x" .unknown]
    session.perform {} (.answerToken "e" "perhaps") = .error (.alreadyAnswered "e") ∧
      (Procedure.carryOut {} (.answerToken "e" "perhaps")).run session =
        .error (.alreadyAnswered "e") session ∧
      (Procedure.carryOut {} (.goBack 3)).run session = .error (.rollbackOutOfRange 3 2) session ∧
      ∃ next reply, (Procedure.carryOut {} (.goBack 2)).run session = .ok reply next := by
  intro session
  have hawaiting : session.phase = .awaitingAnswer := by decide +kernel
  have hhistory : session.memory.history = [("e", .holds), ("x", .unknown)] := by decide +kernel
  have hfinding : session.memory.finding "e" = some .holds := by decide +kernel
  have hanswered : session.Barred (.answerToken "e" "perhaps") (.alreadyAnswered "e") :=
    .inr (.inr ⟨hawaiting, .answered ⟨(3 : Fin 4), by decide⟩ hfinding⟩)
  have hbeyond : session.Barred (.goBack 3) (.rollbackOutOfRange 3 2) := by
    rw [Barred, hawaiting, hhistory]
    exact .inr ⟨nofun, .inr (by decide), rfl⟩
  have hfree : ∀ reason, ¬ session.Barred (.goBack 2) reason := by
    intro reason
    rw [Barred, hawaiting, hhistory]
    rintro (⟨hidle, -⟩ | ⟨-, hrange, -⟩)
    · cases hidle
    · exact absurd hrange (by decide)
  have hexact := refusals_exact shared {} [.seed "e" true, .start, .answer "x" .unknown]
  obtain ⟨next, reply, -, hback⟩ := (hexact (.goBack 2)).2.2 hfree
  exact ⟨((hexact _).1 _).mpr hanswered, (hexact _).2.1 _ hanswered, (hexact _).2.1 _ hbeyond,
    next, reply, hback⟩

end Session

end Consultation
