import Consultation.Proofs.Inference.Progress
import Consultation.Proofs.Session.Override

namespace Consultation

/-- The operations that take answers back, where they are accepted. -/
def Operation.takesBack : Operation → Bool
  | .goBack _ | .restart => true
  | .seed _ _ | .start | .answer _ _ | .answerToken _ _ => false

namespace Session

variable {kb : KnowledgeBase} {limits : Limits} {session next entered : Session kb}
  {operation : Operation}

theorem Reachable.advances_proceed (h : session.Reachable limits) :
    session.board.Advances (session.proceed limits).board :=
  proceed_preserves (P := fun board => session.board.Advances board)
    (fun board fact hkept => hkept.trans (KnowledgeBase.advances_mark board fact))
    (fun board event hkept => hkept.trans (KnowledgeBase.advances_note board event))
    (h.justified.advances_converge limits)

theorem advances_enterAnswer {fact : Fact} (value : Answer) (normalizedFrom : Option String)
    (hnew : session.memory.finding fact = none) :
    session.board.Advances (session.enterAnswer fact value normalizedFrom).board := by
  cases normalizedFrom with
  | none => exact (KnowledgeBase.advances_answer _ hnew).trans (KnowledgeBase.advances_note _ _)
  | some token =>
    have hnoted := KnowledgeBase.advances_note session.board (.answerNormalized fact token)
    exact (hnoted.trans (KnowledgeBase.advances_answer _ hnew)).trans
      (KnowledgeBase.advances_note _ _)

/-- Handing an operation over to inference undoes nothing, unless it starts
    afresh. -/
theorem Accepts.advances_entered (h : session.Accepts limits operation next)
    (hentered : session.entered operation = some entered) (hkeeps : operation ≠ .restart) :
    session.board.Advances entered.board := by
  cases h with
  | seed | goBack => exact absurd hentered nofun
  | start =>
    obtain rfl := Option.some.inj hentered
    exact KnowledgeBase.advances_note _ _
  | answer _ _ _ _ hnew | answerToken _ _ _ _ hnew =>
    obtain rfl := Option.some.inj hentered
    exact advances_enterAnswer _ _ hnew
  | restart => exact absurd rfl hkeeps

/-- An accepted operation that takes nothing back undoes nothing. -/
theorem Reachable.advances_accepts (h : session.Reachable limits)
    (haccepts : session.Accepts limits operation next) (hkeeps : operation.takesBack = false) :
    session.board.Advances next.board := by
  have hproceed : ∀ entered, session.entered operation = some entered →
      session.board.Advances next.board := by
    intro entered hentered
    rw [haccepts.eq_proceed hentered]
    have hbefore := haccepts.advances_entered hentered (by rintro rfl; cases hkeeps)
    exact hbefore.trans (h.entered haccepts hentered).advances_proceed
  cases haccepts with
  | seed _ _ _ _ hnew =>
    exact (KnowledgeBase.advances_answer _ hnew).trans (KnowledgeBase.advances_note _ _)
  | start | answer | answerToken => exact hproceed _ rfl
  | goBack | restart => cases hkeeps

/-- Nor does an operation that is refused, whichever it is. -/
theorem Reachable.advances_step (h : session.Reachable limits)
    (hkeeps : operation.takesBack = true →
      ∃ reason, session.perform limits operation = .error reason) :
    session.board.Advances (session.step limits operation).1.board := by
  unfold step
  cases hperform : session.perform limits operation with
  | error reason => exact .refl _
  | ok result =>
    refine h.advances_accepts (accepts_of_perform hperform) ?_
    by_contra htakes
    obtain ⟨reason, hrefused⟩ := hkeeps (by simpa using htakes)
    rw [hperform] at hrefused
    cases hrefused

/-- Over any number of operations that take nothing back, a consultation only
    moves on. -/
theorem Reachable.advances_run (h : session.Reachable limits) (operations : List Operation)
    (hkeeps : ∀ operation ∈ operations, operation.takesBack = false) :
    session.board.Advances (session.run limits operations).board := by
  refine h.run_preserves (P := fun current => session.board.Advances current.board) operations
    (.refl _) ?_
  intro current next operation hmem hcurrent hadvances haccepts
  exact hadvances.trans (hcurrent.advances_accepts haccepts (hkeeps operation hmem))

/-- Only going back and starting afresh undo anything. Every other operation, and
    every refused one, leaves the status of each rule as it is or takes it nearer
    to a decision, and a rule that has fired or is blocked stays so. No answer is
    lost or changed, and nothing that was derived is withdrawn: a derived value
    only ever changes from false to true. -/
theorem step_undoes_nothing (kb : KnowledgeBase) (limits : Limits) (operations : List Operation)
    (operation : Operation)
    (hkeeps : operation.takesBack = true →
      ∃ reason, ((idle kb).run limits operations).perform limits operation = .error reason) :
    let session := (idle kb).run limits operations
    let next := (session.step limits operation).1
    (∀ id, next.table.status id = session.table.status id ∨
      session.table.status id < next.table.status id) ∧
    (∀ id, (session.table.status id).isTerminal = true →
      next.table.status id = session.table.status id) ∧
    (∀ fact value, session.memory.finding fact = some value →
      next.memory.finding fact = some value) ∧
    (∀ fact value, session.memory.hypothesis fact = some value →
      next.memory.hypothesis fact = some value ∨
        value = .fails ∧ next.memory.hypothesis fact = some .holds) ∧
    ∀ fact, session.memory.hypothesis fact = some .holds →
      next.memory.hypothesis fact = some .holds := by
  intro session next
  have hreachable : session.Reachable limits := reachable_run kb limits operations
  have hadvances : session.board.Advances next.board := hreachable.advances_step hkeeps
  refine ⟨fun id => (hadvances.status id).eq_or_lt.imp_left Eq.symm, fun id hterminal => ?_,
    hadvances.finding, hadvances.hypothesis, fun fact hholds => ?_⟩
  · exact RuleStatus.eq_of_le_of_isTerminal (hadvances.status id) hterminal
  · exact (hadvances.hypothesis fact .holds hholds).resolve_right (by nofun)

theorem reproved_step_undoes_nothing :
    let session := (idle reproved).run {} [.start, .answer "x" .unknown, .answer "a" .unknown]
    let next := (session.step {} (.answer "b" .yes)).1
    session.table.status (1 : Fin 4) = .uncertain ∧
      session.table.status (1 : Fin 4) < next.table.status (1 : Fin 4) ∧
      session.table.status (0 : Fin 4) = .blocked ∧ next.table.status (0 : Fin 4) = .blocked ∧
      session.memory.hypothesis "x" = some .fails ∧ next.memory.hypothesis "x" = some .holds := by
  intro session next
  have huncertain : session.table.status (1 : Fin 4) = .uncertain := by decide +kernel
  have hblocked : session.table.status (0 : Fin 4) = .blocked := by decide +kernel
  have hfails : session.memory.hypothesis "x" = some .fails := by decide +kernel
  obtain ⟨hstatus, hterminal, -, hhypothesis, -⟩ := step_undoes_nothing reproved {}
    [.start, .answer "x" .unknown, .answer "a" .unknown] (.answer "b" .yes) nofun
  have hraised : session.table.status (1 : Fin 4) < next.table.status (1 : Fin 4) :=
    (hstatus (1 : Fin 4)).resolve_left (by decide +kernel)
  have hstill : next.table.status (0 : Fin 4) = .blocked :=
    (hterminal (0 : Fin 4) (by rw [hblocked]; rfl)).trans hblocked
  have hflipped : next.memory.hypothesis "x" = some .holds :=
    ((hhypothesis "x" .fails hfails).resolve_left (by decide +kernel)).2
  exact ⟨huncertain, hraised, hblocked, hstill, hfails, hflipped⟩

end Session

end Consultation
