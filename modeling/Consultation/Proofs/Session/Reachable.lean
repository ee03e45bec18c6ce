import Consultation.Proofs.Inference.Convergence
import Consultation.Proofs.Memory
import Consultation.Proofs.Session.Accepted

namespace Consultation

/-- The operations that draw every inference and ask anew. -/
def Operation.Proceeds : Operation → Prop
  | .start | .answer _ _ | .answerToken _ _ | .restart => True
  | .seed _ _ | .goBack _ => False

namespace Session

variable {kb : KnowledgeBase} {limits : Limits} {session : Session kb}

/-- The board of a consultation is one that it can come to. -/
abbrev Reachable (limits : Limits) (session : Session kb) : Prop :=
  kb.Reachable limits.maxPropagationIterations session.board

theorem reachable_idle (kb : KnowledgeBase) : (idle kb).Reachable limits :=
  .fresh .empty [] rfl (by intro fact value h; cases h)

section

variable {P : Board kb.size → Prop}
  (hmark : ∀ board fact, P board → P { board with table := kb.markEvaluating board.table fact })
  (hnote : ∀ board event, P board → P { board with log := board.log ++ [event] })

include hmark hnote

/-- Beyond its inferences, proceeding only asks a fact or enters an event. -/
theorem proceed_preserves (hconverged : P (kb.converge limits session.board)) :
    P (session.proceed limits).board := by
  unfold Session.proceed Session.ask
  split
  · exact hmark _ _ hconverged
  · exact hnote _ _ hconverged

/-- Beyond its one pass over the kept answers, going back only asks anew what was
    asked and enters an event. -/
theorem rewind_preserves {target : Fact} (kept steps : Nat)
    (hpass : P (kb.convergeOnce limits.maxPropagationIterations
      ⟨session.memory.clearAfter target, .fresh kb.size, session.log⟩).1) :
    P (session.rewind limits kept steps target).board :=
  hnote _ _ (KnowledgeBase.preserves_foldl_markEvaluating hmark _ hpass)

end

theorem Reachable.proceed (h : session.Reachable limits) :
    (session.proceed limits).Reachable limits :=
  proceed_preserves (fun _ fact h => h.mark fact) (fun _ event h => h.note event)
    (KnowledgeBase.Reachable.converge h)

/-- Under ample limits inference has come to rest when the next question is
    asked. -/
theorem Reachable.settled_proceed (h : session.Reachable limits) (hlimits : limits.Ample kb) :
    kb.Settled (session.proceed limits).board :=
  proceed_preserves (fun _ fact h => h.mark fact) (fun _ event h => h.note event)
    (KnowledgeBase.Reachable.settled_converge h hlimits)

theorem Reachable.begin (h : session.Reachable limits) : (session.begin limits).Reachable limits :=
  Reachable.proceed (h.note _)

/-- The consultation with an answer entered, before anything is inferred. -/
def enterAnswer (session : Session kb) (fact : Fact) (value : Answer)
    (normalizedFrom : Option String) : Session kb :=
  let noted := match normalizedFrom with
    | some token => session.record (.answerNormalized fact token)
    | none => session
  (noted.putFinding fact value.truth).record (.answered fact value.truth)

theorem acceptAnswer_eq (session : Session kb) (fact : Fact) (value : Answer)
    (normalizedFrom : Option String) :
    session.acceptAnswer limits fact value normalizedFrom =
      (session.enterAnswer fact value normalizedFrom).proceed limits := rfl

theorem Reachable.enterAnswer (h : session.Reachable limits) {fact : Fact} (value : Answer)
    (normalizedFrom : Option String) (hcondition : kb.isCondition fact = true)
    (hnew : session.memory.finding fact = none) :
    (session.enterAnswer fact value normalizedFrom).Reachable limits := by
  cases normalizedFrom with
  | none => exact (KnowledgeBase.Reachable.answer h fact value.truth hcondition hnew).note _
  | some token =>
    have hnoted : (session.record (.answerNormalized fact token)).Reachable limits := h.note _
    exact (hnoted.answer fact value.truth hcondition hnew).note _

theorem Reachable.acceptAnswer (h : session.Reachable limits) {fact : Fact} (value : Answer)
    (normalizedFrom : Option String) (hcondition : kb.isCondition fact = true)
    (hnew : session.memory.finding fact = none) :
    (session.acceptAnswer limits fact value normalizedFrom).Reachable limits := by
  rw [acceptAnswer_eq]
  exact Reachable.proceed (h.enterAnswer value normalizedFrom hcondition hnew)

theorem Reachable.settled_acceptAnswer (h : session.Reachable limits) (hlimits : limits.Ample kb)
    {fact : Fact} (value : Answer) (normalizedFrom : Option String)
    (hcondition : kb.isCondition fact = true) (hnew : session.memory.finding fact = none) :
    kb.Settled (session.acceptAnswer limits fact value normalizedFrom).board := by
  rw [acceptAnswer_eq]
  exact Reachable.settled_proceed (h.enterAnswer value normalizedFrom hcondition hnew) hlimits

/-- A consultation that was taken back starts from the kept answers, with
    nothing derived. -/
theorem Reachable.clear (h : session.Reachable limits) {target : Fact}
    (hmem : target ∈ session.memory.history.map (·.1)) :
    kb.Reachable limits.maxPropagationIterations
      ⟨session.memory.clearAfter target, .fresh kb.size, session.log⟩ := by
  obtain ⟨hhypotheses, -, hfinding⟩ := Memory.clearAfter_of_mem hmem
  refine .fresh _ _ hhypotheses fun fact value hvalue => ?_
  rw [hfinding] at hvalue
  split at hvalue
  · cases hvalue
  · exact h.isCondition_of_finding hvalue

theorem Reachable.rewind (h : session.Reachable limits) {target : Fact} (kept steps : Nat)
    (hmem : target ∈ session.memory.history.map (·.1)) :
    (session.rewind limits kept steps target).Reachable limits :=
  rewind_preserves (fun _ fact h => h.mark fact) (fun _ event h => h.note event) kept steps
    (Reachable.clear h hmem).pass

/-- The consultation as an operation hands it over to inference, with the journal
    opened or the answer entered. Seeding infers nothing, and going back infers
    anew from what is kept. -/
def entered (session : Session kb) : Operation → Option (Session kb)
  | .start => some (session.record (.started kb.goals.length))
  | .answer fact value => some (session.enterAnswer fact value none)
  | .answerToken fact token =>
    some (session.enterAnswer fact (Answer.read token).value
      (if (Answer.read token).normalized then some token else none))
  | .restart => some ((idle kb).record (.started kb.goals.length))
  | .seed _ _ | .goBack _ => none

theorem exists_entered (session : Session kb) {operation : Operation}
    (hproceeds : operation.Proceeds) : ∃ entered, session.entered operation = some entered := by
  cases operation with
  | start | answer | answerToken | restart => exact ⟨_, rfl⟩
  | seed | goBack => exact hproceeds.elim

theorem Accepts.eq_proceed {operation : Operation} {next entered : Session kb}
    (h : session.Accepts limits operation next)
    (hentered : session.entered operation = some entered) : next = entered.proceed limits := by
  cases h with
  | seed | goBack => exact absurd hentered nofun
  | start | restart =>
    obtain rfl := Option.some.inj hentered
    rfl
  | answer | answerToken =>
    obtain rfl := Option.some.inj hentered
    exact acceptAnswer_eq session _ _ _

theorem Reachable.entered {operation : Operation} {next entered : Session kb}
    (h : session.Reachable limits) (haccepts : session.Accepts limits operation next)
    (hentered : session.entered operation = some entered) : entered.Reachable limits := by
  cases haccepts with
  | seed | goBack => exact absurd hentered nofun
  | start =>
    obtain rfl := Option.some.inj hentered
    exact h.note _
  | answer _ _ _ hcondition hnew | answerToken _ _ _ hcondition hnew =>
    obtain rfl := Option.some.inj hentered
    exact h.enterAnswer _ _ hcondition hnew
  | restart =>
    obtain rfl := Option.some.inj hentered
    exact (reachable_idle kb).note _

/-- No operation leaves the boards that a consultation can come to. -/
theorem Reachable.accepts (h : session.Reachable limits) {operation : Operation}
    {next : Session kb} (haccepts : session.Accepts limits operation next) :
    next.Reachable limits := by
  cases haccepts with
  | seed fact value _ hcondition hnew =>
    exact (KnowledgeBase.Reachable.answer h fact (.ofBool value) hcondition hnew).note _
  | start => exact h.begin
  | answer fact value _ hcondition hnew => exact h.acceptAnswer value none hcondition hnew
  | answerToken fact token _ hcondition hnew => exact h.acceptAnswer _ _ hcondition hnew
  | goBack steps _ _ hlt => exact h.rewind _ _ (List.mem_map_of_mem (List.getElem_mem hlt))
  | restart => exact (reachable_idle kb).begin

theorem reachable_step (h : session.Reachable limits) (operation : Operation) :
    (session.step limits operation).1.Reachable limits := by
  rcases step_cases limits session operation with ⟨next, haccepts, hstep⟩ | ⟨reason, -, hstep⟩
  · rw [hstep]
    exact h.accepts haccepts
  · rw [hstep]
    exact h

theorem reachable_run (kb : KnowledgeBase) (limits : Limits) (operations : List Operation) :
    ((idle kb).run limits operations).Reachable limits :=
  run_preserves operations (fun _ _ _ _ h haccepts => h.accepts haccepts) (reachable_idle kb)

/-- A property that every accepted operation of a run keeps, from wherever a
    consultation can come to, is kept by the whole run. -/
theorem Reachable.run_preserves {P : Session kb → Prop} (h : session.Reachable limits)
    (operations : List Operation) (hsession : P session)
    (hstep : ∀ session next, ∀ operation ∈ operations, session.Reachable limits → P session →
      Accepts limits session operation next → P next) :
    P (session.run limits operations) := by
  have hboth : (session.run limits operations).Reachable limits ∧
      P (session.run limits operations) := by
    refine Session.run_preserves (P := fun session => session.Reachable limits ∧ P session)
      operations ?_ ⟨h, hsession⟩
    rintro session next operation hmem ⟨hreachable, hsession⟩ haccepts
    exact ⟨hreachable.accepts haccepts,
      hstep session next operation hmem hreachable hsession haccepts⟩
  exact hboth.2

/-- A property that holds at the outset, and that every accepted operation keeps
    from wherever a consultation can come to, holds of every run. -/
theorem run_invariant {P : Session kb → Prop} (operations : List Operation) (hidle : P (idle kb))
    (hstep : ∀ session next operation, session.Reachable limits → P session →
      Accepts limits session operation next → P next) :
    P ((idle kb).run limits operations) :=
  (reachable_idle kb).run_preserves operations hidle
    fun session next operation _ => hstep session next operation

end Session

end Consultation
