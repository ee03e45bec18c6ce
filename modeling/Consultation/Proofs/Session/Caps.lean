import Consultation.Proofs.Inference.Caps
import Consultation.Proofs.Session.Override
import Consultation.Proofs.Session.Rest

namespace Consultation

namespace Session

variable {kb : KnowledgeBase} {limits wider : Limits} {session next entered : Session kb}
  {operation : Operation}

/-- One call of an operation: the events that it entered in the journal, the
    consultation that it left, and what it told. -/
structure Call (kb : KnowledgeBase) where
  entered : Log
  next : Session kb
  reply : Except SessionError Reply

def call (limits : Limits) (session : Session kb) (operation : Operation) : Call kb :=
  let (next, reply) := session.step limits operation
  ⟨session.entries operation next, next, reply⟩

/-- The calls of a run, refused ones included. -/
def calls (limits : Limits) : Session kb → List Operation → List (Call kb)
  | _, [] => []
  | session, operation :: rest =>
    let call := session.call limits operation
    call :: calls limits call.next rest

/-- An operation that hands over to inference is accepted under any limits. -/
theorem Accepts.proceed (h : session.Accepts limits operation next)
    (hentered : session.entered operation = some entered) :
    session.Accepts wider operation (entered.proceed wider) := by
  cases h with
  | seed | goBack => exact absurd hentered nofun
  | start hphase =>
    obtain rfl := Option.some.inj hentered
    exact .start hphase
  | answer fact value hphase hcondition hnew =>
    obtain rfl := Option.some.inj hentered
    rw [← acceptAnswer_eq]
    exact .answer fact value hphase hcondition hnew
  | answerToken fact token hphase hcondition hnew =>
    obtain rfl := Option.some.inj hentered
    rw [← acceptAnswer_eq]
    exact .answerToken fact token hphase hcondition hnew
  | restart =>
    obtain rfl := Option.some.inj hentered
    exact .restart

/-- Wider limits lead an accepted operation to the same consultation, unless it
    enters the event of the cap. -/
theorem Reachable.accepts_congr (h : session.Reachable limits) (hwidens : wider.Widens limits)
    (haccepts : session.Accepts limits operation next)
    (huncapped : .capReached limits.maxEvaluationPasses ∉ session.entries operation next) :
    session.Accepts wider operation next := by
  have hproceed : ∀ entered, session.entered operation = some entered →
      session.Accepts wider operation next := by
    intro entered hentered
    have hsettled := h.settled_of_uncapped haccepts hentered huncapped
    have hconverge := (h.entered haccepts hentered).justified.converge_congr hwidens hsettled
    have hnext : next = entered.proceed wider := by
      rw [haccepts.eq_proceed hentered]
      simp only [Session.proceed, Session.ask, hconverge, hwidens.depth]
    rw [hnext]
    exact haccepts.proceed hentered
  cases haccepts with
  | seed fact value hphase hcondition hnew => exact .seed fact value hphase hcondition hnew
  | start | answer | answerToken | restart => exact hproceed _ rfl
  | goBack steps hphase hpositive hlt hle =>
    -- Going back makes a single pass, which no cap of passes can stop.
    have hcleared := h.clear (List.mem_map_of_mem (List.getElem_mem hlt))
    have hpass := hcleared.justified.convergeOnce_congr hwidens.iterations hwidens.iterations_wider
    have hsame : session.rewind wider (session.memory.history.length - steps) steps
        (session.memory.history[session.memory.history.length - steps]).1 =
        session.rewind limits (session.memory.history.length - steps) steps
          (session.memory.history[session.memory.history.length - steps]).1 := by
      simp only [rewind_eq, hpass]
    rw [← hsame]
    exact .goBack steps hphase hpositive hlt hle

/-- One call is the same under wider limits, unless it enters the event of the
    cap. -/
theorem Reachable.call_congr (h : session.Reachable limits) (hwidens : wider.Widens limits)
    (operation : Operation)
    (huncapped : ∀ passes, .capReached passes ∉ (session.call limits operation).entered) :
    session.call wider operation = session.call limits operation := by
  have hsame : session.step wider operation = session.step limits operation := by
    rcases step_cases limits session operation with
      ⟨next, haccepts, hstep⟩ | ⟨reason, hrefuses, hstep⟩
    · have hwider : session.Accepts wider operation next := by
        refine h.accepts_congr hwidens haccepts ?_
        simpa only [call, hstep] using huncapped limits.maxEvaluationPasses
      rw [hstep, step, perform_eq_ok_iff.mpr ⟨hwider, rfl⟩]
    · rw [hstep, step, perform_eq_error_iff.mpr hrefuses]
  rw [call, call, hsame]

theorem Reachable.calls_congr (h : session.Reachable limits) (hwidens : wider.Widens limits)
    (operations : List Operation)
    (huncapped : ∀ call ∈ session.calls limits operations, ∀ passes,
      .capReached passes ∉ call.entered) :
    session.calls wider operations = session.calls limits operations := by
  induction operations generalizing session with
  | nil => rfl
  | cons operation rest ih =>
    obtain ⟨hhead, hrest⟩ := List.forall_mem_cons.mp huncapped
    have hnext : (session.call limits operation).next.Reachable limits :=
      reachable_step h operation
    rw [calls, calls, h.call_congr hwidens operation hhead]
    exact congrArg _ (ih hnext hrest)

/-- The caps only ever stop inference. A run that never met its cap of passes goes
    the same way under every pair of caps that leaves it the room: each call
    enters the same events, tells the same or is refused on the same grounds, and
    leaves the same consultation. -/
theorem uncapped_calls_eq (hwidens : wider.Widens limits) (operations : List Operation)
    (huncapped : ∀ call ∈ (idle kb).calls limits operations, ∀ passes,
      .capReached passes ∉ call.entered) :
    (idle kb).calls wider operations = (idle kb).calls limits operations :=
  (reachable_idle kb).calls_congr hwidens operations huncapped

theorem reproved_uncapped_calls_eq :
    let operations : List Operation := [.start, .goBack 1, .answer "x" .unknown,
      .answer "a" .unknown, .answer "b" .yes, .goBack 2, .answer "a" .no, .restart]
    (idle reproved).calls {} operations = (idle reproved).calls ⟨4, 1, 64⟩ operations := by
  intro operations
  have hentered : ((idle reproved).calls ⟨4, 1, 64⟩ operations).map (·.entered) =
      [[.started 2], [], [.answered "x" .unknown, .refuted "g" "g"],
        [.answered "a" .unknown, .refuted "x" "x", .refuted "h" "h"],
        [.answered "b" .holds, .derived "a" "a", .derived "x" "x", .derived "h" "h",
          .completed 1 0],
        [.refuted "g" "g", .rolledBack "a" 2],
        [.answered "a" .fails, .refuted "x" "x", .refuted "h" "h", .completed 0 0],
        [.started 2]] := by
    decide +kernel
  have huncapped : ∀ entered ∈ ((idle reproved).calls ⟨4, 1, 64⟩ operations).map (·.entered),
      ∀ passes, .capReached passes ∉ entered := by
    rw [hentered]
    simp
  exact uncapped_calls_eq ⟨by decide, by decide, by decide, rfl⟩ operations
    fun call hcall => huncapped _ (List.mem_map_of_mem hcall)

end Session

end Consultation
