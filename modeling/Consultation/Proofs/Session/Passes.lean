import Consultation.Proofs.Inference.Passes
import Consultation.Proofs.Session.Answers
import Consultation.Proofs.Session.Soundness

namespace Consultation

namespace Session

variable {kb : KnowledgeBase} {limits : Limits} {session next : Session kb} {operation : Operation}

/-- The boards from which an operation runs passes. Going back runs one pass over
    the answers that it keeps, with nothing derived and no rule looked at. -/
def passStarts (limits : Limits) (session : Session kb) : Operation → List (Board kb.size)
  | .goBack steps =>
    (session.memory.history[session.memory.history.length - steps]?.map fun entry =>
      (⟨session.memory.clearAfter entry.1, .fresh kb.size, session.log⟩ : Board kb.size)).toList
  | operation =>
    (session.entered operation).elim [] fun entered =>
      kb.passStarts limits.maxPropagationIterations limits.maxEvaluationPasses entered.board

theorem passStarts_of_entered {entered : Session kb}
    (hentered : session.entered operation = some entered) :
    session.passStarts limits operation =
      kb.passStarts limits.maxPropagationIterations limits.maxEvaluationPasses entered.board := by
  cases operation with
  | goBack => exact absurd hentered nofun
  | seed | start | answer | answerToken | restart =>
    simp only [passStarts, hentered, Option.elim_some]

/-- The passes of an operation set out from the board that it has prepared, each from where
    those before it came to. -/
theorem passStarts_eq_afterPasses {entered : Session kb}
    (hentered : session.entered operation = some entered) :
    session.passStarts limits operation =
      (List.range (kb.convergeWithin limits.maxPropagationIterations limits.maxEvaluationPasses
        entered.board).2.passes).map
        (kb.afterPasses limits.maxPropagationIterations · entered.board) := by
  rw [passStarts_of_entered hentered, KnowledgeBase.passStarts_eq]

theorem passStarts_goBack {steps : Nat}
    (hlt : session.memory.history.length - steps < session.memory.history.length) :
    session.passStarts limits (.goBack steps) =
      [⟨session.memory.clearAfter
        (session.memory.history[session.memory.history.length - steps]).1,
        .fresh kb.size, session.log⟩] := by
  rw [passStarts, List.getElem?_eq_getElem hlt]
  rfl

/-- Going back comes to what its pass infers, and then enters only its own event. -/
theorem Accepts.exists_passStarts_goBack {steps : Nat}
    (haccepts : session.Accepts limits (.goBack steps) next) :
    ∃ start target, session.passStarts limits (.goBack steps) = [start] ∧
      next.memory = (kb.convergeOnce limits.maxPropagationIterations start).1.memory ∧
      next.log = (kb.convergeOnce limits.maxPropagationIterations start).1.log ++
        [.rolledBack target steps] := by
  cases haccepts with
  | goBack _ _ _ hlt =>
    rw [rewind_eq]
    exact ⟨_, _, passStarts_goBack hlt, rfl, rfl⟩

theorem Reachable.of_mem_passStarts (h : session.Reachable limits)
    (haccepts : session.Accepts limits operation next) {start : Board kb.size}
    (hmem : start ∈ session.passStarts limits operation) :
    kb.Reachable limits.maxPropagationIterations start := by
  have hproceed : ∀ entered, session.entered operation = some entered →
      kb.Reachable limits.maxPropagationIterations start := by
    intro entered hentered
    rw [passStarts_of_entered hentered] at hmem
    exact KnowledgeBase.Reachable.of_mem_passStarts (h.entered haccepts hentered) hmem
  cases haccepts with
  | seed => exact absurd hmem List.not_mem_nil
  | start | answer | answerToken | restart => exact hproceed _ rfl
  | goBack steps _ _ hlt =>
    rw [passStarts_goBack hlt] at hmem
    rw [List.mem_singleton.mp hmem]
    exact Reachable.clear h (List.mem_map_of_mem (List.getElem_mem hlt))

theorem Reachable.allJournaled_proceed (h : session.Reachable limits)
    (hlog : kb.AllJournaled limits session.log) :
    kb.AllJournaled limits (session.proceed limits).log := by
  have hconverged := KnowledgeBase.Reachable.allJournaled_converge h hlog
  unfold Session.proceed Session.ask
  split
  · exact hconverged
  · exact hconverged.append (.completed _ _)

theorem allJournaled_entered (hlog : kb.AllJournaled limits session.log) {entered : Session kb}
    (hentered : session.entered operation = some entered) :
    kb.AllJournaled limits entered.log := by
  have hanswer (fact : Fact) (value : Answer) (normalizedFrom : Option String) :
      kb.AllJournaled limits (session.enterAnswer fact value normalizedFrom).log := by
    cases normalizedFrom with
    | none => exact hlog.append (.answered _ _)
    | some token =>
      have hnoted := hlog.append (.answerNormalized fact token)
      exact hnoted.append (.answered _ _)
  cases operation with
  | seed | goBack => exact absurd hentered nofun
  | start =>
    obtain rfl := Option.some.inj hentered
    exact hlog.append .started
  | answer | answerToken =>
    obtain rfl := Option.some.inj hentered
    exact hanswer _ _ _
  | restart =>
    obtain rfl := Option.some.inj hentered
    have hempty : kb.AllJournaled limits [] := fun event hevent => absurd hevent List.not_mem_nil
    exact hempty.append .started

theorem Reachable.allJournaled_accepts (h : session.Reachable limits)
    (haccepts : session.Accepts limits operation next)
    (hlog : kb.AllJournaled limits session.log) : kb.AllJournaled limits next.log := by
  have hproceed : ∀ entered, session.entered operation = some entered →
      kb.AllJournaled limits next.log := by
    intro entered hentered
    rw [haccepts.eq_proceed hentered]
    exact Reachable.allJournaled_proceed (h.entered haccepts hentered)
      (allJournaled_entered hlog hentered)
  cases haccepts with
  | seed => exact hlog.append (.seeded _ _)
  | start | answer | answerToken | restart => exact hproceed _ rfl
  | goBack steps _ _ hlt =>
    have hcleared := (Reachable.clear h (List.mem_map_of_mem (List.getElem_mem hlt))).justified
    have hpass := hcleared.allJournaled_steps
      (KnowledgeBase.infersAll_convergeOnce limits.maxPropagationIterations _) hlog
    rw [rewind_eq]
    exact hpass.append (.rolledBack _ _)

/-- Nothing else is ever found in a journal. -/
theorem allJournaled_run (kb : KnowledgeBase) (limits : Limits) (operations : List Operation) :
    kb.AllJournaled limits ((idle kb).run limits operations).log :=
  run_invariant (P := fun session => kb.AllJournaled limits session.log) operations
    (fun _ hevent => absurd hevent List.not_mem_nil)
    fun _ _ _ hreachable hlog haccepts => hreachable.allJournaled_accepts haccepts hlog

/-- Inference comes to rest within two passes for each rule and one more, over
    any rules and whatever was done before. An operation that asks anew runs its
    passes from the board that it has prepared, and asks on the one that they come
    to, on which another pass does nothing, unless the cap leaves no room for so
    many passes; then the note of the cap is added. With room for them, that note is
    never entered, however few rounds a propagation may take. Going back runs one
    pass. And a propagation that may take two rounds or more takes no more than two,
    after which another round does nothing. -/
theorem run_converges (kb : KnowledgeBase) (limits : Limits) (operations : List Operation) :
    let session := (idle kb).run limits operations
    (2 * kb.size + 1 ≤ limits.maxEvaluationPasses → ∀ passes, .capReached passes ∉ session.log) ∧
    ∀ operation next reply, session.perform limits operation = .ok (next, reply) →
      (∀ entered, session.entered operation = some entered →
        let converged := kb.convergeWithin limits.maxPropagationIterations
          limits.maxEvaluationPasses entered.board
        let final := kb.converge limits entered.board
        next = ask limits { entered with board := final, phase := .processing } ∧
        converged.2.passes ≤ 2 * kb.size + 1 ∧
        converged.2.passes ≤ limits.maxEvaluationPasses ∧
        session.passStarts limits operation = (List.range converged.2.passes).map
          (kb.afterPasses limits.maxPropagationIterations · entered.board) ∧
        converged.1 = kb.afterPasses limits.maxPropagationIterations converged.2.passes
          entered.board ∧
        (converged.2.settled = true ∧ final = converged.1 ∧
            kb.convergeOnce limits.maxPropagationIterations final = (final, false) ∨
          converged.2.settled = false ∧
            final = { converged.1 with
              log := converged.1.log ++ [.capReached limits.maxEvaluationPasses] } ∧
            converged.2.passes = limits.maxEvaluationPasses ∧
            limits.maxEvaluationPasses < 2 * kb.size + 1)) ∧
      (∀ steps, operation = .goBack steps →
        ∃ start target, session.passStarts limits operation = [start] ∧
          next.memory = (kb.convergeOnce limits.maxPropagationIterations start).1.memory ∧
          next.log = (kb.convergeOnce limits.maxPropagationIterations start).1.log ++
            [.rolledBack target steps]) ∧
      (2 ≤ limits.maxPropagationIterations → ∀ start ∈ session.passStarts limits operation,
        let propagated := kb.propagate limits.maxPropagationIterations (kb.evaluated start)
        propagated.2.reachedFixpoint = true ∧ propagated.2.iterations ≤ 2 ∧
          kb.propagateOnce propagated.1 = (propagated.1, false)) := by
  intro session
  have hreachable : session.Reachable limits := reachable_run kb limits operations
  refine ⟨fun hpasses passes hevent => ?_, fun operation next reply hperform => ?_⟩
  · cases allJournaled_run kb limits operations _ hevent with
    | capReached hcap => omega
  have haccepts := accepts_of_perform hperform
  refine ⟨fun entered hentered => ?_, fun steps heq => ?_, fun hiterations start hstart => ?_⟩
  · have hconverge := KnowledgeBase.Reachable.converge_cases
      (hreachable.entered haccepts hentered)
    exact ⟨haccepts.eq_proceed hentered, hconverge.1, hconverge.2.1,
      passStarts_eq_afterPasses hentered, KnowledgeBase.convergeWithin_eq_afterPasses ..,
      hconverge.2.2⟩
  · subst heq
    exact haccepts.exists_passStarts_goBack
  · have hstarted := hreachable.of_mem_passStarts haccepts hstart
    exact hstarted.justified.evaluated.propagate_reaches hiterations

theorem looped_run_converges :
    let limits : Limits := {}
    let session := (idle looped).run limits [.seed "b" true, .start]
    let entered := session.enterAnswer "a" .yes none
    let final := looped.converge limits entered.board
    (∀ passes, .capReached passes ∉ session.log) ∧
    session.acceptAnswer limits "a" .yes none =
      ask limits { entered with board := final, phase := .processing } ∧
    looped.convergeOnce limits.maxPropagationIterations final = (final, false) ∧
    (session.passStarts limits (.answer "a" .yes)).length ≤ 2 * looped.size + 1 ∧
    ∀ start ∈ session.passStarts limits (.answer "a" .yes),
      (looped.propagate limits.maxPropagationIterations
        (looped.evaluated start)).2.iterations ≤ 2 := by
  intro limits session entered final
  have hpasses : 2 * looped.size + 1 ≤ limits.maxEvaluationPasses := by decide
  have hiterations : 2 ≤ limits.maxPropagationIterations := by decide
  obtain ⟨hlog, hoperation⟩ := run_converges looped limits [.seed "b" true, .start]
  have hperform : session.perform limits (.answer "a" .yes) =
      .ok (session.acceptAnswer limits "a" .yes none,
        .answered ((session.acceptAnswer limits "a" .yes none).answerOutcome none)) :=
    perform_answer .yes (by decide +kernel) (by decide +kernel) (by decide +kernel)
  obtain ⟨hentered, -, hpropagated⟩ := hoperation _ _ _ hperform
  obtain ⟨hnext, hbound, -, hstarts, -, hconverged⟩ := hentered entered rfl
  have hlength : (session.passStarts limits (.answer "a" .yes)).length ≤ 2 * looped.size + 1 := by
    rw [hstarts, List.length_map, List.length_range]
    exact hbound
  have hsettled := hconverged.resolve_right fun hcapped => Nat.not_lt.mpr hpasses hcapped.2.2.2
  exact ⟨hlog hpasses, hnext, hsettled.2.2, hlength,
    fun start hstart => (hpropagated hiterations start hstart).2.1⟩

end Session

end Consultation
