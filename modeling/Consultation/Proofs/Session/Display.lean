import Consultation.Proofs.Inference.Notes
import Consultation.Proofs.Session.Override

namespace Consultation

namespace Session

variable {kb : KnowledgeBase} {limits : Limits} {session next : Session kb} {operation : Operation}

theorem Reachable.noted_proceed (h : session.Reachable limits)
    (hpasses : 1 ≤ limits.maxEvaluationPasses) : kb.Noted (session.proceed limits).board :=
  proceed_preserves (fun _ fact h => h.mark fact) (fun _ event h => h.note event)
    (h.justified.noted_converge hpasses)

/-- Going back notes everything anew, in the one pass that it takes. -/
theorem Reachable.noted_rewind (h : session.Reachable limits) {target : Fact} (kept steps : Nat)
    (hmem : target ∈ session.memory.history.map (·.1)) :
    kb.Noted (session.rewind limits kept steps target).board :=
  rewind_preserves (fun _ fact h => h.mark fact) (fun _ event h => h.note event) kept steps
    ((Reachable.clear h hmem).justified.noted_convergeOnce limits.maxPropagationIterations)

/-- Once a consultation has started, its notes are up to date. Seeding changes what
    is known without noting it, but only before that. -/
theorem Reachable.noted_accepts (h : session.Reachable limits)
    (hpasses : 1 ≤ limits.maxEvaluationPasses) (haccepts : session.Accepts limits operation next)
    (hphase : next.phase ≠ .idle) : kb.Noted next.board := by
  have hproceed : ∀ entered, session.entered operation = some entered → kb.Noted next.board := by
    intro entered hentered
    rw [haccepts.eq_proceed hentered]
    exact (h.entered haccepts hentered).noted_proceed hpasses
  cases haccepts with
  | seed _ _ hidle => exact absurd hidle hphase
  | start | answer | answerToken | restart => exact hproceed _ rfl
  | goBack steps _ _ hlt => exact h.noted_rewind _ _ (List.mem_map_of_mem (List.getElem_mem hlt))

theorem noted_run (hpasses : 1 ≤ limits.maxEvaluationPasses) (operations : List Operation)
    (hphase : ((idle kb).run limits operations).phase ≠ .idle) :
    kb.Noted ((idle kb).run limits operations).board := by
  revert hphase
  refine run_invariant (P := fun session => session.phase ≠ .idle → kb.Noted session.board)
    operations (absurd rfl) ?_
  exact fun _ _ _ hreachable _ haccepts => hreachable.noted_accepts hpasses haccepts

/-- What is shown is true: from the start of a consultation on, whatever was done
    and wherever the limits stopped it, every rule has noted exactly its conditions
    in their order, each with the value that the rules see now, and these values are
    shown. -/
theorem run_display_current (hpasses : 1 ≤ limits.maxEvaluationPasses)
    (operations : List Operation) (hphase : ((idle kb).run limits operations).phase ≠ .idle) :
    let session := (idle kb).run limits operations
    (∀ id, (session.table.get id).checked = (kb.rule id).conditions.map fun condition =>
      (condition, kb.effectiveValue session.memory condition)) ∧
    (∀ id, ∀ condition ∈ (kb.rule id).conditions,
      (session.table.get id).checkedValue condition =
        kb.effectiveValue session.memory condition) ∧
    session.rows.map (·.conditions) = kb.displayOrder.map fun id =>
      (kb.rule id).conditions.map fun condition =>
        ⟨condition, kb.effectiveValue session.memory condition, kb.isDerived condition⟩ := by
  intro session
  have hnoted : kb.Noted session.board := noted_run hpasses operations hphase
  refine ⟨hnoted, fun id condition hmem => hnoted.checkedValue_eq hmem, ?_⟩
  rw [rows, KnowledgeBase.ruleRows, List.map_map]
  exact List.map_congr_left fun id _ => hnoted.conditions_ruleRow id

/-- A fact that was answered yes and then refuted is shown as false, even where the
    limits allow but one pass of one round. -/
theorem reproved_display_current :
    let session := (idle reproved).run ⟨1, 1, 64⟩ [.start, .answer "x" .yes, .answer "a" .unknown]
    session.phase = .awaitingAnswer ∧ session.memory.finding "x" = some .holds ∧
      session.memory.hypothesis "x" = some .fails ∧
      (session.table.get (0 : Fin 4)).checkedValue "x" = some .fails ∧
      (session.table.get (0 : Fin 4)).checked = [("x", some .fails)] := by
  intro session
  have hphase : session.phase = .awaitingAnswer := by decide +kernel
  have hfinding : session.memory.finding "x" = some .holds := by decide +kernel
  have hhypothesis : session.memory.hypothesis "x" = some .fails := by decide +kernel
  have hvalue : reproved.effectiveValue session.memory "x" = some .fails := by decide +kernel
  obtain ⟨hchecked, hcheckedValue, -⟩ := @run_display_current reproved ⟨1, 1, 64⟩ (by decide)
    [.start, .answer "x" .yes, .answer "a" .unknown] (by rw [hphase]; nofun)
  have hshown := (hcheckedValue (0 : Fin 4) "x" (by decide)).trans hvalue
  have hnotes : (session.table.get (0 : Fin 4)).checked = [("x", some .fails)] := by
    refine (hchecked (0 : Fin 4)).trans ?_
    change [("x", reproved.effectiveValue session.memory "x")] = _
    rw [hvalue]
  exact ⟨hphase, hfinding, hhypothesis, hshown, hnotes⟩

end Session

end Consultation
