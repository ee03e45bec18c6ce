import Consultation.Proofs.Inference.Convergence
import Consultation.Report

namespace Consultation

namespace KnowledgeBase

variable {kb : KnowledgeBase} {board next final : Board kb.size} {id : kb.Id} {fact : Fact}
  {value : Truth}

/-- What is noted of the rules is up to date: of each rule its conditions in their
    order, with the values that the rules see now. -/
def Noted (kb : KnowledgeBase) (board : Board kb.size) : Prop :=
  ∀ id, (board.table.get id).checked = kb.conditionValues board.memory id

/-- A definite value that is derived is what the rules see of its fact from then
    on, whatever was answered about it. -/
theorem effectiveValue_putHypothesis (hderived : kb.isDerived fact = true)
    (hdefinite : value.isDefinite = true) (memory : Memory) (query : Fact) :
    kb.effectiveValue (memory.putHypothesis fact value) query =
      if query = fact then some value else kb.effectiveValue memory query := by
  unfold effectiveValue Memory.effectiveValue Memory.rawValue
  rw [Memory.hypothesis_putHypothesis, Memory.finding_putHypothesis]
  by_cases heq : query = fact
  · simp [heq, hderived, Option.filter, hdefinite]
  · simp [heq]

namespace Noted

theorem notesOwn (h : kb.Noted board) : kb.NotesOwn board.table := by
  intro id entry hentry
  rw [h id, conditionValues] at hentry
  obtain ⟨condition, hmem, rfl⟩ := List.mem_map.mp hentry
  exact hmem

/-- A derived value reaches the notes of all rules that have its fact as a condition. -/
theorem infer (h : kb.Noted board) (hderived : kb.isDerived fact = true)
    (hdefinite : value.isDefinite = true) (event : Event) :
    kb.Noted (kb.infer board fact value event) := by
  intro id
  have hvalues : kb.conditionValues (board.memory.putHypothesis fact value) id =
      (kb.conditionValues board.memory id).map fun entry =>
        if entry.1 = fact then (entry.1, some value) else entry := by
    rw [conditionValues, conditionValues, List.map_map]
    refine List.map_congr_left fun condition _ => ?_
    rw [effectiveValue_putHypothesis hderived hdefinite, Function.comp_apply]
    split <;> rfl
  change ((kb.noteCondition board.table fact value).get id).checked =
    kb.conditionValues (board.memory.putHypothesis fact value) id
  rw [h.notesOwn.checked_noteCondition, h id, hvalues]

theorem step (h : kb.Noted board) (hboard : kb.Justified board) (hstep : kb.Infers board next) :
    kb.Noted next := by
  cases hstep with
  | evaluate evaluated =>
    intro id
    change ((kb.evaluateRule board.memory board.table evaluated).get id).checked =
      kb.conditionValues board.memory id
    rw [evaluateRule, RuleTable.get_set]
    split
    · next heq => rw [heq]
    · exact h id
  | derive id => exact h.infer (isDerived_iff.mpr ⟨id, rfl⟩) rfl _
  | promote id hfired hcombinator condition hmem hfinding hnew =>
    exact absurd (hboard.not_promotable hfired hcombinator hmem hfinding) hnew
  | refute id => exact h.infer (isDerived_iff.mpr ⟨id, rfl⟩) rfl _

theorem steps (h : kb.Noted board) (hboard : kb.Justified board)
    (hsteps : kb.InfersAll board final) : kb.Noted final :=
  hboard.preserves (P := kb.Noted) hsteps
    (fun _ _ hbefore hstep hnoted => hnoted.step hbefore hstep) h

theorem mark (h : kb.Noted board) (fact : Fact) :
    kb.Noted { board with table := kb.markEvaluating board.table fact } := by
  intro id
  exact (checked_markEvaluating board.table fact id).trans (h id)

theorem note (h : kb.Noted board) (event : Event) :
    kb.Noted { board with log := board.log ++ [event] } := h

/-- A condition that a rule repeats has one value, so it is found whichever of its
    notes is read. -/
theorem checkedValue_eq (h : kb.Noted board) (hmem : fact ∈ (kb.rule id).conditions) :
    (board.table.get id).checkedValue fact = kb.effectiveValue board.memory fact := by
  rw [RuleState.checkedValue, h id, conditionValues, List.lookup_graph _ hmem, Option.join_some]

end Noted

/-- What is shown of a rule's conditions, where the notes are up to date. -/
theorem Noted.conditions_ruleRow (h : kb.Noted board) (id : kb.Id) :
    (kb.ruleRow board.table id).conditions = (kb.rule id).conditions.map fun condition =>
      ⟨condition, kb.effectiveValue board.memory condition, kb.isDerived condition⟩ := by
  refine List.map_congr_left fun condition hmem => ?_
  rw [h.checkedValue_eq hmem]

/-- Evaluation notes the values anew, whatever was noted before. -/
theorem noted_evaluated (board : Board kb.size) : kb.Noted (kb.evaluated board) :=
  fun id => checked_evaluateList kb.ids board.table (.inl (kb.mem_ids id))

theorem Justified.noted_convergeOnce (h : kb.Justified board) (iterations : Nat) :
    kb.Noted (kb.convergeOnce iterations board).1 :=
  (noted_evaluated board).steps h.evaluated (infersAll_propagate iterations _)

/-- One pass is enough to bring the notes up to date, and they stay so however
    soon the limits stop a convergence. -/
theorem Justified.noted_converge (h : kb.Justified board) {limits : Limits}
    (hpasses : 1 ≤ limits.maxEvaluationPasses) : kb.Noted (kb.converge limits board) := by
  refine converge_preserves (fun _ event h => h.note event) ?_
  obtain ⟨cap, hcap⟩ := Nat.exists_eq_add_of_le' hpasses
  have hpass := h.noted_convergeOnce limits.maxPropagationIterations
  have hnext := h.steps (infersAll_convergeOnce limits.maxPropagationIterations board)
  rw [hcap, convergeWithin]
  split
  · next heq => rwa [heq] at hpass
  · next heq =>
    rw [heq] at hpass hnext
    exact hpass.steps hnext (infersAll_convergeWithin _ _ _)

/-- A settled board on which the notes are up to date is evaluated to itself. -/
theorem Settled.evaluateAll_eq (h : kb.Settled board) (hnoted : kb.Noted board) :
    kb.evaluateAll board.memory board.table = (board.table, 0) :=
  evaluateList_eq_self kb.ids board.table
    (fun id => evaluatedStatus_eq_self_iff.mpr (h.decided id)) hnoted

end KnowledgeBase

end Consultation
