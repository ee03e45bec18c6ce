import Consultation.Proofs.Inference.Agreement
import Consultation.Proofs.Inference.Lockstep
import Consultation.Proofs.Inference.Question
import Consultation.Proofs.Knowledge.Reordering
import Consultation.Report

namespace Consultation

/-- Conditional goals that differ in the order of their unknown conditions and in
    their categories at most. -/
structure Conditional.Reorders (conditional other : Conditional) : Prop where
  action : other.action = conditional.action
  unknownConditions : other.unknownConditions.Perm conditional.unknownConditions

namespace KnowledgeBase.Reorders

variable {kb other : KnowledgeBase} (h : kb.Reorders other)

section

include h

theorem effectiveValue_eq (memory : Memory) (fact : Fact) :
    other.effectiveValue memory fact = kb.effectiveValue memory fact := by
  unfold effectiveValue
  rw [h.isDerived_eq]

/-- What is decided about a rule does not depend on the order of its conditions. -/
theorem decision_eq {left : RuleTable kb.size} {right : RuleTable other.size}
    (hresolved : ∀ id,
      (right.status (h.counterpart id)).isResolved = (left.status id).isResolved)
    (memory : Memory) (id : kb.Id) :
    other.decision memory right (h.counterpart id) = kb.decision memory left id := by
  have hrule := h.rule_counterpart id
  have haffirmed : other.Affirmed memory (h.counterpart id) ↔ kb.Affirmed memory id := by
    simp only [Affirmed, h.effectiveValue_eq]
    exact hrule.bodyHolds_iff _
  have hdenied : other.Denied memory (h.counterpart id) ↔ kb.Denied memory id := by
    simp only [Denied, h.effectiveValue_eq]
    exact hrule.bodyFails_iff _
  have hopen (fact : Fact) : other.isOpen right fact = kb.isOpen left fact := by
    simp only [isOpen, h.concluding_eq, List.any_map, Function.comp_def, hresolved]
  have hexhausted : other.Exhausted memory right (h.counterpart id) ↔
      kb.Exhausted memory left id := by
    simp only [Exhausted, h.effectiveValue_eq, hopen, hrule.combinator, hrule.conditions.mem_iff]
  have hdecides := kb.decides memory left id
  generalize kb.decision memory left id = decided at hdecides ⊢
  apply Decides.eq
  cases hdecides with
  | fired h => exact .fired (haffirmed.mpr h)
  | blocked h => exact .blocked (hdenied.mpr h)
  | uncertain hnot hnot' h =>
    exact .uncertain (mt haffirmed.mp hnot) (mt hdenied.mp hnot') (hexhausted.mpr h)
  | undecided hnot hnot' h =>
    exact .undecided (mt haffirmed.mp hnot) (mt hdenied.mp hnot') (mt hexhausted.mp h)

theorem conditionValues_perm (memory : Memory) (id : kb.Id) :
    (other.conditionValues memory (h.counterpart id)).Perm (kb.conditionValues memory id) := by
  simp only [conditionValues, h.effectiveValue_eq]
  exact (h.rule_counterpart id).conditions.map _

theorem unknownConditions_perm (memory : Memory) (id : kb.Id) :
    (other.unknownConditions memory (h.counterpart id)).Perm (kb.unknownConditions memory id) := by
  simp only [unknownConditions, h.effectiveValue_eq]
  exact (h.rule_counterpart id).conditions.filter _

end

/-- Boards that tell the same of both knowledge bases, but for the order in which
    the conditions of a rule are noted and for which rules are shown as asked. -/
structure Alike (left : Board kb.size) (right : Board other.size) : Prop where
  memory : right.memory = left.memory
  log : right.log = left.log
  unmarked : ∀ id,
    (right.table.status (h.counterpart id)).unmarked = (left.table.status id).unmarked
  checked : ∀ id,
    (right.table.get (h.counterpart id)).checked.Perm (left.table.get id).checked

namespace Alike

variable {h} {left : Board kb.size} {right : Board other.size}

theorem congr_status (halike : h.Alike left right) {α : Type} (p : RuleStatus → α)
    (hp : p .evaluating = p .pending) (id : kb.Id) :
    p (right.table.status (h.counterpart id)) = p (left.table.status id) :=
  RuleStatus.congr_of_unmarked_eq p hp (halike.unmarked id)

theorem fired_iff (halike : h.Alike left right) (id : kb.Id) :
    right.table.status (h.counterpart id) = .fired ↔ left.table.status id = .fired :=
  Eq.to_iff (halike.congr_status (· = .fired) (by simp) id)

theorem decision_eq (halike : h.Alike left right) (id : kb.Id) :
    other.decision right.memory right.table (h.counterpart id) =
      kb.decision left.memory left.table id := by
  rw [halike.memory]
  exact h.decision_eq (halike.congr_status RuleStatus.isResolved rfl) left.memory id

theorem inferred_iff (halike : h.Alike left right) (id : kb.Id) :
    other.Inferred right (h.counterpart id) ↔ kb.Inferred left id := by
  have hrule := h.rule_counterpart id
  have hnegative (query : kb.Id) := halike.congr_status RuleStatus.isNegative rfl query
  have hfailed : (∀ query ∈ other.concluding (kb.rule id).action,
      (right.table.status query).isNegative = true) ↔
      ∀ query ∈ kb.concluding (kb.rule id).action,
        (left.table.status query).isNegative = true := by
    simp only [h.concluding_eq, List.forall_mem_map, hnegative]
  constructor
  · rintro ⟨hfired, hrefuted⟩
    rw [hrule.action, halike.memory] at hfired hrefuted
    rw [hrule.combinator] at hrefuted
    exact ⟨fun h => hfired ((halike.fired_iff id).mpr h),
      fun hall h => hrefuted hall (hfailed.mpr h)⟩
  · rintro ⟨hfired, hrefuted⟩
    constructor
    · rw [hrule.action, halike.memory]
      exact fun h => hfired ((halike.fired_iff id).mp h)
    · rw [hrule.action, hrule.combinator, halike.memory]
      exact fun hall h => hrefuted hall (hfailed.mp h)

/-- Corresponding rules are evaluated to the same status, and both or neither take
    another one than before. -/
private theorem evaluated_status (halike : h.Alike left right) (id : kb.Id) :
    (other.evaluatedStatus right.memory right.table (h.counterpart id)).unmarked =
        (kb.evaluatedStatus left.memory left.table id).unmarked ∧
      other.reclassifies right.memory right.table (h.counterpart id) =
        kb.reclassifies left.memory left.table id := by
  have hleft : kb.evaluatedStatus left.memory left.table id =
      if (left.table.status id).isTerminal then left.table.status id
      else (kb.decision left.memory left.table id).getD (left.table.status id) := rfl
  have hright : other.evaluatedStatus right.memory right.table (h.counterpart id) =
      if (right.table.status (h.counterpart id)).isTerminal then
        right.table.status (h.counterpart id)
      else (kb.decision left.memory left.table id).getD
        (right.table.status (h.counterpart id)) := by
    rw [← halike.decision_eq id]
    rfl
  have hresolved : ∀ status, kb.decision left.memory left.table id = some status →
      status.isResolved = true := fun _ => isResolved_of_decision
  have hunmarked := halike.unmarked id
  unfold reclassifies
  rw [hleft, hright]
  generalize kb.decision left.memory left.table id = decided at hresolved ⊢
  -- Only a resolved status is ever decided, which differs from both `pending` and
  -- `evaluating`.
  constructor
  · refine RuleStatus.congr_of_unmarked_eq
      (fun status => (if status.isTerminal then status else decided.getD status).unmarked) ?_
      hunmarked
    cases decided <;> rfl
  · refine RuleStatus.congr_of_unmarked_eq
      (fun status => (if status.isTerminal then status else decided.getD status) != status) ?_
      hunmarked
    cases decided with
    | none => rfl
    | some status =>
      rcases RuleStatus.isResolved_iff.mp (hresolved status rfl) with rfl | rfl | rfl <;> rfl

/-- Evaluating corresponding rules keeps boards alike. -/
theorem evaluate (halike : h.Alike left right) (id : kb.Id) :
    h.Alike { left with table := kb.evaluateRule left.memory left.table id }
      { right with
        table := other.evaluateRule right.memory right.table (h.counterpart id) } := by
  refine ⟨halike.memory, halike.log, fun query => ?_, fun query => ?_⟩
  · simp only [status_evaluateRule, h.counterpart_injective.eq_iff]
    split
    · exact (halike.evaluated_status id).1
    · exact halike.unmarked query
  · simp only [evaluateRule, RuleTable.get_set, h.counterpart_injective.eq_iff]
    split
    · rw [halike.memory]
      exact h.conditionValues_perm left.memory id
    · exact halike.checked query

theorem infer (halike : h.Alike left right) (fact : Fact) (value : Truth) (event : Event) :
    h.Alike (kb.infer left fact value event) (other.infer right fact value event) := by
  refine ⟨?_, ?_, fun id => ?_, fun id => ?_⟩
  · rw [memory_infer, memory_infer, halike.memory]
  · rw [log_infer, log_infer, halike.log]
  · rw [status_infer, status_infer]
    exact halike.unmarked id
  · simp only [KnowledgeBase.infer, noteCondition, RuleTable.get_updateWhere,
      (h.rule_counterpart id).conditions.mem_iff]
    split
    · exact (halike.checked id).map _
    · exact halike.checked id

theorem markLeft (halike : h.Alike left right) (fact : Fact) :
    h.Alike { left with table := kb.markEvaluating left.table fact } right := by
  refine ⟨halike.memory, halike.log, fun id => ?_, fun id => ?_⟩
  · exact (halike.unmarked id).trans
      (congr_status_markEvaluating RuleStatus.unmarked rfl left.table fact id).symm
  · rw [checked_markEvaluating]
    exact halike.checked id

theorem markRight (halike : h.Alike left right) (fact : Fact) :
    h.Alike left { right with table := other.markEvaluating right.table fact } := by
  refine ⟨halike.memory, halike.log, fun id => ?_, fun id => ?_⟩
  · exact (congr_status_markEvaluating RuleStatus.unmarked rfl right.table fact _).trans
      (halike.unmarked id)
  · rw [checked_markEvaluating]
    exact halike.checked id

theorem note (halike : h.Alike left right) (event : Event) :
    h.Alike { left with log := left.log ++ [event] } { right with log := right.log ++ [event] } :=
  ⟨halike.memory, by rw [halike.log], halike.unmarked, halike.checked⟩

theorem answer (halike : h.Alike left right) (fact : Fact) (value : Truth) :
    h.Alike { left with memory := left.memory.putFinding fact value }
      { right with memory := right.memory.putFinding fact value } :=
  ⟨by rw [halike.memory], halike.log, halike.unmarked, halike.checked⟩

end Alike

theorem alike_fresh (memory : Memory) (log : Log) :
    h.Alike ⟨memory, .fresh kb.size, log⟩ ⟨memory, .fresh other.size, log⟩ := by
  refine ⟨rfl, rfl, fun id => ?_, fun id => ?_⟩
  · rw [RuleTable.status_fresh, RuleTable.status_fresh]
  · rw [RuleTable.get_fresh, RuleTable.get_fresh]

/-- Inference goes the same way whatever the order of the conditions. -/
theorem lockstep : kb.Lockstep other h.counterpart h.Alike where
  ids := h.ids_eq
  action id := (h.rule_counterpart id).action
  fired halike id := halike.fired_iff id
  inferred halike id := halike.inferred_iff id
  reclassifies halike id := (halike.evaluated_status id).2
  evaluate halike id := halike.evaluate id
  infer halike fact value event := halike.infer fact value event

namespace Alike

variable {h} {left : Board kb.size} {right : Board other.size}

theorem converge (halike : h.Alike left right) (hleft : kb.Justified left)
    (hright : other.Justified right) (limits : Limits) :
    h.Alike (kb.converge limits left) (other.converge limits right) :=
  h.lockstep.converge hleft hright halike (fun halike event => halike.note event) limits

theorem effectiveValue_eq (halike : h.Alike left right) (fact : Fact) :
    other.effectiveValue right.memory fact = kb.effectiveValue left.memory fact := by
  rw [halike.memory, h.effectiveValue_eq]

/-- Where the conditions have decided what they can, the search finds something to
    ask on both sides or on neither, though not the same fact. -/
theorem searchBelow_eq_none_iff (halike : h.Alike left right) (hleft : kb.Decided left)
    (hright : other.Decided right) (levels : Nat) (path : List kb.Id) (id : kb.Id) :
    other.searchBelow right.memory right.table levels (path.map h.counterpart)
        (h.counterpart id) = none ↔
      kb.searchBelow left.memory left.table levels path id = none := by
  induction levels generalizing path id with
  | zero => exact Iff.rfl
  | succ levels ih =>
    have hterminal := halike.congr_status RuleStatus.isTerminal rfl id
    have hmem : h.counterpart id ∈ path.map h.counterpart ↔ id ∈ path :=
      List.mem_map_of_injective h.counterpart_injective
    -- A rule that is entered is explored as a whole, so its conditions are only a set.
    by_cases hstops : (left.table.status id).isTerminal = true ∨ id ∈ path
    · rw [searchBelow_of_not_entered hstops,
        searchBelow_of_not_entered (hstops.imp hterminal.trans hmem.mpr)]
    · obtain ⟨hopen, hpath⟩ := not_or.mp hstops
      rw [Bool.not_eq_true] at hopen
      rw [hleft.searchBelow_eq_none_iff hopen hpath,
        hright.searchBelow_eq_none_iff (hterminal.trans hopen) (mt hmem.mp hpath)]
      have hbelow (condition : Fact) :
          (∀ query ∈ other.concluding condition, other.searchBelow right.memory right.table levels
              (h.counterpart id :: path.map h.counterpart) query = none) ↔
            ∀ query ∈ kb.concluding condition,
              kb.searchBelow left.memory left.table levels (id :: path) query = none := by
        rw [h.concluding_eq, List.forall_mem_map]
        exact forall₂_congr fun query _ => ih (id :: path) query
      simp only [(h.rule_counterpart id).conditions.mem_iff, halike.effectiveValue_eq, hbelow]

/-- So there is a next question on both sides or on neither. -/
theorem nextQuestion_eq_none_iff (halike : h.Alike left right) (hleft : kb.Decided left)
    (hright : other.Decided right) (maxDepth : Nat) :
    other.nextQuestion right.memory right.table maxDepth = none ↔
      kb.nextQuestion left.memory left.table maxDepth = none := by
  simp only [nextQuestion, List.findSome?_eq_none_iff, h.goals_eq, List.forall_mem_map]
  exact forall₂_congr fun id _ => halike.searchBelow_eq_none_iff hleft hright _ [] id

theorem map_applicable (halike : h.Alike left right) :
    (other.summarize right).applicable.map (·.action) =
      (kb.summarize left).applicable.map (·.action) := by
  have hgoal (id : kb.Id) : (other.applicable? right.table (h.counterpart id)).map (·.action) =
      (kb.applicable? left.table id).map (·.action) := by
    simp only [applicable?, halike.fired_iff, (h.rule_counterpart id).action]
    split <;> rfl
  simp only [summarize, h.goals_eq, List.filterMap_map, List.map_filterMap, Function.comp_def,
    hgoal]

theorem conditional (halike : h.Alike left right) :
    List.Forall₂ Conditional.Reorders (kb.summarize left).conditional
      (other.summarize right).conditional := by
  have hgoals : List.Forall₂ (fun id query => query = h.counterpart id) kb.goals other.goals := by
    rw [h.goals_eq, List.forall₂_map_right_iff, List.forall₂_same]
    exact fun _ _ => rfl
  refine List.rel_filterMap ?_ hgoals
  rintro id _ rfl
  have hterminal := halike.congr_status RuleStatus.isTerminal rfl id
  have hunknown := h.unknownConditions_perm left.memory id
  simp only [conditional?, halike.memory, hterminal, hunknown.isEmpty_eq,
    (h.rule_counterpart id).action]
  split
  · exact .none
  · exact .some ⟨rfl, hunknown⟩

end Alike

end KnowledgeBase.Reorders

end Consultation
