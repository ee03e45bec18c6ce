import Consultation.Proofs.Inference.Dispute
import Consultation.Proofs.Inference.Question
import Consultation.Proofs.Knowledge.Dependency

namespace Consultation

namespace KnowledgeBase

variable {kb : KnowledgeBase} {board : Board kb.size} {id other : kb.Id} {condition : Fact}

theorem dependsOn_of_mem_concluding (hmem : condition ∈ (kb.rule id).conditions)
    (hother : other ∈ kb.concluding condition) :
    kb.DependsOn (kb.rule id).action (kb.rule other).action := by
  have haction := mem_concluding.mp hother
  exact ⟨⟨id, mem_concluding.mpr rfl, haction ▸ hmem⟩, isDerived_iff.mpr ⟨other, rfl⟩⟩

/-- When the search finds nothing to ask for a rule, all that can be known about
    it is known. The search goes down along dependencies, so without cycles it
    never comes back to a rule above, and the levels suffice. -/
theorem Settled.isResolved_of_searchBelow (h : kb.Settled board) (hacyclic : kb.Acyclic)
    {levels : Nat} {path : List kb.Id}
    (hpath : ∀ above ∈ path,
      Relation.TransGen kb.DependsOn (kb.rule above).action (kb.rule id).action)
    (hnodup : path.Nodup) (hlevels : kb.size ≤ levels + path.length)
    (hsearch : kb.searchBelow board.memory board.table levels path id = none) :
    (board.table.status id).isResolved = true := by
  induction levels generalizing id path with
  | zero =>
    have hid : id ∉ path := fun hmem => hacyclic _ (hpath id hmem)
    have hlength := (List.nodup_cons.mpr ⟨hid, hnodup⟩).length_le_card
    rw [Fintype.card_fin, List.length_cons] at hlength
    omega
  | succ levels ih =>
    have hid : id ∉ path := fun hmem => hacyclic _ (hpath id hmem)
    cases hterminal : (board.table.status id).isTerminal with
    | true => exact RuleStatus.isResolved_of_isTerminal hterminal
    | false =>
      have hexplored := h.decided.explored hterminal (scanned_of_searchBelow hsearch hterminal hid)
      have hexhausted : kb.Exhausted board.memory board.table id := by
        intro condition hmem
        obtain ⟨hvalued, hpursued⟩ := hexplored condition hmem
        refine ⟨hvalued, fun _ hunknown => isOpen_eq_false_iff.mpr fun other hother => ?_⟩
        have hbelow := dependsOn_of_mem_concluding hmem hother
        refine ih (List.forall_mem_cons.mpr ⟨.single hbelow, fun above habove => ?_⟩)
          (List.nodup_cons.mpr ⟨hid, hnodup⟩) (by rw [List.length_cons]; omega)
          (hpursued hunknown other hother)
        exact (hpath above habove).tail hbelow
      obtain ⟨status, hdecided⟩ := Option.ne_none_iff_exists'.mp hexhausted.decision_ne_none
      rw [h.decided id hterminal status hdecided]
      exact isResolved_of_decision hdecided

theorem searchBelow_of_nextQuestion {maxDepth : Nat}
    (hnone : kb.nextQuestion board.memory board.table maxDepth = none) (hid : id ∈ kb.goals) :
    kb.searchBelow board.memory board.table (maxDepth + 1) [] id = none :=
  List.findSome?_eq_none_iff.mp hnone id hid

/-- A goal for which there is nothing to ask is resolved. -/
theorem Settled.isResolved_of_nextQuestion (h : kb.Settled board) (hacyclic : kb.Acyclic)
    {maxDepth : Nat} (hdepth : kb.size ≤ maxDepth)
    (hnone : kb.nextQuestion board.memory board.table maxDepth = none) (hid : id ∈ kb.goals) :
    (board.table.status id).isResolved = true :=
  h.isResolved_of_searchBelow hacyclic (fun _ habove => absurd habove List.not_mem_nil)
    List.nodup_nil (by rw [List.length_nil]; omega) (searchBelow_of_nextQuestion hnone hid)

/-- What keeps an explored rule open is a condition that is `unknown`. -/
theorem Settled.unknownConditions_ne_nil (h : kb.Settled board)
    (hopen : (board.table.status id).isTerminal = false) {maxDepth : Nat}
    (hnone : kb.nextQuestion board.memory board.table maxDepth = none) (hid : id ∈ kb.goals) :
    kb.unknownConditions board.memory id ≠ [] := by
  have hexplored := h.decided.explored hopen
    (scanned_of_searchBelow (searchBelow_of_nextQuestion hnone hid) hopen List.not_mem_nil)
  obtain ⟨condition, hmem, hnotFails, hnotHolds⟩ :=
    (Rule.bodyHolds_not (h.decided.not_denied hopen)).exists_of_bodyFails
      (Rule.bodyFails_not (h.decided.not_affirmed hopen))
  have hunknown : kb.effectiveValue board.memory condition = some .unknown := by
    cases hvalue : kb.effectiveValue board.memory condition with
    | none => exact absurd hvalue (hexplored condition hmem).1
    | some truth =>
      cases truth with
      | holds => exact absurd hvalue hnotHolds
      | fails => exact absurd hvalue hnotFails
      | unknown => rfl
  exact List.ne_nil_of_mem (List.mem_filter.mpr ⟨hmem, decide_eq_true hunknown⟩)

/-- The conditions that are `unknown` have been answered so. -/
theorem Justified.unknownConditions_subset (h : kb.Justified board)
    (hfaithful : board.memory.Faithful) (id : kb.Id) :
    kb.unknownConditions board.memory id ⊆ board.memory.unknownAnswers := by
  intro condition hmem
  have hvalue := of_decide_eq_true (List.mem_filter.mp hmem).2
  have hfinding := h.finding_of_effectiveValue hvalue
  exact List.mem_filter.mpr
    ⟨hfaithful.mem_history hfinding, decide_eq_true hfinding⟩

end KnowledgeBase

end Consultation
