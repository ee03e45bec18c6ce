import Consultation.Proofs.Session.Reachable

namespace Consultation

namespace KnowledgeBase

variable {kb : KnowledgeBase}

/-- All that is concluded on a board follows from what was answered yes: the
    bodies of the fired rules, and the facts that were derived to hold. -/
structure Sound (kb : KnowledgeBase) (board : Board kb.size) : Prop where
  fired : ∀ id, board.table.status id = .fired → kb.DerivableBody board.memory.AnsweredYes id
  holds : ∀ fact, board.memory.hypothesis fact = some .holds →
    kb.Derivable board.memory.AnsweredYes fact

theorem Sound.derivable_of_effectiveValue {board : Board kb.size} (h : kb.Sound board) {fact : Fact}
    (hvalue : kb.effectiveValue board.memory fact = some .holds) :
    kb.Derivable board.memory.AnsweredYes fact := by
  rcases Memory.records_of_effectiveValue hvalue with hfinding | hhypothesis
  · exact .given hfinding
  · exact h.holds fact hhypothesis

/-- A hypothesis may be written as long as the fact is derivable if it holds. -/
private theorem Sound.infer {board : Board kb.size} (h : kb.Sound board) {fact : Fact}
    {value : Truth} (event : Event)
    (hfact : value = .holds → kb.Derivable board.memory.AnsweredYes fact) :
    kb.Sound (kb.infer board fact value event) := by
  constructor
  · intro id hstatus
    rw [status_infer] at hstatus
    exact h.fired id hstatus
  · intro query hquery
    rw [memory_infer, Memory.hypothesis_putHypothesis] at hquery
    split at hquery
    · next heq =>
      subst heq
      exact hfact (Option.some.inj hquery)
    · exact h.holds query hquery

theorem Sound.step {board next : Board kb.size} (h : kb.Sound board)
    (hstep : kb.Infers board next) : kb.Sound next := by
  cases hstep with
  | evaluate id =>
    refine ⟨fun query hstatus => ?_, h.holds⟩
    rw [status_evaluateRule] at hstatus
    split at hstatus
    · next heq =>
      subst heq
      rcases kb.evaluatedStatus_cases board.memory board.table query with hkept | ⟨-, hdecided⟩
      · exact h.fired query (hkept ▸ hstatus)
      · rw [hstatus] at hdecided
        have haffirmed := decision_eq_fired_iff.mp hdecided
        exact haffirmed.mono fun _ _ hvalue => h.derivable_of_effectiveValue hvalue
    · exact h.fired query hstatus
  | derive id hfired => exact h.infer _ fun _ => (h.fired id hfired).action
  | promote id hfired hcombinator condition hmem =>
    -- The body of the fired rule is derivable, hence every condition that it needs.
    have hbody := h.fired id hfired
    rw [DerivableBody, Rule.BodyHolds, hcombinator] at hbody
    exact h.infer _ fun _ => hbody condition hmem
  | refute =>
    refine h.infer _ fun hholds => ?_
    cases hholds

theorem Reachable.sound {iterations : Nat} {board : Board kb.size}
    (h : kb.Reachable iterations board) : kb.Sound board := by
  refine h.invariant ?_ (fun _ _ hstep hboard => hboard.step hstep) ?_ ?_ ?_
  · intro memory log hunderived _
    refine ⟨fun id hstatus => ?_, fun fact hfact => ?_⟩
    · rw [RuleTable.status_fresh] at hstatus
      cases hstatus
    · rw [Memory.hypothesis, hunderived] at hfact
      cases hfact
  · intro board fact hboard
    refine ⟨fun id hstatus => ?_, hboard.holds⟩
    exact hboard.fired id ((status_markEvaluating_of_isResolved rfl).mp hstatus)
  · exact fun board event hboard => ⟨hboard.fired, hboard.holds⟩
  · intro board fact value _ hnew hboard
    have hmore : ∀ query, board.memory.AnsweredYes query →
        (board.memory.putFinding fact value).AnsweredYes query := by
      intro query hquery
      rw [Memory.AnsweredYes, Memory.finding_putFinding]
      split
      · next heq =>
        subst heq
        rw [Memory.AnsweredYes, hnew] at hquery
        cases hquery
      · exact hquery
    exact ⟨fun id hstatus => (hboard.fired id hstatus).mono hmore,
      fun query hquery => (hboard.holds query hquery).mono hmore⟩

end KnowledgeBase

namespace Session

variable {kb : KnowledgeBase}

theorem mem_applicable_iff {session : Session kb} {goal : Applicable} :
    goal ∈ session.summary.applicable ↔
      ∃ id ∈ kb.goals, session.table.status id = .fired ∧
        goal = ⟨(kb.rule id).action, (kb.rule id).category⟩ := by
  rw [summary, KnowledgeBase.summarize, List.mem_filterMap]
  constructor
  · rintro ⟨id, hid, hgoal⟩
    unfold KnowledgeBase.applicable? at hgoal
    split at hgoal
    · next hstatus => exact ⟨id, hid, hstatus, (Option.some.inj hgoal).symm⟩
    · cases hgoal
  · rintro ⟨id, hid, hstatus, rfl⟩
    exact ⟨id, hid, if_pos hstatus⟩

/-- Whatever is done in a consultation, its conclusions follow from the answers
    still in force: the body of every fired rule, every fact derived to hold,
    and the action of every goal that is reported as applicable are derivable
    from the facts that stand answered yes. Neither cycles among the rules nor
    repeated actions matter, and the limits may be anything. -/
theorem run_conclusions_derivable (kb : KnowledgeBase) (limits : Limits)
    (operations : List Operation) :
    let session := (idle kb).run limits operations
    (∀ id, session.table.status id = .fired →
      kb.DerivableBody session.memory.AnsweredYes id) ∧
    (∀ fact, session.memory.hypothesis fact = some .holds →
      kb.Derivable session.memory.AnsweredYes fact) ∧
    (∀ goal ∈ session.summary.applicable,
      kb.Derivable session.memory.AnsweredYes goal.action) := by
  intro session
  have hsound := (reachable_run kb limits operations).sound
  refine ⟨hsound.fired, hsound.holds, fun goal hgoal => ?_⟩
  obtain ⟨id, -, hstatus, rfl⟩ := mem_applicable_iff.mp hgoal
  exact (hsound.fired id hstatus).action

/-- Two facts that are derived from each other, and from outside by a second
    rule for one of them. -/
def looped : KnowledgeBase where
  rules := [(Rule.needsAll ["p", "b"] "g").asGoal, Rule.needsAll ["q"] "p",
    Rule.needsAll ["p"] "q", Rule.needsAny ["a", "c"] "q"]
  categories := [""]
  wellFormed := by
    simp [Rule.wellFormed_iff, Rule.needsAll, Rule.needsAny, Rule.asGoal, Text.IsBlankText,
      Text.isBlank]
  categories_nodup := List.nodup_singleton _
  category_mem := by decide

theorem looped_conclusions_derivable :
    let session := (idle looped).run {} [.seed "b" true, .start, .answer "a" .yes]
    ⟨"g", ""⟩ ∈ session.summary.applicable ∧
      looped.Derivable session.memory.AnsweredYes "g" := by
  have hgoal : ⟨"g", ""⟩ ∈ ((idle looped).run {}
      [.seed "b" true, .start, .answer "a" .yes]).summary.applicable := by decide +kernel
  exact ⟨hgoal, (run_conclusions_derivable looped {} _).2.2 _ hgoal⟩

end Session

end Consultation
