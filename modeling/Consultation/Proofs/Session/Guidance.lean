import Consultation.Knowledge.Integrity
import Consultation.Proofs.Inference.Guidance
import Consultation.Proofs.Session.Dialogue
import Consultation.Proofs.Session.Soundness

namespace Consultation

namespace KnowledgeBase

open Classical in
/-- The goals whose bodies follow from given facts, as a result lists them. -/
noncomputable def derivableGoals (kb : KnowledgeBase) (given : Fact → Prop) : List Applicable :=
  (kb.goals.filter fun id => decide (kb.DerivableBody given id)).map fun id =>
    ⟨(kb.rule id).action, (kb.rule id).category⟩

end KnowledgeBase

namespace Session

variable {kb : KnowledgeBase} {limits : Limits} {session : Session kb}
  {given : List (Fact × Answer)} {assignment : Fact → Bool}

theorem applicable_eq {facts : Fact → Prop}
    (h : ∀ id ∈ kb.goals, session.table.status id = .fired ↔ kb.DerivableBody facts id) :
    session.summary.applicable = kb.derivableGoals facts := by
  classical
  change kb.goals.filterMap (kb.applicable? session.table) = kb.derivableGoals facts
  rw [KnowledgeBase.derivableGoals, ← List.filterMap_eq_map, List.filterMap_filter]
  refine List.filterMap_congr fun id hid => ?_
  simp only [KnowledgeBase.applicable?, h id hid, decide_eq_true_eq, Function.comp_apply]

namespace Dialogue

theorem accounted (h : session.Dialogue limits given) : kb.Accounted session.board := by
  refine h.invariant (.fresh kb) ?_ ?_ ?_ ?_
  · exact fun _ _ hboard hstep haccounted => haccounted.step hboard hstep
  · exact fun _ fact haccounted => haccounted.mark fact
  · exact fun _ _ hevent haccounted => haccounted.note hevent
  · exact fun _ _ value hnew _ haccounted => haccounted.answer value hnew

/-- The answers of a guided dialogue. -/
theorem guided (h : session.Dialogue limits given)
    (hguided : ∀ entry ∈ given, entry.2 = kb.guidedAnswer assignment entry.1) :
    kb.Guided assignment session.memory := by
  intro fact truth hfinding
  obtain ⟨value, hmem, rfl⟩ := h.exists_answer_of_finding hfinding
  exact congrArg Answer.truth (hguided _ hmem)

/-- In a guided dialogue only such rules fire whose bodies follow from the
    assignment. -/
theorem derivableBody_of_fired (h : session.Dialogue limits given)
    (hguided : ∀ entry ∈ given, entry.2 = kb.guidedAnswer assignment entry.1) {id : kb.Id}
    (hfired : session.table.status id = .fired) :
    kb.DerivableBody (kb.Assigned assignment) id := by
  have hbody : kb.DerivableBody session.memory.AnsweredYes id := h.reachable.sound.fired id hfired
  exact hbody.mono fun fact hanswered =>
    (h.guided hguided).assigned (h.reachable.isCondition_of_finding hanswered) hanswered

/-- A guided dialogue that is complete has missed a goal that it could have
    derived only where a fact beneath the goal was refuted in spite of being
    derivable. -/
theorem exists_refuted (h : session.Dialogue limits given)
    (hguided : ∀ entry ∈ given, entry.2 = kb.guidedAnswer assignment entry.1)
    (hlimits : limits.Ample kb) (hdepth : kb.size ≤ limits.maxQuestionDepth)
    (hcomplete : session.phase = .complete) {id : kb.Id} (hgoal : id ∈ kb.goals)
    (hbody : kb.DerivableBody (kb.Assigned assignment) id)
    (hunfired : session.table.status id ≠ .fired) :
    ∃ fact, kb.Beneath fact id ∧ kb.Derivable (kb.Assigned assignment) fact ∧
      session.board.Refuted fact := by
  have hnone : kb.nextQuestion session.memory session.table limits.maxQuestionDepth = none := by
    rw [← h.question_eq]
    cases hquestion : session.question with
    | none => rfl
    | some fact =>
      have hphase := h.phase_eq
      rw [hquestion, hcomplete] at hphase
      cases hphase
  obtain ⟨stage, hfirst⟩ := hbody.exists_firstStage
  have hsearch : kb.searchBelow session.memory session.table (limits.maxQuestionDepth + 1) [] id =
      none := List.findSome?_eq_none_iff.mp hnone id hgoal
  exact (h.guided hguided).exists_refuted h.reachable.justified (h.settled hlimits) h.accounted
    hfirst (fun _ hmem => absurd hmem List.not_mem_nil) List.nodup_nil
    (by rw [List.length_nil]; omega) hunfired hsearch

end Dialogue

/-- What a guided dialogue can be relied on for: every answer follows an
    assignment of the base conditions, derived facts are answered `unknown`, and
    the dialogue goes on until nothing is left to ask. Only goals that follow
    from the assignment are listed then. A goal that follows and is not listed
    has a fact beneath it that follows too but was refuted on the way, because a
    rule that needs a derived condition was `uncertain` by then; where no rule
    with a derived condition concludes a condition that can be refuted, exactly
    the goals are listed that follow. -/
theorem guided_dialogue_decides (hlimits : limits.Ample kb)
    (hdepth : kb.size ≤ limits.maxQuestionDepth) (h : session.Dialogue limits given)
    (hguided : ∀ entry ∈ given, entry.2 = kb.guidedAnswer assignment entry.1)
    (hcomplete : session.phase = .complete) :
    (∀ goal ∈ session.summary.applicable, goal ∈ kb.derivableGoals (kb.Assigned assignment)) ∧
    (∀ id ∈ kb.goals, kb.DerivableBody (kb.Assigned assignment) id →
      session.table.status id ≠ .fired →
      ∃ fact, kb.Beneath fact id ∧ kb.Derivable (kb.Assigned assignment) fact ∧
        .refuted fact fact ∈ session.log ∧ kb.Refutable fact ∧
        ∃ other ∈ kb.concluding fact, kb.DerivableBody (kb.Assigned assignment) other ∧
          ∃ condition ∈ (kb.rule other).conditions, kb.isDerived condition = true) ∧
    ((∀ id, kb.isCondition (kb.rule id).action = true →
        (∃ condition ∈ (kb.rule id).conditions, kb.isDerived condition = true) →
        ¬ kb.Refutable (kb.rule id).action) →
      session.summary.applicable = kb.derivableGoals (kb.Assigned assignment)) := by
  have hmissed : ∀ id ∈ kb.goals, kb.DerivableBody (kb.Assigned assignment) id →
      session.table.status id ≠ .fired →
      ∃ fact, kb.Beneath fact id ∧ kb.Derivable (kb.Assigned assignment) fact ∧
        .refuted fact fact ∈ session.log ∧ kb.Refutable fact ∧
        ∃ other ∈ kb.concluding fact, kb.DerivableBody (kb.Assigned assignment) other ∧
          ∃ condition ∈ (kb.rule other).conditions, kb.isDerived condition = true := by
    intro id hgoal hbody hunfired
    obtain ⟨fact, hbeneath, hderivable, hrefuted⟩ :=
      h.exists_refuted hguided hlimits hdepth hcomplete hgoal hbody hunfired
    have hcause := (h.guided hguided).exists_derived_condition h.accounted hderivable hrefuted
    exact ⟨fact, hbeneath, hderivable, hrefuted, hcause⟩
  refine ⟨fun goal hlisted => ?_, hmissed, fun hrules => ?_⟩
  · obtain ⟨id, hid, hfired, rfl⟩ := mem_applicable_iff.mp hlisted
    have hbody := h.derivableBody_of_fired hguided hfired
    classical
    exact List.mem_map.mpr ⟨id, List.mem_filter.mpr ⟨hid, decide_eq_true hbody⟩, rfl⟩
  · refine applicable_eq fun id hid => ⟨h.derivableBody_of_fired hguided, fun hbody => ?_⟩
    by_contra hunfired
    obtain ⟨fact, hbeneath, -, -, hrefutable, other, hother, -, hderived⟩ :=
      hmissed id hid hbody hunfired
    have haction := KnowledgeBase.mem_concluding.mp hother
    subst haction
    exact hrules other hbeneath.isCondition hderived hrefutable

/-- Two goals that are reached from `d` alone, the first of them over two facts
    that are derived. -/
def chained : KnowledgeBase where
  rules := [(Rule.needsAll ["b"] "a").asGoal, Rule.needsAll ["c"] "b", Rule.needsAll ["d"] "c",
    (Rule.needsAll ["d"] "g").asGoal]
  categories := [""]
  wellFormed := by
    simp [Rule.wellFormed_iff, Rule.needsAll, Rule.asGoal, Text.IsBlankText, Text.isBlank]
  categories_nodup := List.nodup_singleton _
  category_mem := by decide

/-- Without a condition on the rules a guided dialogue can miss a goal. Once `b`
    and `c` are answered `unknown`, the rule for `b` is `uncertain` and refutes
    it, which blocks the first goal. When `d` is answered yes, on behalf of the
    second, `c` and `b` are derived, but the first goal stays blocked. -/
theorem not_guided_dialogue_exact :
    ¬ ∀ (kb : KnowledgeBase) (limits : Limits) (assignment : Fact → Bool)
      (given : List (Fact × Answer)) (session : Session kb), kb.hasErrors = false →
      limits.Ample kb → kb.size ≤ limits.maxQuestionDepth → session.Dialogue limits given →
      (∀ entry ∈ given, entry.2 = kb.guidedAnswer assignment entry.1) →
      session.phase = .complete →
      session.summary.applicable = kb.derivableGoals (kb.Assigned assignment) := by
  intro h
  let assignment : Fact → Bool := fun fact => fact = "d"
  have hexact := h chained {} assignment [("b", .unknown), ("c", .unknown), ("d", .yes)]
    ((idle chained).run {} [.start, .answer "b" .unknown, .answer "c" .unknown, .answer "d" .yes])
    (by decide) ⟨by decide, by decide⟩ (by decide)
    (.answer (.answer (.answer (.start rfl) rfl rfl) rfl rfl) rfl rfl) (by decide) (by decide)
  have hd : chained.Derivable (chained.Assigned assignment) "d" :=
    .given ⟨by decide, by decide, by decide⟩
  have hc : chained.Derivable (chained.Assigned assignment) "c" :=
    @KnowledgeBase.Derivable.all chained _ ⟨2, by decide⟩ rfl (List.forall_mem_singleton.mpr hd)
  have hb : chained.Derivable (chained.Assigned assignment) "b" :=
    @KnowledgeBase.Derivable.all chained _ ⟨1, by decide⟩ rfl (List.forall_mem_singleton.mpr hc)
  have hgoal : ⟨"a", ""⟩ ∈ chained.derivableGoals (chained.Assigned assignment) := by
    classical
    have hbody : chained.DerivableBody (chained.Assigned assignment) ⟨0, by decide⟩ :=
      List.forall_mem_singleton.mpr hb
    exact List.mem_map.mpr
      ⟨⟨0, by decide⟩, List.mem_filter.mpr ⟨by decide, decide_eq_true hbody⟩, rfl⟩
  rw [← hexact] at hgoal
  revert hgoal
  decide

/-- A goal over a fact that one of two others proves, the first of them derived. -/
def alternated : KnowledgeBase where
  rules := [(Rule.needsAll ["p", "e"] "g").asGoal, Rule.needsAny ["q", "x"] "p",
    Rule.needsAll ["d"] "q"]
  categories := [""]
  wellFormed := by
    simp [Rule.wellFormed_iff, Rule.needsAll, Rule.needsAny, Rule.asGoal, Text.IsBlankText,
      Text.isBlank]
  categories_nodup := List.nodup_singleton _
  category_mem := by decide

theorem alternated_guided_dialogue_decides :
    let session := (idle alternated).run {}
      [.start, .answer "p" .unknown, .answer "q" .unknown, .answer "d" .yes, .answer "e" .yes]
    session.summary.applicable = [⟨"g", ""⟩] ∧
      session.summary.applicable =
        alternated.derivableGoals (alternated.Assigned fun fact => fact = "d" || fact = "e") := by
  intro session
  have hdialogue : session.Dialogue {}
      [("p", .unknown), ("q", .unknown), ("d", .yes), ("e", .yes)] :=
    .answer (.answer (.answer (.answer (.start rfl) rfl rfl) rfl rfl) rfl rfl) rfl rfl
  have hlimits : Limits.Ample {} alternated := ⟨by decide, by decide⟩
  have hguided : ∀ entry ∈ [("p", Answer.unknown), ("q", .unknown), ("d", .yes), ("e", .yes)],
      entry.2 = alternated.guidedAnswer (fun fact => fact = "d" || fact = "e") entry.1 := by decide
  have hdecides := guided_dialogue_decides hlimits (by decide) hdialogue hguided (by decide)
  exact ⟨by decide, hdecides.2.2 (by decide)⟩

end Session

end Consultation
