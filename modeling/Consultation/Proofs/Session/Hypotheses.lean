import Consultation.Proofs.Session.Override

namespace Consultation

namespace Session

/-- Every derived value rests on the rules that conclude its fact, whatever was
    done before and under any limits. What was derived to hold is concluded by a
    rule that has fired. What was refuted is concluded by a rule that needs all
    its conditions, and no rule for it is undecided; they have all failed even,
    unless the fact stands answered yes. So no fact counts as refuted while
    another rule for it may still fire, and none is ever refuted that only rules
    with one sufficient condition conclude. -/
theorem run_hypotheses_justified (kb : KnowledgeBase) (limits : Limits)
    (operations : List Operation) :
    let session := (idle kb).run limits operations
    (∀ fact value, session.memory.hypothesis fact = some value →
      kb.isDerived fact = true ∧ value ≠ .unknown) ∧
    (∀ fact, session.memory.hypothesis fact = some .holds →
      ∃ id ∈ kb.concluding fact, session.table.status id = .fired) ∧
    (∀ fact, session.memory.hypothesis fact = some .fails →
      (∃ id ∈ kb.concluding fact, (kb.rule id).combinator = .all) ∧
      (∀ id ∈ kb.concluding fact,
        session.table.status id ≠ .pending ∧ session.table.status id ≠ .evaluating) ∧
      (session.memory.finding fact ≠ some .holds →
        ∀ id ∈ kb.concluding fact, (session.table.status id).isNegative = true)) ∧
    (∀ fact, (∃ id ∈ kb.concluding fact, (session.table.status id).isResolved = false) →
      session.memory.hypothesis fact ≠ some .fails) ∧
    ∀ fact, (∀ id ∈ kb.concluding fact, (kb.rule id).combinator = .any) →
      session.memory.hypothesis fact ≠ some .fails := by
  intro session
  have hreachable : session.Reachable limits := reachable_run kb limits operations
  have hjustified : kb.Justified session.board := hreachable.justified
  refine ⟨fun fact value hvalue => ⟨hjustified.isDerived_of_hypothesis hvalue, ?_⟩,
    hjustified.holds, fun fact hfails => ?_, fun fact hopen hfails => ?_,
    fun fact hany hfails => ?_⟩
  · rintro rfl
    exact hjustified.definite fact hvalue
  · obtain ⟨hrefutable, hresolved⟩ := hjustified.fails fact hfails
    refine ⟨hrefutable, fun id hid => ?_,
      fun hfinding id hid => hreachable.isNegative_of_fails hfails hfinding hid⟩
    have hstatus : (session.table.status id).isResolved = true := hresolved id hid
    exact ⟨fun hpending => by simp [hpending, RuleStatus.isResolved] at hstatus,
      fun hevaluating => by simp [hevaluating, RuleStatus.isResolved] at hstatus⟩
  · obtain ⟨id, hid, hundecided⟩ := hopen
    have hstatus : (session.table.status id).isResolved = true :=
      (hjustified.fails fact hfails).2 id hid
    rw [hundecided] at hstatus
    cases hstatus
  · obtain ⟨⟨id, hid, hall⟩, -⟩ := hjustified.fails fact hfails
    rw [hany id hid] at hall
    cases hall

/-- A fact that a rule of each kind concludes, beside facts with one rule of one
    kind. -/
def rivalled : KnowledgeBase where
  rules := [(Rule.needsAll ["x", "y", "z"] "g").asGoal, Rule.needsAll ["a"] "x",
    Rule.needsAny ["b", "c"] "x", Rule.needsAll ["d"] "y", Rule.needsAny ["a", "b"] "z"]
  categories := [""]
  wellFormed := by
    simp [Rule.wellFormed_iff, Rule.needsAll, Rule.needsAny, Rule.asGoal, Text.IsBlankText,
      Text.isBlank]
  categories_nodup := List.nodup_singleton _
  category_mem := by decide

theorem rivalled_hypotheses_justified :
    let before := (idle rivalled).run {} [.seed "a" false, .seed "b" false, .seed "d" true, .start]
    let after := (idle rivalled).run {}
      [.seed "a" false, .seed "b" false, .seed "d" true, .start, .answer "c" .unknown]
    (before.table.status (1 : Fin 5) = .blocked ∧ before.memory.hypothesis "x" ≠ some .fails) ∧
      (after.memory.hypothesis "x" = some .fails ∧
        ∀ id ∈ rivalled.concluding "x", (after.table.status id).isNegative = true) ∧
      (after.memory.hypothesis "y" = some .holds ∧
        ∃ id ∈ rivalled.concluding "y", after.table.status id = .fired) ∧
      after.table.status (4 : Fin 5) = .blocked ∧ after.memory.hypothesis "z" ≠ some .fails := by
  intro before after
  have hrival : (2 : Fin 5) ∈ rivalled.concluding "x" := KnowledgeBase.mem_concluding.mpr rfl
  have hundecided : (before.table.status (2 : Fin 5)).isResolved = false := by decide +kernel
  have hx : after.memory.hypothesis "x" = some .fails := by decide +kernel
  have hunanswered : after.memory.finding "x" ≠ some .holds := by decide +kernel
  have hy : after.memory.hypothesis "y" = some .holds := by decide +kernel
  have hany : ∀ id ∈ rivalled.concluding "z", (rivalled.rule id).combinator = .any := by decide
  obtain ⟨-, -, -, hopen, -⟩ := run_hypotheses_justified rivalled {}
    [.seed "a" false, .seed "b" false, .seed "d" true, .start]
  obtain ⟨-, hholds, hfails, -, hunrefuted⟩ := run_hypotheses_justified rivalled {}
    [.seed "a" false, .seed "b" false, .seed "d" true, .start, .answer "c" .unknown]
  exact ⟨⟨by decide +kernel, hopen "x" ⟨_, hrival, hundecided⟩⟩,
    ⟨hx, (hfails "x" hx).2.2 hunanswered⟩, ⟨hy, hholds "y" hy⟩,
    by decide +kernel, hunrefuted "z" hany⟩

end Session

end Consultation
