import Consultation.Proofs.Session.Passes

namespace Consultation

namespace KnowledgeBase

variable {kb : KnowledgeBase} {iterations : Nat} {board : Board kb.size} {id : kb.Id} {fact : Fact}

/-- Nothing is derived where propagation is not allowed a round. -/
theorem Reachable.hypothesis_eq_none (h : kb.Reachable 0 board) (fact : Fact) :
    board.memory.hypothesis fact = none := by
  induction h with
  | fresh memory log hunderived _ =>
    rw [Memory.hypothesis, hunderived]
    rfl
  | pass _ ih => exact ih
  | mark _ _ ih => exact ih
  | note _ _ ih => exact ih
  | answer _ _ _ _ _ ih => exact ih

/-- The rules see that the action of a fired rule holds, except where the action
    stands answered yes and was refuted before the rule fired: the answer keeps the
    rule from deriving it, and the refutation stands. -/
theorem Reachable.effectiveValue_of_fired (h : kb.Reachable iterations board)
    (hiterations : 0 < iterations) (hfired : board.table.status id = .fired) :
    kb.effectiveValue board.memory (kb.rule id).action =
      if board.memory.finding (kb.rule id).action = some .holds ∧
          board.memory.hypothesis (kb.rule id).action = some .fails then some .fails
      else some .holds := by
  have hrecords := (h.quiet hiterations id).fired hfired
  rw [h.justified.effectiveValue_eq]
  cases hhypothesis : board.memory.hypothesis (kb.rule id).action with
  | none =>
    have hfinding := hrecords.resolve_right (by rw [hhypothesis]; nofun)
    simp [hfinding]
  | some value =>
    cases value with
    | holds => simp
    | unknown => exact absurd hhypothesis (h.justified.definite _)
    | fails =>
      have hfinding := hrecords.resolve_right (by rw [hhypothesis]; nofun)
      simp [hfinding]

/-- The rules for a refuted fact have all failed, unless the fact stands answered
    yes: a rule that fired since would otherwise have derived the fact anew. -/
theorem Reachable.isNegative_of_fails (h : kb.Reachable iterations board)
    (hfails : board.memory.hypothesis fact = some .fails)
    (hfinding : board.memory.finding fact ≠ some .holds) (hid : id ∈ kb.concluding fact) :
    (board.table.status id).isNegative = true := by
  have hiterations : 0 < iterations := by
    rcases Nat.eq_zero_or_pos iterations with rfl | hiterations
    · rw [h.hypothesis_eq_none fact] at hfails
      cases hfails
    · exact hiterations
  have hresolved := (h.justified.fails fact hfails).2 id hid
  refine RuleStatus.isNegative_of_isResolved hresolved fun hfired => ?_
  have hrecords := (h.quiet hiterations id).fired hfired
  rw [mem_concluding.mp hid] at hrecords
  rcases hrecords with hholds | hholds
  · exact hfinding hholds
  · rw [hfails] at hholds
    cases hholds

/-- An answer `unknown` is overridden only by rules that conclude the very fact:
    it counts as true once one of them has fired, and as false once all of them have
    failed and one of them needs all its conditions. -/
theorem Reachable.effectiveValue_of_unknown (h : kb.Reachable iterations board)
    (hunknown : board.memory.finding fact = some .unknown) :
    kb.effectiveValue board.memory fact = some .unknown ∨
    (kb.effectiveValue board.memory fact = some .holds ∧
      ∃ id ∈ kb.concluding fact, board.table.status id = .fired) ∨
    (kb.effectiveValue board.memory fact = some .fails ∧ kb.Refutable fact ∧
      ∀ id ∈ kb.concluding fact, (board.table.status id).isNegative = true) := by
  rw [h.justified.effectiveValue_eq]
  cases hhypothesis : board.memory.hypothesis fact with
  | none => exact .inl (by simp [hunknown])
  | some value =>
    cases value with
    | unknown => exact absurd hhypothesis (h.justified.definite fact)
    | holds => exact .inr (.inl ⟨rfl, h.justified.holds fact hhypothesis⟩)
    | fails =>
      have hunanswered : board.memory.finding fact ≠ some .holds := by
        rw [hunknown]
        nofun
      exact .inr (.inr ⟨rfl, (h.justified.fails fact hhypothesis).1,
        fun id hid => h.isNegative_of_fails hhypothesis hunanswered hid⟩)

end KnowledgeBase

namespace Session

variable {kb : KnowledgeBase} {limits : Limits}

/-- What the rules see of a fired rule's action: that it holds, except where the
    action was answered yes and is derived to fail. It is never `unknown` and never
    without a value. -/
theorem fired_action_seen (hiterations : 1 ≤ limits.maxPropagationIterations)
    (operations : List Operation) :
    let session := (idle kb).run limits operations
    ∀ id, session.table.status id = .fired →
      session.memory.effectiveValue (kb.rule id).action true =
        if session.memory.finding (kb.rule id).action = some .holds ∧
            session.memory.hypothesis (kb.rule id).action = some .fails then some .fails
        else some .holds := by
  intro session id hfired
  have hreachable : session.Reachable limits := reachable_run kb limits operations
  have hderived : kb.isDerived (kb.rule id).action = true := KnowledgeBase.isDerived_iff.mpr ⟨id, rfl⟩
  rw [← hderived]
  exact hreachable.effectiveValue_of_fired hiterations hfired

/-- A fact that can be refuted by way of an answer `unknown`, and proved once that
    answer is overridden. -/
def reproved : KnowledgeBase where
  rules := [(Rule.needsAll ["x"] "g").asGoal, Rule.needsAll ["a"] "x",
    (Rule.needsAll ["a"] "h").asGoal, Rule.needsAll ["b"] "a"]
  categories := [""]
  wellFormed := by
    simp [Rule.wellFormed_iff, Rule.needsAll, Rule.asGoal, Text.IsBlankText, Text.isBlank]
  categories_nodup := List.nodup_singleton _
  category_mem := by decide

theorem reproved_fired_action_seen :
    let session := (idle reproved).run {}
      [.start, .answer "x" .yes, .answer "a" .unknown, .answer "b" .yes]
    session.table.status (3 : Fin 4) = .fired ∧
      session.memory.effectiveValue "a" true = some .holds := by
  intro session
  have hfired : session.table.status (3 : Fin 4) = .fired := by decide +kernel
  have hvalue := @fired_action_seen reproved {} (by decide)
    [.start, .answer "x" .yes, .answer "a" .unknown, .answer "b" .yes] (3 : Fin 4) hfired
  refine ⟨hfired, hvalue.trans (if_neg ?_)⟩
  decide +kernel

/-- A rule can have fired although its action counts as false: the action was
    answered yes, refuted, and then proved, but the answer kept the rule from
    deriving it again. -/
theorem not_fired_action_holds :
    ¬ ∀ id : reproved.Id,
      let session := (idle reproved).run {}
        [.start, .answer "x" .yes, .answer "a" .unknown, .answer "b" .yes]
      session.table.status id = .fired →
        session.memory.effectiveValue (reproved.rule id).action true = some .holds := by
  intro hall
  have hfired : ((idle reproved).run {} [.start, .answer "x" .yes, .answer "a" .unknown,
      .answer "b" .yes]).table.status (1 : Fin 4) = .fired := by decide +kernel
  have hfails : ((idle reproved).run {} [.start, .answer "x" .yes, .answer "a" .unknown,
      .answer "b" .yes]).memory.effectiveValue "x" true = some .fails := by decide +kernel
  have hholds := hall (1 : Fin 4) hfired
  exact absurd (hfails.symm.trans hholds) nofun

/-- Firing never promotes a condition in a consultation. No event of that kind is
    entered in a journal; whenever a propagation visits a fired rule that needs all
    its conditions, those that were answered `unknown` are already derived to hold,
    in every pass and in each of its rounds, which visit every rule once; and such
    an answer is overridden only by the rules that conclude the fact, as true where
    one of them has fired, and as false where all of them have failed. -/
theorem run_promotes_nothing (kb : KnowledgeBase) (limits : Limits)
    (operations : List Operation) :
    let session := (idle kb).run limits operations
    (∀ fact rule, .premisePromoted fact rule ∉ session.log) ∧
    (∀ operation next reply, session.perform limits operation = .ok (next, reply) →
      (∀ entered, session.entered operation = some entered →
        session.passStarts limits operation = (List.range (kb.convergeWithin
          limits.maxPropagationIterations limits.maxEvaluationPasses entered.board).2.passes).map
          (kb.afterPasses limits.maxPropagationIterations · entered.board)) ∧
      ∀ start ∈ session.passStarts limits operation,
        let visits := kb.propagationVisits limits.maxPropagationIterations (kb.evaluated start)
        visits.length = (kb.propagate limits.maxPropagationIterations
          (kb.evaluated start)).2.iterations * kb.size ∧
        ∀ id visited, (id, visited) ∈ visits →
          visited.table.status id = .fired → (kb.rule id).combinator = .all →
          ∀ condition ∈ (kb.rule id).conditions,
            visited.memory.finding condition = some .unknown →
            visited.memory.hypothesis condition = some .holds) ∧
    (∀ fact, session.memory.finding fact = some .unknown →
      kb.effectiveValue session.memory fact = some .unknown ∨
      (kb.effectiveValue session.memory fact = some .holds ∧
        ∃ id ∈ kb.concluding fact, session.table.status id = .fired) ∨
      (kb.effectiveValue session.memory fact = some .fails ∧ kb.Refutable fact ∧
        ∀ id ∈ kb.concluding fact, (session.table.status id).isNegative = true)) := by
  intro session
  have hreachable : session.Reachable limits := reachable_run kb limits operations
  refine ⟨fun fact rule hevent => ?_, fun operation next reply hperform => ?_,
    fun fact hunknown => hreachable.effectiveValue_of_unknown hunknown⟩
  · cases allJournaled_run kb limits operations _ hevent
  · refine ⟨fun _ => passStarts_eq_afterPasses, fun start hstart =>
      ⟨KnowledgeBase.length_propagationVisits .., ?_⟩⟩
    have hstarted := hreachable.of_mem_passStarts (accepts_of_perform hperform) hstart
    intro id visited hvisited hfired hcombinator condition hcondition hunknown
    exact hstarted.justified.hypothesis_of_visited hvisited hfired hcombinator hcondition hunknown

/-- A fact that is concluded by a rule of its own, beneath a goal. -/
def stacked : KnowledgeBase where
  rules := [(Rule.needsAll ["x", "b"] "g").asGoal, Rule.needsAll ["a"] "x"]
  categories := [""]
  wellFormed := by
    simp [Rule.wellFormed_iff, Rule.needsAll, Rule.asGoal, Text.IsBlankText, Text.isBlank]
  categories_nodup := List.nodup_singleton _
  category_mem := by decide

theorem stacked_promotes_nothing :
    let session := (idle stacked).run {} [.start, .answer "x" .unknown, .answer "a" .yes]
    let start := (session.enterAnswer "b" .yes none).board
    (stacked.evaluated start).table.status (0 : Fin 2) = .fired ∧
      (stacked.evaluated start).memory.finding "x" = some .unknown ∧
      (stacked.evaluated start).memory.hypothesis "x" = some .holds ∧
      ∃ id ∈ stacked.concluding "x", session.table.status id = .fired := by
  intro session start
  have hunknown : session.memory.finding "x" = some .unknown := by decide +kernel
  have hunknown' : (stacked.evaluated start).memory.finding "x" = some .unknown := by decide +kernel
  have hfired : (stacked.evaluated start).table.status (0 : Fin 2) = .fired := by decide +kernel
  have hvalue : stacked.effectiveValue session.memory "x" = some .holds := by decide +kernel
  have hperform : session.perform {} (.answer "b" .yes) =
      .ok (session.acceptAnswer {} "b" .yes none,
        .answered ((session.acceptAnswer {} "b" .yes none).answerOutcome none)) :=
    perform_answer .yes (by decide +kernel) (by decide +kernel) (by decide +kernel)
  have hentered : session.entered (.answer "b" .yes) =
      some (session.enterAnswer "b" .yes none) := rfl
  have hstart : start ∈ session.passStarts {} (.answer "b" .yes) := by
    rw [passStarts_of_entered hentered]
    exact KnowledgeBase.mem_passStarts_self (by decide)
  have hvisited : ((0 : Fin 2), stacked.evaluated start) ∈
      stacked.propagationVisits 100 (stacked.evaluated start) :=
    List.mem_append_left _ List.mem_cons_self
  obtain ⟨-, hvisits, hoverrides⟩ :=
    run_promotes_nothing stacked {} [.start, .answer "x" .unknown, .answer "a" .yes]
  have hholds := ((hvisits _ _ _ hperform).2 start hstart).2 _ _ hvisited hfired rfl "x"
    (by decide) hunknown'
  refine ⟨hfired, hunknown', hholds, ?_⟩
  rcases hoverrides "x" hunknown with hsame | ⟨-, hfired⟩ | ⟨hfails, -⟩
  · exact absurd (hvalue.symm.trans hsame) nofun
  · exact hfired
  · exact absurd (hvalue.symm.trans hfails) nofun

/-- An answer `unknown` is also overridden where no rule for the fact has fired:
    once its rules have failed, the fact counts as false. -/
theorem not_overridden_only_by_fired :
    ¬ ∀ fact,
      let session := (idle stacked).run {} [.start, .answer "x" .unknown, .answer "a" .no]
      session.memory.finding fact = some .unknown →
        stacked.effectiveValue session.memory fact ≠ some .unknown →
        ∃ id ∈ stacked.concluding fact, session.table.status id = .fired := by
  intro hall
  have hfired := hall "x" (by decide +kernel) (by decide +kernel)
  revert hfired
  decide +kernel

end Session

end Consultation
