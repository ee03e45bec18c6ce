import Consultation.Proofs.Inference.Reordering
import Consultation.Proofs.Session.Completion

namespace Consultation

namespace Session

variable {kb other : KnowledgeBase} {limits : Limits} {h : kb.Reorders other}
  {left leftNext : Session kb} {right : Session other} {operation : Operation} {fact : Fact}

/-- Consultations that stand at the same point, but for the fact that is in
    question. -/
structure Alike (h : kb.Reorders other) (left : Session kb) (right : Session other) : Prop where
  board : h.Alike left.board right.board
  phase : right.phase = left.phase
  question : right.question = none ↔ left.question = none

theorem alike_idle (h : kb.Reorders other) : Alike h (idle kb) (idle other) :=
  ⟨h.alike_fresh .empty [], rfl, Iff.rfl⟩

namespace Alike

theorem memory_eq (halike : Alike h left right) : right.memory = left.memory := halike.board.memory

theorem record (halike : Alike h left right) (event : Event) :
    Alike h (left.record event) (right.record event) :=
  ⟨halike.board.note event, halike.phase, halike.question⟩

theorem putFinding (halike : Alike h left right) (fact : Fact) (value : Truth) :
    Alike h (left.putFinding fact value) (right.putFinding fact value) :=
  ⟨halike.board.answer fact value, halike.phase, halike.question⟩

theorem enterAnswer (halike : Alike h left right) (fact : Fact) (value : Answer)
    (normalizedFrom : Option String) :
    Alike h (left.enterAnswer fact value normalizedFrom)
      (right.enterAnswer fact value normalizedFrom) := by
  cases normalizedFrom with
  | none => exact (halike.putFinding fact value.truth).record _
  | some token => exact ((halike.record _).putFinding fact value.truth).record _

/-- Once all inferences are drawn, both ask or both are complete. -/
theorem proceed (halike : Alike h left right)
    (hpasses : 2 * kb.size + 1 ≤ limits.maxEvaluationPasses) (hleft : left.Reachable limits)
    (hright : right.Reachable limits) : Alike h (left.proceed limits) (right.proceed limits) := by
  have hboard : h.Alike (kb.converge limits left.board) (other.converge limits right.board) :=
    halike.board.converge hleft.justified hright.justified limits
  have hdecidedLeft : kb.Decided (kb.converge limits left.board) :=
    KnowledgeBase.Reachable.decided_converge hleft hpasses
  have hdecidedRight : other.Decided (other.converge limits right.board) :=
    KnowledgeBase.Reachable.decided_converge hright (by rw [h.size_eq]; exact hpasses)
  have hnone := hboard.nextQuestion_eq_none_iff hdecidedLeft hdecidedRight limits.maxQuestionDepth
  have happlicable : (other.summarize (other.converge limits right.board)).applicable.length =
      (kb.summarize (kb.converge limits left.board)).applicable.length := by
    simpa using congrArg List.length hboard.map_applicable
  have hconditional : (other.summarize (other.converge limits right.board)).conditional.length =
      (kb.summarize (kb.converge limits left.board)).conditional.length :=
    hboard.conditional.length_eq.symm
  -- Where both ask, each marks the rules of its own question, which `Alike` does not see.
  unfold Session.proceed Session.ask
  split
  · next asked hasked =>
    split
    · next asked' _ => exact ⟨(hboard.markLeft asked).markRight asked', rfl, by simp⟩
    · next hnothing => exact absurd (hasked.symm.trans (hnone.mp hnothing)) nofun
  · next hnothing =>
    split
    · next hasked => exact absurd (hasked.symm.trans (hnone.mpr hnothing)) nofun
    · refine ⟨?_, rfl, Iff.rfl⟩
      simp only [summary, happlicable, hconditional]
      exact hboard.note _

theorem rewind (halike : Alike h left right) (hleft : left.Reachable limits)
    (hright : right.Reachable limits) {target : Fact} (kept steps : Nat)
    (hmem : target ∈ left.memory.history.map (·.1)) :
    Alike h (left.rewind limits kept steps target) (right.rewind limits kept steps target) := by
  have hclearedLeft := (hleft.clear hmem).justified
  have hclearedRight := (hright.clear (by rwa [halike.memory_eq])).justified
  have hlog : right.log = left.log := halike.board.log
  rw [halike.memory_eq, hlog] at hclearedRight
  obtain ⟨-, hpass⟩ := h.lockstep.convergeOnce hclearedLeft hclearedRight (h.alike_fresh _ _)
    limits.maxPropagationIterations
  rw [rewind_eq, rewind_eq, halike.memory_eq, hlog]
  refine ⟨?_, rfl, by simp⟩
  generalize (left.memory.history.take (kept + 1)).map (·.1) = asked
  have hmarkedLeft := KnowledgeBase.preserves_foldl_markEvaluating
    (P := fun board => h.Alike board _) (fun _ fact halike => halike.markLeft fact) asked hpass
  have hmarked := KnowledgeBase.preserves_foldl_markEvaluating
    (P := fun board => h.Alike _ board) (fun _ fact halike => halike.markRight fact) asked
    hmarkedLeft
  exact hmarked.note _

section

variable (hpasses : 2 * kb.size + 1 ≤ limits.maxEvaluationPasses)

include hpasses

theorem begin (halike : Alike h left right) (hleft : left.Reachable limits)
    (hright : right.Reachable limits) : Alike h (left.begin limits) (right.begin limits) := by
  have hgoals : other.goals.length = kb.goals.length := by rw [h.goals_eq, List.length_map]
  unfold Session.begin
  rw [hgoals]
  exact (halike.record _).proceed hpasses (hleft.note _) (hright.note _)

theorem acceptAnswer (halike : Alike h left right) (hleft : left.Reachable limits)
    (hright : right.Reachable limits) (value : Answer) (normalizedFrom : Option String)
    (hcondition : kb.isCondition fact = true) (hnew : left.memory.finding fact = none) :
    Alike h (left.acceptAnswer limits fact value normalizedFrom)
      (right.acceptAnswer limits fact value normalizedFrom) := by
  rw [acceptAnswer_eq, acceptAnswer_eq]
  refine (halike.enterAnswer fact value normalizedFrom).proceed hpasses
    (hleft.enterAnswer value normalizedFrom hcondition hnew)
    (hright.enterAnswer value normalizedFrom ?_ ?_)
  · rwa [h.isCondition_eq]
  · rwa [halike.memory_eq]

/-- What one consultation accepts, the other accepts as well, and they come to the
    same point. -/
theorem accepts (halike : Alike h left right) (hleft : left.Reachable limits)
    (hright : right.Reachable limits) (haccepts : left.Accepts limits operation leftNext) :
    ∃ rightNext, right.Accepts limits operation rightNext ∧ Alike h leftNext rightNext := by
  have hcondition {fact : Fact} (hfact : kb.isCondition fact = true) :
      other.isCondition fact = true := by rwa [h.isCondition_eq]
  have hnew {fact : Fact} (hfact : left.memory.finding fact = none) :
      right.memory.finding fact = none := by rwa [halike.memory_eq]
  cases haccepts with
  | seed fact value hphase hfact hfinding =>
    exact ⟨_, .seed fact value (halike.phase.trans hphase) (hcondition hfact) (hnew hfinding),
      (halike.putFinding fact _).record _⟩
  | start hphase =>
    exact ⟨_, .start (halike.phase.trans hphase), halike.begin hpasses hleft hright⟩
  | answer fact value hphase hfact hfinding =>
    exact ⟨_, .answer fact value (halike.phase.trans hphase) (hcondition hfact) (hnew hfinding),
      halike.acceptAnswer hpasses hleft hright _ _ hfact hfinding⟩
  | answerToken fact token hphase hfact hfinding =>
    exact ⟨_,
      .answerToken fact token (halike.phase.trans hphase) (hcondition hfact) (hnew hfinding),
      halike.acceptAnswer hpasses hleft hright _ _ hfact hfinding⟩
  | goBack steps hphase hpositive hlt hle =>
    have hmem := List.mem_map_of_mem (f := (·.1)) (List.getElem_mem hlt)
    have hback := halike.rewind hleft hright (left.memory.history.length - steps) steps hmem
    have haccepted : right.Accepts limits (.goBack steps) _ :=
      .goBack steps (by rwa [halike.phase]) hpositive (by rwa [halike.memory_eq])
        (by rwa [halike.memory_eq])
    simp only [halike.memory_eq] at haccepted
    exact ⟨_, haccepted, hback⟩
  | restart =>
    exact ⟨_, .restart, (alike_idle h).begin hpasses (reachable_idle kb) (reachable_idle other)⟩

end

theorem checkAnswerable_eq (halike : Alike h left right) (fact : Fact) :
    right.checkAnswerable fact = left.checkAnswerable fact := by
  unfold checkAnswerable
  rw [h.isCondition_eq, halike.memory_eq]

theorem checkAnswer_eq (halike : Alike h left right) (fact : Fact) :
    right.checkAnswer fact = left.checkAnswer fact := by
  unfold checkAnswer
  rw [halike.phase, halike.checkAnswerable_eq]

theorem refuses (halike : Alike h left right) {reason : SessionError}
    (hrefuses : left.Refuses operation reason) : right.Refuses operation reason := by
  cases hrefuses with
  | seedAfterStart fact value hphase => exact .seedAfterStart fact value (by rwa [halike.phase])
  | seed fact value hphase hcheck =>
    exact .seed fact value (by rwa [halike.phase]) (by rwa [halike.checkAnswerable_eq])
  | start hphase => exact .start (by rwa [halike.phase])
  | answer fact value hcheck => exact .answer fact value (by rwa [halike.checkAnswer_eq])
  | answerToken fact token hcheck => exact .answerToken fact token (by rwa [halike.checkAnswer_eq])
  | goBackBeforeStart steps hphase => exact .goBackBeforeStart steps (by rwa [halike.phase])
  | goBackOutOfRange steps hphase hrange =>
    rw [← halike.memory_eq] at hrange ⊢
    exact .goBackOutOfRange steps (by rwa [halike.phase]) hrange

section

variable (hpasses : 2 * kb.size + 1 ≤ limits.maxEvaluationPasses)

include hpasses

/-- An operation is refused by both on the same grounds, or accepted by both. -/
theorem perform_eq_error_iff (halike : Alike h left right) (hleft : left.Reachable limits)
    (hright : right.Reachable limits) (operation : Operation) (reason : SessionError) :
    right.perform limits operation = .error reason ↔
      left.perform limits operation = .error reason := by
  rw [Session.perform_eq_error_iff, Session.perform_eq_error_iff]
  refine ⟨fun hrefuses => ?_, halike.refuses⟩
  rcases step_cases limits left operation with ⟨next, haccepts, -⟩ | ⟨other, hother, -⟩
  · obtain ⟨rightNext, haccepted, -⟩ := halike.accepts hpasses hleft hright haccepts
    have hok := perform_eq_ok_iff.mpr ⟨haccepted, rfl⟩
    rw [Session.perform_eq_error_iff.mpr hrefuses] at hok
    cases hok
  · have hsame : right.perform limits operation = .error other :=
      Session.perform_eq_error_iff.mpr (halike.refuses hother)
    rw [Session.perform_eq_error_iff.mpr hrefuses] at hsame
    cases hsame
    exact hother

theorem step (halike : Alike h left right) (hleft : left.Reachable limits)
    (hright : right.Reachable limits) (operation : Operation) :
    Alike h (left.step limits operation).1 (right.step limits operation).1 := by
  rcases step_cases limits left operation with ⟨next, haccepts, hstep⟩ | ⟨reason, hrefuses, hstep⟩
  · obtain ⟨rightNext, haccepted, hnext⟩ := halike.accepts hpasses hleft hright haccepts
    rw [hstep, Session.step, perform_eq_ok_iff.mpr ⟨haccepted, rfl⟩]
    exact hnext
  · rw [hstep, Session.step, Session.perform_eq_error_iff.mpr (halike.refuses hrefuses)]
    exact halike

theorem run (halike : Alike h left right) (hleft : left.Reachable limits)
    (hright : right.Reachable limits) (operations : List Operation) :
    Alike h (left.run limits operations) (right.run limits operations) := by
  induction operations generalizing left right with
  | nil => exact halike
  | cons operation rest ih =>
    exact ih (halike.step hpasses hleft hright operation) (reachable_step hleft operation)
      (reachable_step hright operation)

end

end Alike

/-- The order of the conditions drives only the order of the questions, and the
    categories only the display. Whatever is done, two consultations over rules
    that differ in no more refuse the same operations on the same grounds and stand
    at the same point after the others: with the same answers, hypotheses and
    journal, with every rule as far decided, and with the same goals that hold or
    may yet hold, each on the same conditions. -/
theorem reordering_unseen (h : kb.Reorders other)
    (hpasses : 2 * kb.size + 1 ≤ limits.maxEvaluationPasses) (operations : List Operation) :
    let left := (idle kb).run limits operations
    let right := (idle other).run limits operations
    (∀ operation reason, right.perform limits operation = .error reason ↔
      left.perform limits operation = .error reason) ∧
    right.phase = left.phase ∧ right.memory = left.memory ∧ right.log = left.log ∧
    (∀ id, (right.table.status (h.counterpart id)).unmarked = (left.table.status id).unmarked) ∧
    (∀ id, (right.table.get (h.counterpart id)).checked.Perm (left.table.get id).checked) ∧
    right.summary.applicable.map (·.action) = left.summary.applicable.map (·.action) ∧
    List.Forall₂ Conditional.Reorders left.summary.conditional right.summary.conditional ∧
    (right.question = none ↔ left.question = none) := by
  intro left right
  have hleft : left.Reachable limits := reachable_run kb limits operations
  have hright : right.Reachable limits := reachable_run other limits operations
  have halike : Alike h left right :=
    (alike_idle h).run hpasses (reachable_idle kb) (reachable_idle other) operations
  exact ⟨halike.perform_eq_error_iff hpasses hleft hright, halike.phase, halike.memory_eq,
    halike.board.log, halike.board.unmarked, halike.board.checked, halike.board.map_applicable,
    halike.board.conditional, halike.question⟩

/-- The rules of `shared` with their conditions in another order, and a category. -/
def reshuffled : KnowledgeBase where
  rules := [(Rule.needsAll ["b", "x"] "g").asGoal.inCategory "filed", Rule.needsAny ["c", "a"] "x",
    Rule.needsAny ["a", "d"] "x", (Rule.needsAll ["e", "b"] "h").asGoal]
  categories := ["filed", ""]
  wellFormed := by
    simp [Rule.wellFormed_iff, Rule.needsAll, Rule.needsAny, Rule.asGoal, Rule.inCategory,
      Text.IsBlankText, Text.isBlank]
  categories_nodup := by decide
  category_mem := by decide

theorem shared_reorders : shared.Reorders reshuffled :=
  .cons ⟨.swap _ _ _, rfl, rfl, rfl⟩ <| .cons ⟨.swap _ _ _, rfl, rfl, rfl⟩ <|
    .cons ⟨.swap _ _ _, rfl, rfl, rfl⟩ <| .cons ⟨.swap _ _ _, rfl, rfl, rfl⟩ .nil

/-- The two ask for different facts, and show other rules as asked, but agree on the
    rest. -/
theorem shared_reordering_unseen :
    let operations : List Operation := [.start, .answer "x" .unknown, .answer "a" .no, .goBack 1,
      .answer "c" .unknown, .answer "a" .no]
    let left := (idle shared).run {} operations
    let right := (idle reshuffled).run {} operations
    left.question = some "d" ∧ right.question = some "b" ∧ right.memory = left.memory ∧
      right.log = left.log ∧
      List.Forall₂ Conditional.Reorders left.summary.conditional right.summary.conditional := by
  intro operations left right
  obtain ⟨-, -, hmemory, hlog, -, -, -, hconditional, -⟩ :=
    @reordering_unseen shared reshuffled {} shared_reorders (by decide) operations
  exact ⟨by decide +kernel, by decide +kernel, hmemory, hlog, hconditional⟩

end Session

end Consultation
