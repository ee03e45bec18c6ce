import Consultation.Proofs.Inference.Completion
import Consultation.Proofs.Session.Dialogue

namespace Consultation

namespace Session

variable {kb : KnowledgeBase} {limits : Limits} {session next : Session kb} {operation : Operation}

theorem faithful_accepts (h : session.memory.Faithful)
    (haccepts : session.Accepts limits operation next) : next.memory.Faithful := by
  have hanswers : session.memory.answers.Faithful := Memory.faithful_answers.mpr h
  cases haccepts with
  | seed fact value _ _ hnew => exact h.putFinding _ hnew
  | start =>
    rw [← Memory.faithful_answers, answers_begin]
    exact hanswers
  | answer fact value _ _ hnew =>
    rw [← Memory.faithful_answers, answers_acceptAnswer]
    exact hanswers.putFinding _ hnew
  | answerToken fact token _ _ hnew =>
    rw [← Memory.faithful_answers, answers_acceptAnswer]
    exact hanswers.putFinding _ hnew
  | goBack steps _ _ hlt =>
    rw [← Memory.faithful_answers, answers_rewind, Memory.faithful_answers]
    exact h.clearAfter (List.mem_map_of_mem (List.getElem_mem hlt))
  | restart =>
    rw [← Memory.faithful_answers, answers_begin]
    exact ⟨List.nodup_nil, fun _ => rfl⟩

/-- The findings are always what the history tells. -/
theorem faithful_run (kb : KnowledgeBase) (limits : Limits) (operations : List Operation) :
    ((idle kb).run limits operations).memory.Faithful :=
  run_preserves operations (fun _ _ _ _ h haccepts => faithful_accepts h haccepts)
    ⟨List.nodup_nil, fun _ => rfl⟩

/-- A consultation that is complete has come to rest, with nothing left to ask. -/
def Finished (limits : Limits) (session : Session kb) : Prop :=
  session.phase = .complete → kb.Settled session.board ∧
    kb.nextQuestion session.memory session.table limits.maxQuestionDepth = none

theorem Reachable.finished_proceed (h : session.Reachable limits) (hlimits : limits.Ample kb) :
    (session.proceed limits).Finished limits := by
  intro hcomplete
  refine ⟨h.settled_proceed hlimits, ?_⟩
  rw [phase_proceed] at hcomplete
  rw [← question_proceed]
  cases hquestion : (session.proceed limits).question with
  | none => rfl
  | some fact =>
    rw [hquestion] at hcomplete
    cases hcomplete

theorem Reachable.finished_accepts (h : session.Reachable limits) (hlimits : limits.Ample kb)
    (haccepts : session.Accepts limits operation next) : next.Finished limits := by
  have hproceed : ∀ entered, session.entered operation = some entered → next.Finished limits := by
    intro entered hentered
    rw [haccepts.eq_proceed hentered]
    exact Reachable.finished_proceed (h.entered haccepts hentered) hlimits
  cases haccepts with
  | seed _ _ hphase =>
    intro hcomplete
    change session.phase = .complete at hcomplete
    rw [hphase] at hcomplete
    cases hcomplete
  | goBack =>
    intro hcomplete
    cases hcomplete
  | start | answer | answerToken | restart => exact hproceed _ rfl

theorem finished_run (hlimits : limits.Ample kb) (operations : List Operation) :
    ((idle kb).run limits operations).Finished limits :=
  run_invariant operations nofun fun _ _ _ hreachable _ haccepts =>
    hreachable.finished_accepts hlimits haccepts

/-- The goals of a given status, in declaration order. -/
def goalsOf (session : Session kb) (status : RuleStatus) : List kb.Id :=
  kb.goals.filter fun id => session.table.status id = status

private theorem filterMap_eq_map_filter {α β : Type} {list : List α} {pick : α → Option β}
    {kept : α → Prop} [DecidablePred kept] {value : α → β}
    (h : ∀ entry ∈ list, pick entry = if kept entry then some (value entry) else none) :
    list.filterMap pick = (list.filter fun entry => kept entry).map value := by
  rw [← List.filterMap_eq_map, List.filterMap_filter]
  refine List.filterMap_congr fun entry hmem => ?_
  rw [h entry hmem]
  simp only [decide_eq_true_eq, Function.comp_apply]

theorem applicable_eq_map (session : Session kb) :
    session.summary.applicable = (session.goalsOf .fired).map fun id =>
      ⟨(kb.rule id).action, (kb.rule id).category⟩ :=
  filterMap_eq_map_filter fun _ _ => rfl

/-- Where every goal is resolved, and the uncertain ones have conditions that
    are `unknown`, exactly those are conditional. -/
theorem conditional_eq_map
    (hresolved : ∀ id ∈ kb.goals, (session.table.status id).isResolved = true)
    (hunknown : ∀ id ∈ kb.goals, session.table.status id = .uncertain →
      kb.unknownConditions session.memory id ≠ []) :
    session.summary.conditional = (session.goalsOf .uncertain).map fun id =>
      ⟨(kb.rule id).action, (kb.rule id).category,
        kb.unknownConditions session.memory id⟩ := by
  refine filterMap_eq_map_filter fun id hid => ?_
  change kb.conditional? session.memory session.table id = _
  rcases RuleStatus.isResolved_iff.mp (hresolved id hid) with hstatus | hstatus | hstatus
  · simp [KnowledgeBase.conditional?, hstatus, RuleStatus.isTerminal]
  · simp [KnowledgeBase.conditional?, hstatus, RuleStatus.isTerminal]
  · simp [KnowledgeBase.conditional?, hstatus, RuleStatus.isTerminal, hunknown id hid hstatus]

/-- No goal is left hanging at the end of a consultation over rules without
    cycles: every goal has fired, is blocked or is uncertain. The goals that fired
    are those reported as applicable, and the uncertain ones are those reported as
    conditional, each on conditions that were all answered `unknown`. -/
theorem complete_goals_decided (hacyclic : ∀ path, .cycle path ∉ kb.issues)
    (hlimits : limits.Ample kb) (hdepth : kb.size ≤ limits.maxQuestionDepth)
    (operations : List Operation)
    (hcomplete : ((idle kb).run limits operations).phase = .complete) :
    let session := (idle kb).run limits operations
    (∀ id ∈ kb.goals, session.table.status id = .fired ∨ session.table.status id = .blocked ∨
      session.table.status id = .uncertain) ∧
    session.summary.applicable = (session.goalsOf .fired).map (fun id =>
      ⟨(kb.rule id).action, (kb.rule id).category⟩) ∧
    session.summary.conditional = (session.goalsOf .uncertain).map (fun id =>
      ⟨(kb.rule id).action, (kb.rule id).category,
        kb.unknownConditions session.memory id⟩) ∧
    ∀ goal ∈ session.summary.conditional, goal.unknownConditions ≠ [] ∧
      goal.unknownConditions ⊆ session.summary.unknownAnswers := by
  intro session
  obtain ⟨hsettled, hnone⟩ := finished_run hlimits operations hcomplete
  have hjustified : kb.Justified session.board := (reachable_run kb limits operations).justified
  have hresolved : ∀ id ∈ kb.goals, (session.table.status id).isResolved = true := fun id hid =>
    hsettled.isResolved_of_nextQuestion (KnowledgeBase.acyclic_iff.mpr hacyclic) hdepth hnone hid
  have hunknown : ∀ id ∈ kb.goals, session.table.status id = .uncertain →
      kb.unknownConditions session.memory id ≠ [] := by
    intro id hid huncertain
    have hopen : (session.table.status id).isTerminal = false := by rw [huncertain]; rfl
    exact hsettled.unknownConditions_ne_nil hopen hnone hid
  have hconditional := conditional_eq_map hresolved hunknown
  refine ⟨fun id hid => RuleStatus.isResolved_iff.mp (hresolved id hid),
    applicable_eq_map session, hconditional, fun goal hgoal => ?_⟩
  rw [hconditional] at hgoal
  obtain ⟨id, hid, rfl⟩ := List.mem_map.mp hgoal
  obtain ⟨hid, huncertain⟩ := List.mem_filter.mp hid
  exact ⟨hunknown id hid (of_decide_eq_true huncertain),
    hjustified.unknownConditions_subset (faithful_run kb limits operations) id⟩

/-- A goal over a fact that two rules conclude, each from one of two facts, and
    a goal that shares its other condition. -/
def shared : KnowledgeBase where
  rules := [(Rule.needsAll ["x", "b"] "g").asGoal, Rule.needsAny ["a", "c"] "x",
    Rule.needsAny ["d", "a"] "x", (Rule.needsAll ["b", "e"] "h").asGoal]
  categories := [""]
  wellFormed := by
    simp [Rule.wellFormed_iff, Rule.needsAll, Rule.needsAny, Rule.asGoal, Text.IsBlankText,
      Text.isBlank]
  categories_nodup := List.nodup_singleton _
  category_mem := by decide

theorem shared_goals_decided :
    let session := (idle shared).run {}
      [.start, .answer "x" .unknown, .answer "a" .no, .answer "c" .unknown, .answer "d" .unknown,
        .answer "b" .yes, .answer "e" .no]
    session.phase = .complete ∧ ⟨"g", "", ["x"]⟩ ∈ session.summary.conditional ∧
      ∀ goal ∈ session.summary.conditional, goal.unknownConditions ≠ [] ∧
        goal.unknownConditions ⊆ session.summary.unknownAnswers := by
  intro session
  have hacyclic : ∀ path, .cycle path ∉ shared.issues := by
    have hissues : shared.issues = [.duplicateAction "x" 2] := by decide +kernel
    simp [hissues]
  have hcomplete : session.phase = .complete := by decide +kernel
  have hgoal : ⟨"g", "", ["x"]⟩ ∈ session.summary.conditional := by decide +kernel
  have hlimits : Limits.Ample {} shared := ⟨by decide, by decide⟩
  have hdecided := complete_goals_decided hacyclic hlimits (by decide) _ hcomplete
  exact ⟨hcomplete, hgoal, hdecided.2.2.2⟩

end Session

end Consultation
