import Consultation.Proofs.Inference.Reachable

namespace Consultation

namespace RuleStatus

theorem isResolved_of_isNegative {status : RuleStatus} (h : status.isNegative = true) :
    status.isResolved = true := by
  cases status <;> first | rfl | cases h

theorem isResolved_iff {status : RuleStatus} :
    status.isResolved = true ↔ status = .fired ∨ status = .blocked ∨ status = .uncertain := by
  cases status <;> simp [isResolved]

theorem isNegative_of_isResolved {status : RuleStatus} (h : status.isResolved = true)
    (hunfired : status ≠ .fired) : status.isNegative = true := by
  rcases isResolved_iff.mp h with rfl | rfl | rfl
  · exact absurd rfl hunfired
  · rfl
  · rfl

theorem isResolved_of_isTerminal {status : RuleStatus} (h : status.isTerminal = true) :
    status.isResolved = true := by
  cases status <;> first | rfl | cases h

end RuleStatus

namespace KnowledgeBase

variable {kb : KnowledgeBase}

/-- Every hypothesis rests on the statuses of the rules that conclude it, and
    every fired rule on what its conditions rest on. A fact that was refuted may
    still be proved, by a rule that was `uncertain` before. -/
structure Justified (kb : KnowledgeBase) (board : Board kb.size) : Prop where
  definite : ∀ fact, board.memory.hypothesis fact ≠ some .unknown
  holds : ∀ fact, board.memory.hypothesis fact = some .holds →
    ∃ id ∈ kb.concluding fact, board.table.status id = .fired
  fails : ∀ fact, board.memory.hypothesis fact = some .fails →
    (∃ id ∈ kb.concluding fact, (kb.rule id).combinator = .all) ∧
      ∀ id ∈ kb.concluding fact, (board.table.status id).isResolved = true
  premises : ∀ id, board.table.status id = .fired → (kb.rule id).combinator = .all →
    ∀ condition ∈ (kb.rule id).conditions, board.memory.Records condition .holds

namespace Justified

variable {board next : Board kb.size}

/-- A fact that was derived to hold is never refuted: a rule that fired for it
    is no rule that failed. -/
theorem hypothesis_ne_holds (h : kb.Justified board) {fact : Fact}
    (hnegative : ∀ id ∈ kb.concluding fact, (board.table.status id).isNegative = true) :
    board.memory.hypothesis fact ≠ some .holds := by
  intro hholds
  obtain ⟨id, hid, hfired⟩ := h.holds fact hholds
  have hstatus := hnegative id hid
  rw [hfired] at hstatus
  cases hstatus

/-- Firing leaves nothing to promote, since a rule fires on conditions that were
    answered yes or derived. -/
theorem not_promotable (h : kb.Justified board) {id : kb.Id}
    (hfired : board.table.status id = .fired) (hcombinator : (kb.rule id).combinator = .all)
    {condition : Fact} (hmem : condition ∈ (kb.rule id).conditions)
    (hfinding : board.memory.finding condition = some .unknown) :
    board.memory.hypothesis condition = some .holds := by
  rcases h.premises id hfired hcombinator condition hmem with hholds | hholds
  · rw [hfinding] at hholds
    cases hholds
  · exact hholds

theorem evaluate (h : kb.Justified board) (id : kb.Id) :
    kb.Justified { board with table := kb.evaluateRule board.memory board.table id } := by
  have hstep : kb.Infers board _ := .evaluate board id
  refine ⟨h.definite, fun fact hfact => ?_, fun fact hfact => ?_, fun query hfired => ?_⟩
  · obtain ⟨other, hother, hfired⟩ := h.holds fact hfact
    refine ⟨other, hother, ?_⟩
    rw [hstep.status_eq_of_isTerminal (by rw [hfired]; rfl), hfired]
  · obtain ⟨hall, hresolved⟩ := h.fails fact hfact
    exact ⟨hall, fun other hother => hstep.isResolved (hresolved other hother)⟩
  · rw [status_evaluateRule] at hfired
    split at hfired
    · next heq =>
      subst heq
      rcases kb.evaluatedStatus_cases board.memory board.table query with hkept | ⟨-, hdecided⟩
      · exact h.premises query (hkept ▸ hfired)
      · intro hcombinator condition hmem
        rw [hfired, decision_eq_fired_iff, Affirmed, Rule.BodyHolds, hcombinator] at hdecided
        exact Memory.records_of_effectiveValue (hdecided condition hmem)
    · exact h.premises query hfired

theorem derive (h : kb.Justified board) {id : kb.Id} (hfired : board.table.status id = .fired)
    (event : Event) : kb.Justified (kb.infer board (kb.rule id).action .holds event) := by
  refine ⟨fun fact => ?_, fun fact hfact => ?_, fun fact hfact => ?_, ?_⟩
  · rw [memory_infer, Memory.hypothesis_putHypothesis]
    split
    · nofun
    · exact h.definite fact
  · rw [memory_infer, Memory.hypothesis_putHypothesis] at hfact
    simp only [status_infer]
    split at hfact
    · next heq => exact ⟨id, mem_concluding.mpr heq.symm, hfired⟩
    · exact h.holds fact hfact
  · rw [memory_infer, Memory.hypothesis_putHypothesis] at hfact
    simp only [status_infer]
    split at hfact
    · cases hfact
    · exact h.fails fact hfact
  · intro query hquery hcombinator condition hmem
    rw [status_infer] at hquery
    rw [memory_infer, Memory.Records, Memory.hypothesis_putHypothesis,
      Memory.finding_putHypothesis]
    split
    · exact .inr rfl
    · exact h.premises query hquery hcombinator condition hmem

theorem refute (h : kb.Justified board) {id : kb.Id} (hcombinator : (kb.rule id).combinator = .all)
    (hnegative : ∀ other ∈ kb.concluding (kb.rule id).action,
      (board.table.status other).isNegative = true) (event : Event) :
    kb.Justified (kb.infer board (kb.rule id).action .fails event) := by
  have hunproved := h.hypothesis_ne_holds hnegative
  refine ⟨fun fact => ?_, fun fact hfact => ?_, fun fact hfact => ?_, ?_⟩
  · rw [memory_infer, Memory.hypothesis_putHypothesis]
    split
    · nofun
    · exact h.definite fact
  · rw [memory_infer, Memory.hypothesis_putHypothesis] at hfact
    simp only [status_infer]
    split at hfact
    · cases hfact
    · exact h.holds fact hfact
  · rw [memory_infer, Memory.hypothesis_putHypothesis] at hfact
    simp only [status_infer]
    split at hfact
    · next heq =>
      subst heq
      refine ⟨⟨id, mem_concluding.mpr rfl, hcombinator⟩, fun other hother => ?_⟩
      exact RuleStatus.isResolved_of_isNegative (hnegative other hother)
    · exact h.fails fact hfact
  · intro query hquery hcombinator condition hmem
    rw [status_infer] at hquery
    rw [memory_infer, Memory.Records, Memory.hypothesis_putHypothesis,
      Memory.finding_putHypothesis]
    have hpremise := h.premises query hquery hcombinator condition hmem
    split
    · next heq =>
      subst heq
      exact .inl (hpremise.resolve_right hunproved)
    · exact hpremise

theorem step (h : kb.Justified board) (hstep : kb.Infers board next) : kb.Justified next := by
  cases hstep with
  | evaluate id => exact h.evaluate id
  | derive id hfired => exact h.derive hfired _
  | promote id hfired hcombinator condition hmem hfinding hnew =>
    exact absurd (h.not_promotable hfired hcombinator hmem hfinding) hnew
  | refute id hcombinator hnegative => exact h.refute hcombinator hnegative _

theorem steps (h : kb.Justified board) (hsteps : kb.InfersAll board next) : kb.Justified next :=
  hsteps.preserves (fun _ _ hstep hboard => hboard.step hstep) h

/-- What each step keeps from a justified board on, any number of steps keeps. -/
theorem preserves {P : Board kb.size → Prop} (h : kb.Justified board)
    (hsteps : kb.InfersAll board next)
    (hstep : ∀ before after, kb.Justified before → kb.Infers before after → P before → P after)
    (hboard : P board) : P next := by
  have hboth : kb.Justified next ∧ P next := by
    refine hsteps.preserves (P := fun middle => kb.Justified middle ∧ P middle) ?_ ⟨h, hboard⟩
    rintro before after hinfers ⟨hbefore, hkept⟩
    exact ⟨hbefore.step hinfers, hstep before after hbefore hinfers hkept⟩
  exact hboth.2

theorem answer (h : kb.Justified board) {fact : Fact} (value : Truth)
    (hnew : board.memory.finding fact = none) :
    kb.Justified { board with memory := board.memory.putFinding fact value } := by
  refine ⟨h.definite, h.holds, h.fails, fun id hfired hcombinator condition hmem => ?_⟩
  exact (h.premises id hfired hcombinator condition hmem).putFinding value hnew

end Justified

theorem Reachable.justified {iterations : Nat} {board : Board kb.size}
    (h : kb.Reachable iterations board) : kb.Justified board := by
  refine h.invariant ?_ (fun _ _ hstep hboard => hboard.step hstep) ?_ ?_ ?_
  · intro memory log hunderived _
    have hnone (fact : Fact) : memory.hypothesis fact = none := by
      rw [Memory.hypothesis, hunderived]
      rfl
    refine ⟨fun fact => ?_, fun fact hfact => ?_, fun fact hfact => ?_, fun id hfired => ?_⟩
    · rw [hnone]
      nofun
    · rw [hnone] at hfact
      cases hfact
    · rw [hnone] at hfact
      cases hfact
    · rw [RuleTable.status_fresh] at hfired
      cases hfired
  · intro board fact hboard
    have hfired (id : kb.Id) : (kb.markEvaluating board.table fact).status id = .fired ↔
        board.table.status id = .fired := status_markEvaluating_of_isResolved rfl
    refine ⟨hboard.definite, fun query hquery => ?_, fun query hquery => ?_, fun id hid => ?_⟩
    · obtain ⟨id, hid, hstatus⟩ := hboard.holds query hquery
      exact ⟨id, hid, (hfired id).mpr hstatus⟩
    · obtain ⟨hall, hresolved⟩ := hboard.fails query hquery
      refine ⟨hall, fun id hid => ?_⟩
      rw [(status_markEvaluating_of_isResolved (hresolved id hid)).mpr rfl]
      exact hresolved id hid
    · exact hboard.premises id ((hfired id).mp hid)
  · exact fun _ _ hboard => ⟨hboard.definite, hboard.holds, hboard.fails, hboard.premises⟩
  · exact fun _ _ value _ hnew hboard => hboard.answer value hnew

/-- Only facts that some rule concludes are ever derived. -/
theorem Justified.isDerived_of_hypothesis {board : Board kb.size} (h : kb.Justified board)
    {fact : Fact} {value : Truth} (hvalue : board.memory.hypothesis fact = some value) :
    kb.isDerived fact = true := by
  have hconcluding : ∃ id, id ∈ kb.concluding fact := by
    cases value with
    | holds =>
      obtain ⟨id, hid, -⟩ := h.holds fact hvalue
      exact ⟨id, hid⟩
    | fails =>
      obtain ⟨⟨id, hid, -⟩, -⟩ := h.fails fact hvalue
      exact ⟨id, hid⟩
    | unknown => exact absurd hvalue (h.definite fact)
  obtain ⟨id, hid⟩ := hconcluding
  exact isDerived_iff.mpr ⟨id, mem_concluding.mp hid⟩

/-- What the rules see of a fact: what was derived about it, and its answer
    where nothing was. -/
theorem Justified.effectiveValue_eq {board : Board kb.size} (h : kb.Justified board) (fact : Fact) :
    kb.effectiveValue board.memory fact =
      (board.memory.hypothesis fact <|> board.memory.finding fact) := by
  unfold effectiveValue Memory.effectiveValue Memory.rawValue
  cases hhypothesis : board.memory.hypothesis fact with
  | none => cases board.memory.finding fact <;> simp
  | some value =>
    have hdefinite : value.isDefinite = true :=
      Truth.isDefinite_iff.mpr fun heq => h.definite fact (heq ▸ hhypothesis)
    rw [h.isDerived_of_hypothesis hhypothesis]
    simp [Option.filter, hdefinite]

/-- A fact is refutable when a rule that needs all its conditions concludes it.
    No other fact is ever derived to fail. -/
def Refutable (kb : KnowledgeBase) (fact : Fact) : Prop :=
  ∃ id ∈ kb.concluding fact, (kb.rule id).combinator = .all

instance (kb : KnowledgeBase) : DecidablePred kb.Refutable := fun fact =>
  inferInstanceAs (Decidable (∃ id ∈ kb.concluding fact, (kb.rule id).combinator = .all))

/-- What a step of inference can do to the hypothesis about one fact. -/
inductive Writes (kb : KnowledgeBase) (board next : Board kb.size) (fact : Fact) : Prop where
  | kept (h : next.memory.hypothesis fact = board.memory.hypothesis fact)
  | derived (hstatus : ∀ query, next.table.status query = board.table.status query)
      (id : kb.Id) (hid : id ∈ kb.concluding fact) (hfired : board.table.status id = .fired)
      (hnew : ¬ board.memory.Records fact .holds)
      (h : next.memory.hypothesis fact = some .holds)
  | refuted (hstatus : ∀ query, next.table.status query = board.table.status query)
      (hrefutable : kb.Refutable fact)
      (hnegative : ∀ id ∈ kb.concluding fact, (board.table.status id).isNegative = true)
      (hnew : ¬ board.memory.Records fact .fails) (hlog : .refuted fact fact ∈ next.log)
      (h : next.memory.hypothesis fact = some .fails)

theorem Justified.writes {board next : Board kb.size} (h : kb.Justified board)
    (hstep : kb.Infers board next) (fact : Fact) : kb.Writes board next fact := by
  cases hstep with
  | evaluate => exact .kept rfl
  | derive id hfired hraw hnew =>
    by_cases heq : fact = (kb.rule id).action
    · subst heq
      exact .derived (status_infer _ _ _ _) id (mem_concluding.mpr rfl) hfired
        (Memory.not_records_iff.mpr ⟨hraw, hnew⟩) (by simp)
    · exact .kept (by simp [heq])
  | promote id hfired hcombinator condition hmem hfinding hnew =>
    exact absurd (h.not_promotable hfired hcombinator hmem hfinding) hnew
  | refute id hcombinator hnegative hraw hnew =>
    by_cases heq : fact = (kb.rule id).action
    · subst heq
      exact .refuted (status_infer _ _ _ _) ⟨id, mem_concluding.mpr rfl, hcombinator⟩ hnegative
        (Memory.not_records_iff.mpr ⟨hraw, hnew⟩) (by simp) (by simp)
    · exact .kept (by simp [heq])

/-- What was derived to hold is never withdrawn. -/
theorem Justified.hypothesis_holds {board next : Board kb.size} (h : kb.Justified board)
    (hstep : kb.Infers board next) {fact : Fact}
    (hholds : board.memory.hypothesis fact = some .holds) :
    next.memory.hypothesis fact = some .holds := by
  cases h.writes hstep fact with
  | kept hkept => rw [hkept, hholds]
  | derived _ _ _ _ _ hnext => exact hnext
  | refuted _ _ hnegative => exact absurd hholds (h.hypothesis_ne_holds hnegative)

end KnowledgeBase

end Consultation
