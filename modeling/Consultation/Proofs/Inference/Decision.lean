import Consultation.Inference.Evaluation
import Consultation.Proofs.Derivable
import Consultation.Proofs.Memory
import Mathlib.Logic.Basic

namespace Consultation

namespace KnowledgeBase

variable (kb : KnowledgeBase)

/-- What the present values of its conditions decide about a rule. -/
def decision (memory : Memory) (table : RuleTable kb.size) (id : kb.Id) : Option RuleStatus :=
  kb.classify table id ((kb.conditionValues memory id).map (·.2))

/-- The values of its conditions prove the rule's body. -/
def Affirmed (memory : Memory) (id : kb.Id) : Prop :=
  (kb.rule id).BodyHolds fun condition => kb.effectiveValue memory condition = some .holds

/-- The values of its conditions keep the rule's body from holding. -/
def Denied (memory : Memory) (id : kb.Id) : Prop :=
  (kb.rule id).BodyFails fun condition => kb.effectiveValue memory condition = some .fails

/-- Nothing more can be asked for the sake of a rule: every condition has a
    value, and where one condition would be enough, none of them is an `unknown`
    that may still be overridden. -/
def Exhausted (memory : Memory) (table : RuleTable kb.size) (id : kb.Id) : Prop :=
  ∀ condition ∈ (kb.rule id).conditions,
    kb.effectiveValue memory condition ≠ none ∧
    ((kb.rule id).combinator = .any → kb.effectiveValue memory condition = some .unknown →
      kb.isOpen table condition = false)

/-- The four ways in which evaluating a rule can go. -/
inductive Decides (memory : Memory) (table : RuleTable kb.size) (id : kb.Id) :
    Option RuleStatus → Prop where
  | fired (h : kb.Affirmed memory id) : Decides memory table id (some .fired)
  | blocked (h : kb.Denied memory id) : Decides memory table id (some .blocked)
  | uncertain (haffirmed : ¬ kb.Affirmed memory id) (hdenied : ¬ kb.Denied memory id)
      (h : kb.Exhausted memory table id) : Decides memory table id (some .uncertain)
  | undecided (haffirmed : ¬ kb.Affirmed memory id) (hdenied : ¬ kb.Denied memory id)
      (h : ¬ kb.Exhausted memory table id) : Decides memory table id none

variable {kb} {memory : Memory} {table : RuleTable kb.size} {id : kb.Id}

theorem isOpen_eq_false_iff {fact : Fact} :
    kb.isOpen table fact = false ↔
      ∀ id ∈ kb.concluding fact, (table.status id).isResolved = true := by
  simp [isOpen]

theorem Affirmed.not_denied (h : kb.Affirmed memory id) : ¬ kb.Denied memory id := by
  intro hdenied
  obtain ⟨condition, -, hholds, hfails⟩ := Rule.BodyHolds.exists_of_bodyFails h hdenied
  rw [hholds] at hfails
  cases hfails

/-- What the values of the conditions decide about a rule that needs all of
    them, said of the conditions themselves. -/
private theorem classifyAll_map (conditions : List Fact) (value : Fact → Option Truth) :
    classifyAll (conditions.map value) =
      if ∀ condition ∈ conditions, value condition = some .holds then some .fired
      else if ∃ condition ∈ conditions, value condition = some .fails then some .blocked
      else if ∀ condition ∈ conditions, value condition ≠ none then some .uncertain
      else none := by
  simp [classifyAll, Option.isSome_iff_ne_none]

private theorem classifyAny_map (isOpen : Fact → Bool) (conditions : List Fact)
    (value : Fact → Option Truth) :
    classifyAny isOpen conditions (conditions.map value) =
      if ∃ condition ∈ conditions, value condition = some .holds then some .fired
      else if ∃ condition ∈ conditions, value condition = none ∨
          value condition = some .unknown ∧ isOpen condition = true then none
      else if ∃ condition ∈ conditions, value condition = some .unknown then some .uncertain
      else some .blocked := by
  rw [classifyAny, ← List.map_prod_left_eq_zip]
  simp

private theorem decides_all (hcombinator : (kb.rule id).combinator = .all) :
    kb.Decides memory table id
      (classifyAll ((kb.rule id).conditions.map (kb.effectiveValue memory))) := by
  have haffirmed : kb.Affirmed memory id ↔
      ∀ c ∈ (kb.rule id).conditions, kb.effectiveValue memory c = some .holds := by
    rw [Affirmed, Rule.BodyHolds, hcombinator]
  have hdenied : kb.Denied memory id ↔
      ∃ c ∈ (kb.rule id).conditions, kb.effectiveValue memory c = some .fails := by
    rw [Denied, Rule.BodyFails, hcombinator]
  have hexhausted : kb.Exhausted memory table id ↔
      ∀ c ∈ (kb.rule id).conditions, kb.effectiveValue memory c ≠ none := by
    simp [Exhausted, hcombinator]
  rw [classifyAll_map]
  split
  · next h => exact .fired (haffirmed.mpr h)
  · next hnot =>
    split
    · next h => exact .blocked (hdenied.mpr h)
    · next hnot' =>
      split
      · next h => exact .uncertain (mt haffirmed.mp hnot) (mt hdenied.mp hnot') (hexhausted.mpr h)
      · next h =>
        exact .undecided (mt haffirmed.mp hnot) (mt hdenied.mp hnot') (mt hexhausted.mp h)

private theorem decides_any (hcombinator : (kb.rule id).combinator = .any) :
    kb.Decides memory table id
      (classifyAny (kb.isOpen table) (kb.rule id).conditions
        ((kb.rule id).conditions.map (kb.effectiveValue memory))) := by
  have haffirmed : kb.Affirmed memory id ↔
      ∃ c ∈ (kb.rule id).conditions, kb.effectiveValue memory c = some .holds := by
    rw [Affirmed, Rule.BodyHolds, hcombinator]
  have hdenied : kb.Denied memory id ↔
      ∀ c ∈ (kb.rule id).conditions, kb.effectiveValue memory c = some .fails := by
    rw [Denied, Rule.BodyFails, hcombinator]
  have hexhausted : kb.Exhausted memory table id ↔
      ¬ ∃ c ∈ (kb.rule id).conditions, kb.effectiveValue memory c = none ∨
        kb.effectiveValue memory c = some .unknown ∧ kb.isOpen table c = true := by
    simp [Exhausted, hcombinator, not_or]
  rw [classifyAny_map]
  split
  · next h => exact .fired (haffirmed.mpr h)
  · next hnot =>
    split
    · next h =>
      refine .undecided (mt haffirmed.mp hnot) (fun hfails => ?_)
        fun hexhausted' => hexhausted.mp hexhausted' h
      obtain ⟨c, hc, hvalue⟩ := h
      simp [hdenied.mp hfails c hc] at hvalue
    · next hnot' =>
      split
      · next h =>
        refine .uncertain (mt haffirmed.mp hnot) (fun hfails => ?_) (hexhausted.mpr hnot')
        obtain ⟨c, hc, hvalue⟩ := h
        simp [hdenied.mp hfails c hc] at hvalue
      · next hnot'' =>
        refine .blocked (hdenied.mpr fun c hc => ?_)
        -- No other value is left for the condition.
        cases hvalue : kb.effectiveValue memory c with
        | none => exact absurd ⟨c, hc, .inl hvalue⟩ hnot'
        | some truth =>
          cases truth with
          | holds => exact absurd ⟨c, hc, hvalue⟩ hnot
          | fails => rfl
          | unknown => exact absurd ⟨c, hc, hvalue⟩ hnot''

theorem decides (kb : KnowledgeBase) (memory : Memory) (table : RuleTable kb.size) (id : kb.Id) :
    kb.Decides memory table id (kb.decision memory table id) := by
  have hvalues : (kb.conditionValues memory id).map (·.2) =
      (kb.rule id).conditions.map (kb.effectiveValue memory) := by
    simp [conditionValues]
  rw [decision, hvalues, classify]
  cases hcombinator : (kb.rule id).combinator with
  | all => exact decides_all hcombinator
  | any => exact decides_any hcombinator

theorem decision_eq_fired_iff :
    kb.decision memory table id = some .fired ↔ kb.Affirmed memory id := by
  have h := kb.decides memory table id
  generalize kb.decision memory table id = decided at h ⊢
  cases h with
  | fired h => simp [h]
  | blocked h =>
    have hnot : ¬ kb.Affirmed memory id := fun haffirmed => haffirmed.not_denied h
    simp [hnot]
  | uncertain haffirmed => simp [haffirmed]
  | undecided haffirmed => simp [haffirmed]

theorem decision_eq_blocked_iff :
    kb.decision memory table id = some .blocked ↔ kb.Denied memory id := by
  have h := kb.decides memory table id
  generalize kb.decision memory table id = decided at h ⊢
  cases h with
  | fired h => simp [h.not_denied]
  | blocked h => simp [h]
  | uncertain _ hdenied => simp [hdenied]
  | undecided _ hdenied => simp [hdenied]

/-- The four ways exclude each other. -/
theorem Decides.eq {decided : Option RuleStatus} (h : kb.Decides memory table id decided) :
    kb.decision memory table id = decided := by
  cases h with
  | fired haffirmed => exact decision_eq_fired_iff.mpr haffirmed
  | blocked hdenied => exact decision_eq_blocked_iff.mpr hdenied
  | uncertain haffirmed hdenied hexhausted =>
    have hdecides := kb.decides memory table id
    generalize kb.decision memory table id = decided at hdecides ⊢
    cases hdecides with
    | fired h => exact absurd h haffirmed
    | blocked h => exact absurd h hdenied
    | uncertain => rfl
    | undecided _ _ hnot => exact absurd hexhausted hnot
  | undecided haffirmed hdenied hopen =>
    have hdecides := kb.decides memory table id
    generalize kb.decision memory table id = decided at hdecides ⊢
    cases hdecides with
    | fired h => exact absurd h haffirmed
    | blocked h => exact absurd h hdenied
    | uncertain _ _ h => exact absurd h hopen
    | undecided => rfl

/-- Once a rule is exhausted, something is decided about it. -/
theorem Exhausted.decision_ne_none (h : kb.Exhausted memory table id) :
    kb.decision memory table id ≠ none := by
  have hdecides := kb.decides memory table id
  generalize kb.decision memory table id = decided at hdecides ⊢
  cases hdecides with
  | undecided _ _ hnot => exact absurd h hnot
  | fired | blocked | uncertain => simp

/-- A decision never leaves a rule unresolved. -/
theorem isResolved_of_decision {status : RuleStatus}
    (h : kb.decision memory table id = some status) : status.isResolved = true := by
  have hdecides := kb.decides memory table id
  rw [h] at hdecides
  cases hdecides <;> rfl

theorem evaluatedStatus_of_isTerminal (h : (table.status id).isTerminal = true) :
    kb.evaluatedStatus memory table id = table.status id := by
  simp [evaluatedStatus, h]

theorem evaluatedStatus_of_not_isTerminal (h : (table.status id).isTerminal = false) :
    kb.evaluatedStatus memory table id =
      (kb.decision memory table id).getD (table.status id) := by
  simp [evaluatedStatus, decision, h]

/-- A rule keeps its status when it is evaluated, or it was not terminal and
    takes the status that is decided. -/
theorem evaluatedStatus_cases (kb : KnowledgeBase) (memory : Memory) (table : RuleTable kb.size)
    (id : kb.Id) :
    kb.evaluatedStatus memory table id = table.status id ∨
      (table.status id).isTerminal = false ∧
        kb.decision memory table id = some (kb.evaluatedStatus memory table id) := by
  cases hterminal : (table.status id).isTerminal with
  | true => exact .inl (evaluatedStatus_of_isTerminal hterminal)
  | false =>
    rw [evaluatedStatus_of_not_isTerminal hterminal]
    cases kb.decision memory table id with
    | none => exact .inl rfl
    | some status => exact .inr ⟨rfl, rfl⟩

@[simp]
theorem status_evaluateRule (memory : Memory) (table : RuleTable kb.size) (id query : kb.Id) :
    (kb.evaluateRule memory table id).status query =
      if query = id then kb.evaluatedStatus memory table id else table.status query := by
  rw [evaluateRule, RuleTable.status, RuleTable.get_set]
  split <;> rfl

/-- What is decided depends on the statuses of the other rules only through
    which of them are resolved. -/
theorem decision_congr {table' : RuleTable kb.size}
    (h : ∀ id, (table.status id).isResolved = (table'.status id).isResolved) :
    kb.decision memory table id = kb.decision memory table' id := by
  have hopen : kb.isOpen table = kb.isOpen table' := by
    funext fact
    simp only [isOpen, h]
  rw [decision, decision, classify, classify, hopen]

end KnowledgeBase

end Consultation
