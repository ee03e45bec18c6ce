import Consultation.Proofs.Inference.Convergence

namespace Consultation

namespace KnowledgeBase

variable {kb : KnowledgeBase} {memory : Memory} {table : RuleTable kb.size}

private theorem scanConditions_eq_some {combinator : Combinator} {pursue : kb.Id → Option Fact}
    {conditions : List Fact} {found : Fact}
    (h : kb.scanConditions memory combinator pursue conditions = some found) :
    (found ∈ conditions ∧ kb.effectiveValue memory found = none) ∨
      ∃ id, pursue id = some found := by
  induction conditions with
  | nil => cases h
  | cons condition rest ih =>
    have hrest (h : kb.scanConditions memory combinator pursue rest = some found) :
        (found ∈ condition :: rest ∧ kb.effectiveValue memory found = none) ∨
          ∃ id, pursue id = some found :=
      (ih h).imp_left fun hfound => ⟨List.mem_cons_of_mem _ hfound.1, hfound.2⟩
    rw [scanConditions] at h
    cases hvalue : kb.effectiveValue memory condition with
    | none =>
      simp only [hvalue, Option.some.injEq] at h
      subst h
      exact .inl ⟨List.mem_cons_self, hvalue⟩
    | some truth =>
      cases truth with
      | unknown =>
        simp only [hvalue] at h
        rcases (Option.orElse_eq_some _ _ _).mp h with hpursued | ⟨-, hskipped⟩
        · obtain ⟨id, -, hid⟩ := List.exists_of_findSome?_eq_some hpursued
          exact .inr ⟨id, hid⟩
        · exact hrest hskipped
      | fails =>
        simp only [hvalue] at h
        split at h
        · cases h
        · exact hrest h
      | holds =>
        simp only [hvalue] at h
        split at h
        · cases h
        · exact hrest h

/-- Only conditions without a value are asked. -/
theorem searchBelow_eq_some {levels : Nat} {path : List kb.Id} {id : kb.Id} {found : Fact}
    (h : kb.searchBelow memory table levels path id = some found) :
    kb.isCondition found = true ∧ kb.effectiveValue memory found = none := by
  induction levels generalizing path id with
  | zero => cases h
  | succ levels ih =>
    rw [searchBelow] at h
    split at h
    · cases h
    · rcases scanConditions_eq_some h with ⟨hmem, hvalue⟩ | ⟨other, hother⟩
      · exact ⟨isCondition_iff.mpr ⟨id, hmem⟩, hvalue⟩
      · exact ih hother

theorem nextQuestion_eq_some {maxDepth : Nat} {found : Fact}
    (h : kb.nextQuestion memory table maxDepth = some found) :
    kb.isCondition found = true ∧ kb.effectiveValue memory found = none := by
  obtain ⟨id, -, hid⟩ := List.exists_of_findSome?_eq_some h
  exact searchBelow_eq_some hid

/-- The ways in which a scan can end without a fact to ask: at a value that
    decides the rule, or after all conditions, with those pursued that were
    answered `unknown`. -/
inductive Scanned (kb : KnowledgeBase) (memory : Memory) (pursue : kb.Id → Option Fact)
    (conditions : List Fact) : Combinator → Prop where
  | blocked {condition : Fact} (hmem : condition ∈ conditions)
      (hvalue : kb.effectiveValue memory condition = some .fails) :
      Scanned kb memory pursue conditions .all
  | fired {condition : Fact} (hmem : condition ∈ conditions)
      (hvalue : kb.effectiveValue memory condition = some .holds) :
      Scanned kb memory pursue conditions .any
  | explored {combinator : Combinator}
      (hvalued : ∀ condition ∈ conditions, kb.effectiveValue memory condition ≠ none)
      (hpursued : ∀ condition ∈ conditions, kb.effectiveValue memory condition = some .unknown →
        ∀ id ∈ kb.concluding condition, pursue id = none) :
      Scanned kb memory pursue conditions combinator

private theorem Scanned.cons {combinator : Combinator} {pursue : kb.Id → Option Fact}
    {condition : Fact} {rest : List Fact} (h : kb.Scanned memory pursue rest combinator)
    (hvalued : kb.effectiveValue memory condition ≠ none)
    (hpursued : kb.effectiveValue memory condition = some .unknown →
      ∀ id ∈ kb.concluding condition, pursue id = none) :
    kb.Scanned memory pursue (condition :: rest) combinator := by
  cases h with
  | blocked hmem hvalue => exact .blocked (List.mem_cons_of_mem _ hmem) hvalue
  | fired hmem hvalue => exact .fired (List.mem_cons_of_mem _ hmem) hvalue
  | explored hrest hrest' =>
    exact .explored (List.forall_mem_cons.mpr ⟨hvalued, hrest⟩)
      (List.forall_mem_cons.mpr ⟨hpursued, hrest'⟩)

theorem scanned_of_eq_none {combinator : Combinator} {pursue : kb.Id → Option Fact}
    {conditions : List Fact} (h : kb.scanConditions memory combinator pursue conditions = none) :
    kb.Scanned memory pursue conditions combinator := by
  induction conditions with
  | nil => exact .explored (by simp) (by simp)
  | cons condition rest ih =>
    rw [scanConditions] at h
    cases hvalue : kb.effectiveValue memory condition with
    | none => simp [hvalue] at h
    | some truth =>
      cases truth with
      | unknown =>
        simp only [hvalue] at h
        obtain ⟨hpursued, hskipped⟩ := (Option.orElse_eq_none _ _).mp h
        refine (ih hskipped).cons (by simp [hvalue]) fun _ id hid => ?_
        exact List.findSome?_eq_none_iff.mp hpursued id hid
      | fails =>
        simp only [hvalue] at h
        cases combinator with
        | all => exact .blocked List.mem_cons_self hvalue
        | any => exact (ih (by simpa using h)).cons (by simp [hvalue]) (by simp [hvalue])
      | holds =>
        simp only [hvalue] at h
        cases combinator with
        | any => exact .fired List.mem_cons_self hvalue
        | all => exact (ih (by simpa using h)).cons (by simp [hvalue]) (by simp [hvalue])

/-- A rule that is terminal or already on the path is not entered. -/
theorem searchBelow_of_not_entered {levels : Nat} {path : List kb.Id} {id : kb.Id}
    (h : (table.status id).isTerminal = true ∨ id ∈ path) :
    kb.searchBelow memory table levels path id = none := by
  cases levels with
  | zero => rfl
  | succ levels =>
    have hstops : ((table.status id).isTerminal || path.contains id) = true := by simpa using h
    rw [searchBelow, if_pos hstops]

theorem scanned_of_searchBelow {levels : Nat} {path : List kb.Id} {id : kb.Id}
    (h : kb.searchBelow memory table (levels + 1) path id = none)
    (hopen : (table.status id).isTerminal = false) (hpath : id ∉ path) :
    kb.Scanned memory (kb.searchBelow memory table levels (id :: path)) (kb.rule id).conditions
      (kb.rule id).combinator := by
  have hentered : ¬ ((table.status id).isTerminal || path.contains id) = true := by
    simp [hopen, hpath]
  rw [searchBelow, if_neg hentered] at h
  exact scanned_of_eq_none h

/-- On a decided board a rule that is not terminal is explored as a whole: no
    value decides it yet. -/
theorem Decided.explored {board : Board kb.size} (h : kb.Decided board) {id : kb.Id}
    (hopen : (board.table.status id).isTerminal = false) {pursue : kb.Id → Option Fact}
    (hscanned : kb.Scanned board.memory pursue (kb.rule id).conditions (kb.rule id).combinator) :
    ∀ condition ∈ (kb.rule id).conditions, kb.effectiveValue board.memory condition ≠ none ∧
      (kb.effectiveValue board.memory condition = some .unknown →
        ∀ other ∈ kb.concluding condition, pursue other = none) := by
  generalize hcombinator : (kb.rule id).combinator = combinator at hscanned
  cases hscanned with
  | @blocked condition hmem hvalue =>
    refine absurd ?_ (h.not_denied hopen)
    rw [Denied, Rule.BodyFails, hcombinator]
    exact ⟨condition, hmem, hvalue⟩
  | @fired condition hmem hvalue =>
    refine absurd ?_ (h.not_affirmed hopen)
    rw [Affirmed, Rule.BodyHolds, hcombinator]
    exact ⟨condition, hmem, hvalue⟩
  | explored hvalued hpursued =>
    exact fun condition hmem => ⟨hvalued condition hmem, hpursued condition hmem⟩

theorem scanConditions_eq_none {combinator : Combinator} {pursue : kb.Id → Option Fact}
    {conditions : List Fact}
    (h : ∀ condition ∈ conditions, kb.effectiveValue memory condition ≠ none ∧
      (kb.effectiveValue memory condition = some .unknown →
        ∀ other ∈ kb.concluding condition, pursue other = none)) :
    kb.scanConditions memory combinator pursue conditions = none := by
  induction conditions with
  | nil => rfl
  | cons condition rest ih =>
    obtain ⟨⟨hvalued, hpursued⟩, hrest⟩ := List.forall_mem_cons.mp h
    rw [scanConditions, ih hrest]
    cases hvalue : kb.effectiveValue memory condition with
    | none => exact absurd hvalue hvalued
    | some truth =>
      cases truth with
      | unknown => simp [List.findSome?_eq_none_iff.mpr (hpursued hvalue)]
      | fails | holds => simp

/-- What the search for the sake of one rule comes to on a decided board: it finds
    nothing when every condition has a value and nothing is found below those that
    are `unknown`. The order of the conditions does not matter, because no value
    ends the scan early. -/
theorem Decided.searchBelow_eq_none_iff {board : Board kb.size} (h : kb.Decided board) {id : kb.Id}
    (hopen : (board.table.status id).isTerminal = false) {path : List kb.Id} (hpath : id ∉ path)
    (levels : Nat) :
    kb.searchBelow board.memory board.table (levels + 1) path id = none ↔
      ∀ condition ∈ (kb.rule id).conditions, kb.effectiveValue board.memory condition ≠ none ∧
        (kb.effectiveValue board.memory condition = some .unknown →
          ∀ other ∈ kb.concluding condition,
            kb.searchBelow board.memory board.table levels (id :: path) other = none) := by
  constructor
  · exact fun hsearch => h.explored hopen (scanned_of_searchBelow hsearch hopen hpath)
  · intro hexplored
    rw [searchBelow]
    split
    · rfl
    · exact scanConditions_eq_none hexplored

/-- The search reads of the statuses only which of them are terminal. -/
theorem searchBelow_congr {left right : RuleTable kb.size}
    (h : ∀ id, (left.status id).isTerminal = (right.status id).isTerminal) (levels : Nat) :
    kb.searchBelow memory left levels = kb.searchBelow memory right levels := by
  induction levels with
  | zero => rfl
  | succ levels ih =>
    funext path id
    rw [searchBelow, searchBelow, h, ih]

theorem nextQuestion_congr {left right : RuleTable kb.size}
    (h : ∀ id, (left.status id).isTerminal = (right.status id).isTerminal) (maxDepth : Nat) :
    kb.nextQuestion memory left maxDepth = kb.nextQuestion memory right maxDepth := by
  unfold nextQuestion questionForRule
  rw [searchBelow_congr h]

end KnowledgeBase

end Consultation
