import Consultation.Proofs.Inference.Justification
import Mathlib.Order.Basic

namespace Consultation

namespace RuleStatus

/-- How far a status is on the way to a decision. -/
def level : RuleStatus → Nat
  | pending => 0
  | evaluating => 1
  | uncertain => 2
  | fired | blocked => 3

/-- A status comes before those that are further on the way to a decision. Of
    the two in which the way ends, neither comes before the other. -/
instance : PartialOrder RuleStatus where
  le before after := before = after ∨ before.level < after.level
  le_refl _ := .inl rfl
  le_trans first second third hfirst hsecond := by
    rcases hfirst with rfl | hfirst
    · exact hsecond
    · rcases hsecond with rfl | hsecond
      · exact .inr hfirst
      · exact .inr (hfirst.trans hsecond)
  le_antisymm before after hle hge := by
    rcases hle with heq | hlt
    · exact heq
    · rcases hge with heq | hgt
      · exact heq.symm
      · omega

instance : DecidableLE RuleStatus := fun before after =>
  inferInstanceAs (Decidable (before = after ∨ before.level < after.level))

variable {before after : RuleStatus}

theorem lt_iff : before < after ↔ before.level < after.level := by
  constructor
  · intro hlt
    exact hlt.le.resolve_left hlt.ne
  · intro hlevel
    refine lt_of_le_of_ne (.inr hlevel) ?_
    rintro rfl
    exact Nat.lt_irrefl _ hlevel

instance : DecidableLT RuleStatus := fun _ _ => decidable_of_iff _ lt_iff.symm

example : pending < evaluating ∧ evaluating < uncertain ∧ uncertain < fired ∧ uncertain < blocked ∧
    ¬ fired ≤ blocked ∧ ¬ blocked ≤ fired := by decide

/-- Nothing comes after a terminal status. -/
theorem eq_of_le_of_isTerminal (h : before ≤ after) (hterminal : before.isTerminal = true) :
    after = before := by
  rcases h with rfl | hlevel
  · rfl
  · revert hlevel hterminal
    cases before <;> cases after <;> simp [level, isTerminal]

/-- Classifying a rule that is not terminal takes it no step back. -/
theorem le_of_isResolved (hopen : before.isTerminal = false) (hresolved : after.isResolved = true) :
    before ≤ after := by
  revert hopen hresolved
  cases before <;> cases after <;> decide

end RuleStatus

namespace Board

variable {size : Nat} {first second third : Board size}

/-- Nothing that stands on one board is undone on another: statuses only come
    nearer to a decision, answers and derived values stay, entries of the history
    and the journal too. A derived value only ever changes from `fails` to
    `holds`. -/
structure Advances (before after : Board size) : Prop where
  status : ∀ id, before.table.status id ≤ after.table.status id
  finding : ∀ fact value, before.memory.finding fact = some value →
    after.memory.finding fact = some value
  hypothesis : ∀ fact value, before.memory.hypothesis fact = some value →
    after.memory.hypothesis fact = some value ∨
      value = .fails ∧ after.memory.hypothesis fact = some .holds
  history : before.memory.history <+: after.memory.history
  log : before.log <+: after.log

theorem Advances.refl (board : Board size) : board.Advances board :=
  ⟨fun _ => le_rfl, fun _ _ => id, fun _ _ => .inl, List.prefix_rfl, List.prefix_rfl⟩

theorem Advances.trans (hfirst : first.Advances second) (hsecond : second.Advances third) :
    first.Advances third where
  status id := (hfirst.status id).trans (hsecond.status id)
  finding fact value hvalue := hsecond.finding fact value (hfirst.finding fact value hvalue)
  hypothesis fact value hvalue := by
    rcases hfirst.hypothesis fact value hvalue with hkept | ⟨hfails, hholds⟩
    · exact hsecond.hypothesis fact value hkept
    · exact .inr ⟨hfails, (hsecond.hypothesis fact .holds hholds).resolve_right (by nofun)⟩
  history := hfirst.history.trans hsecond.history
  log := hfirst.log.trans hsecond.log

end Board

namespace KnowledgeBase

variable {kb : KnowledgeBase} {board next final : Board kb.size}

/-- A derived value that holds is never overwritten, since it would take rules
    that have all failed to refute the fact. -/
theorem Justified.advances_step (h : kb.Justified board) (hstep : kb.Infers board next) :
    board.Advances next where
  status id := by
    rcases hstep.status_cases id with hsame | ⟨hopen, -, hdecided⟩
    · exact hsame.ge
    · exact RuleStatus.le_of_isResolved hopen (isResolved_of_decision hdecided)
  finding fact value hvalue := (hstep.finding_eq fact).trans hvalue
  hypothesis fact value hvalue := by
    cases h.writes hstep fact with
    | kept hkept => exact .inl (hkept.trans hvalue)
    | derived _ _ _ _ _ hwritten =>
      cases value with
      | holds => exact .inl hwritten
      | fails => exact .inr ⟨rfl, hwritten⟩
      | unknown => exact absurd hvalue (h.definite fact)
    | refuted _ _ hnegative _ _ hwritten =>
      cases value with
      | holds => exact absurd hvalue (h.hypothesis_ne_holds hnegative)
      | fails => exact .inl hwritten
      | unknown => exact absurd hvalue (h.definite fact)
  history := by
    rw [← Memory.history_answers next.memory, hstep.answers_eq]
    exact List.prefix_rfl
  log := by
    cases hstep with
    | evaluate => exact List.prefix_rfl
    | derive | promote | refute => exact List.prefix_append _ _

theorem Justified.advances_steps (h : kb.Justified board) (hsteps : kb.InfersAll board final) :
    board.Advances final :=
  h.preserves (P := fun middle => board.Advances middle) hsteps
    (fun _ _ hbefore hstep hkept => hkept.trans (hbefore.advances_step hstep)) (.refl board)

/-- Asking a fact only shows in rules that nothing was known of. -/
theorem advances_mark (board : Board kb.size) (fact : Fact) :
    board.Advances { board with table := kb.markEvaluating board.table fact } := by
  refine ⟨fun id => ?_, fun _ _ => id, fun _ _ => .inl, List.prefix_rfl, List.prefix_rfl⟩
  rw [status_markEvaluating]
  split
  · next hpending =>
    rw [hpending.2]
    decide
  · exact le_rfl

theorem advances_note (board : Board kb.size) (event : Event) :
    board.Advances { board with log := board.log ++ [event] } :=
  ⟨fun _ => le_rfl, fun _ _ => id, fun _ _ => .inl, List.prefix_rfl, List.prefix_append _ _⟩

theorem advances_answer {fact : Fact} (value : Truth) (hnew : board.memory.finding fact = none) :
    board.Advances { board with memory := board.memory.putFinding fact value } :=
  ⟨fun _ => le_rfl, fun _ _ hold => Memory.finding_putFinding_of_some hold value hnew,
    fun _ _ => .inl, List.prefix_append _ _, List.prefix_rfl⟩

theorem Justified.advances_converge (h : kb.Justified board) (limits : Limits) :
    board.Advances (kb.converge limits board) := by
  obtain ⟨final, hsteps, hfinal | hfinal⟩ := kb.converge_cases limits board
  · rw [hfinal]
    exact h.advances_steps hsteps
  · rw [hfinal]
    exact (h.advances_steps hsteps).trans (advances_note final _)

end KnowledgeBase

end Consultation
