import Consultation.Proofs.Inference.Step

namespace Consultation

@[simp]
theorem RuleTable.status_fresh {size : Nat} (id : Fin size) :
    (RuleTable.fresh size).status id = .pending := by
  rw [status, get_fresh]
  rfl

namespace KnowledgeBase

/-- The boards that a consultation can come to, given how many rounds a
    propagation may take. A consultation starts from answers alone, and so does
    one that was taken back. From there it runs passes, notes what is asked,
    enters events and records answers to facts that had none. -/
inductive Reachable (kb : KnowledgeBase) (iterations : Nat) : Board kb.size → Prop where
  | fresh (memory : Memory) (log : Log) (hunderived : memory.hypotheses = .empty)
      (hcondition : ∀ fact value, memory.finding fact = some value → kb.isCondition fact = true) :
      Reachable kb iterations ⟨memory, .fresh kb.size, log⟩
  | pass {board : Board kb.size} (h : Reachable kb iterations board) :
      Reachable kb iterations (kb.convergeOnce iterations board).1
  | mark {board : Board kb.size} (h : Reachable kb iterations board) (fact : Fact) :
      Reachable kb iterations { board with table := kb.markEvaluating board.table fact }
  | note {board : Board kb.size} (h : Reachable kb iterations board) (event : Event) :
      Reachable kb iterations { board with log := board.log ++ [event] }
  | answer {board : Board kb.size} (h : Reachable kb iterations board) (fact : Fact)
      (value : Truth) (hcondition : kb.isCondition fact = true)
      (hnew : board.memory.finding fact = none) :
      Reachable kb iterations { board with memory := board.memory.putFinding fact value }

variable {kb : KnowledgeBase} {iterations : Nat} {limits : Limits} {board : Board kb.size}

theorem status_markEvaluating (table : RuleTable kb.size) (fact : Fact) (id : kb.Id) :
    (kb.markEvaluating table fact).status id =
      if fact ∈ (kb.rule id).conditions ∧ table.status id = .pending then .evaluating
      else table.status id := by
  rw [markEvaluating, RuleTable.status, RuleTable.get_updateWhere]
  by_cases hmem : fact ∈ (kb.rule id).conditions
  · simp only [hmem, decide_true, if_true, true_and, RuleState.markEvaluating, RuleTable.status]
    split <;> rfl
  · simp [hmem, RuleTable.status]

/-- Asking a fact shows only in the statuses of rules that were not decided. -/
theorem status_markEvaluating_of_isResolved {table : RuleTable kb.size} {fact : Fact} {id : kb.Id}
    {status : RuleStatus} (h : status.isResolved = true) :
    (kb.markEvaluating table fact).status id = status ↔ table.status id = status := by
  rw [status_markEvaluating]
  split
  · next hpending =>
    rw [hpending.2]
    constructor <;> (rintro rfl; cases h)
  · exact Iff.rfl

/-- Asking a fact does not show in what takes `evaluating` for `pending`. -/
theorem congr_status_markEvaluating {α : Type} (p : RuleStatus → α)
    (h : p .evaluating = p .pending) (table : RuleTable kb.size) (fact : Fact) (id : kb.Id) :
    p ((kb.markEvaluating table fact).status id) = p (table.status id) := by
  rw [status_markEvaluating]
  split
  · next hpending => rw [hpending.2, h]
  · rfl

theorem checked_markEvaluating (table : RuleTable kb.size) (fact : Fact) (id : kb.Id) :
    ((kb.markEvaluating table fact).get id).checked = (table.get id).checked := by
  rw [markEvaluating, RuleTable.get_updateWhere]
  split
  · unfold RuleState.markEvaluating
    split <;> rfl
  · rfl

theorem status_foldl_markEvaluating (facts : List Fact) (table : RuleTable kb.size) (id : kb.Id) :
    (facts.foldl kb.markEvaluating table).status id =
      if (∃ fact ∈ facts, fact ∈ (kb.rule id).conditions) ∧ table.status id = .pending then
        .evaluating
      else table.status id := by
  induction facts generalizing table with
  | nil => simp
  | cons fact rest ih =>
    rw [List.foldl_cons, ih, status_markEvaluating]
    by_cases hmem : fact ∈ (kb.rule id).conditions
    · cases table.status id <;> simp [hmem]
    · simp [hmem]

/-- Asking a fact shows in every rule that has it as a condition. -/
theorem status_markEvaluating_ne_pending (table : RuleTable kb.size) {fact : Fact} {id : kb.Id}
    (hmem : fact ∈ (kb.rule id).conditions) :
    (kb.markEvaluating table fact).status id ≠ .pending := by
  rw [status_markEvaluating]
  split
  · nofun
  · next hnot => exact fun hpending => hnot ⟨hmem, hpending⟩

/-- What asking one fact keeps, asking any number of facts keeps. -/
theorem preserves_foldl_markEvaluating {P : Board kb.size → Prop}
    (hmark : ∀ board fact, P board → P { board with table := kb.markEvaluating board.table fact })
    (facts : List Fact) (hboard : P board) :
    P { board with table := facts.foldl kb.markEvaluating board.table } := by
  induction facts generalizing board with
  | nil => exact hboard
  | cons fact rest ih => exact ih (hmark board fact hboard)

/-- A property of boards is invariant when it holds before anything is derived,
    and each step of inference, each fact asked, each event and each new answer
    keeps it. -/
theorem Reachable.invariant {P : Board kb.size → Prop}
    (hfresh : ∀ memory log, memory.hypotheses = .empty →
      (∀ fact value, memory.finding fact = some value → kb.isCondition fact = true) →
      P ⟨memory, .fresh kb.size, log⟩)
    (hstep : ∀ board next, kb.Infers board next → P board → P next)
    (hmark : ∀ board fact, P board → P { board with table := kb.markEvaluating board.table fact })
    (hnote : ∀ board event, P board → P { board with log := board.log ++ [event] })
    (hanswer : ∀ board fact value, kb.isCondition fact = true → board.memory.finding fact = none →
      P board → P { board with memory := board.memory.putFinding fact value })
    (h : kb.Reachable iterations board) : P board := by
  induction h with
  | fresh memory log hunderived hcondition => exact hfresh memory log hunderived hcondition
  | pass _ ih => exact (infersAll_convergeOnce iterations _).preserves hstep ih
  | mark _ fact ih => exact hmark _ fact ih
  | note _ event ih => exact hnote _ event ih
  | answer _ fact value hcondition hnew ih => exact hanswer _ fact value hcondition hnew ih

theorem Reachable.isCondition_of_finding (h : kb.Reachable iterations board) {fact : Fact}
    {value : Truth} (hvalue : board.memory.finding fact = some value) :
    kb.isCondition fact = true := by
  have hall : ∀ fact value, board.memory.finding fact = some value →
      kb.isCondition fact = true := by
    apply h.invariant (P := fun board => ∀ fact value, board.memory.finding fact = some value →
      kb.isCondition fact = true)
    · exact fun _ _ _ hcondition => hcondition
    · intro board next hinfers hboard fact value hvalue
      rw [hinfers.finding_eq] at hvalue
      exact hboard fact value hvalue
    · exact fun _ _ hboard => hboard
    · exact fun _ _ hboard => hboard
    · intro board new answered hcondition _ hboard fact value hvalue
      rw [Memory.finding_putFinding] at hvalue
      split at hvalue
      · next heq => exact heq ▸ hcondition
      · exact hboard fact value hvalue
  exact hall fact value hvalue

theorem Reachable.converge (h : kb.Reachable limits.maxPropagationIterations board) :
    kb.Reachable limits.maxPropagationIterations (kb.converge limits board) := by
  have hwithin (cap : Nat) : ∀ board, kb.Reachable limits.maxPropagationIterations board →
      kb.Reachable limits.maxPropagationIterations
        (kb.convergeWithin limits.maxPropagationIterations cap board).1 := by
    induction cap with
    | zero => exact fun _ h => h
    | succ cap ih =>
      intro board h
      have hpass := h.pass
      rw [convergeWithin]
      split
      · next heq => rwa [heq] at hpass
      · next heq =>
        rw [heq] at hpass
        exact ih _ hpass
  exact converge_preserves (fun _ event h => h.note event)
    (hwithin limits.maxEvaluationPasses board h)

end KnowledgeBase

end Consultation
