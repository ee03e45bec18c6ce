import Consultation.Proofs.Inference.Decision
import Consultation.Proofs.Inference.Deduction
import Consultation.Session.Basic
import Mathlib.Logic.Relation

namespace Consultation

namespace KnowledgeBase

variable (kb : KnowledgeBase)

/-- One step of inference: a rule is evaluated, or a hypothesis is written. A
    step that writes says all that the rules had to satisfy for it. -/
inductive Infers : Board kb.size → Board kb.size → Prop where
  | evaluate (board : Board kb.size) (id : kb.Id) :
      Infers board { board with table := kb.evaluateRule board.memory board.table id }
  | derive (board : Board kb.size) (id : kb.Id) (hfired : board.table.status id = .fired)
      (hraw : board.memory.rawValue (kb.rule id).action ≠ some .holds)
      (hnew : board.memory.hypothesis (kb.rule id).action ≠ some .holds) :
      Infers board (kb.infer board (kb.rule id).action .holds
        (.derived (kb.rule id).action (kb.rule id).action))
  | promote (board : Board kb.size) (id : kb.Id) (hfired : board.table.status id = .fired)
      (hcombinator : (kb.rule id).combinator = .all) (condition : Fact)
      (hmem : condition ∈ (kb.rule id).conditions)
      (hfinding : board.memory.finding condition = some .unknown)
      (hnew : board.memory.hypothesis condition ≠ some .holds) :
      Infers board (kb.infer board condition .holds
        (.premisePromoted condition (kb.rule id).action))
  | refute (board : Board kb.size) (id : kb.Id) (hcombinator : (kb.rule id).combinator = .all)
      (hnegative : ∀ other ∈ kb.concluding (kb.rule id).action,
        (board.table.status other).isNegative = true)
      (hraw : board.memory.rawValue (kb.rule id).action ≠ some .fails)
      (hnew : board.memory.hypothesis (kb.rule id).action ≠ some .fails) :
      Infers board (kb.infer board (kb.rule id).action .fails
        (.refuted (kb.rule id).action (kb.rule id).action))

/-- Any number of steps of inference. -/
abbrev InfersAll : Board kb.size → Board kb.size → Prop := Relation.ReflTransGen kb.Infers

variable {kb}

/-- Inference writes hypotheses only. -/
theorem Infers.answers_eq {board next : Board kb.size} (h : kb.Infers board next) :
    next.memory.answers = board.memory.answers := by
  cases h <;> rfl

theorem Infers.finding_eq {board next : Board kb.size} (h : kb.Infers board next) (fact : Fact) :
    next.memory.finding fact = board.memory.finding fact :=
  Memory.finding_eq_of_answers_eq h.answers_eq fact

/-- Events are only ever added. -/
theorem Infers.log_subset {board next : Board kb.size} (h : kb.Infers board next) :
    board.log ⊆ next.log := by
  cases h <;> simp

/-- A step that changes a status classifies the rule anew, and does nothing
    else. -/
theorem Infers.status_cases {board next : Board kb.size} (h : kb.Infers board next) (id : kb.Id) :
    next.table.status id = board.table.status id ∨
      (board.table.status id).isTerminal = false ∧ next.memory = board.memory ∧
        kb.decision board.memory board.table id = some (next.table.status id) := by
  cases h with
  | evaluate evaluated =>
    rw [status_evaluateRule]
    split
    · next heq =>
      subst heq
      rcases kb.evaluatedStatus_cases board.memory board.table id with hkept | ⟨hopen, hdecided⟩
      · exact .inl hkept
      · exact .inr ⟨hopen, rfl, hdecided⟩
    · exact .inl rfl
  | derive | promote | refute => exact .inl (status_infer _ _ _ _ _)

theorem Infers.status_eq_of_isTerminal {board next : Board kb.size} (h : kb.Infers board next)
    {id : kb.Id} (hterminal : (board.table.status id).isTerminal = true) :
    next.table.status id = board.table.status id := by
  rcases h.status_cases id with hsame | ⟨hopen, -⟩
  · exact hsame
  · rw [hterminal] at hopen
    cases hopen

theorem Infers.isResolved {board next : Board kb.size} (h : kb.Infers board next) {id : kb.Id}
    (hresolved : (board.table.status id).isResolved = true) :
    (next.table.status id).isResolved = true := by
  rcases h.status_cases id with hsame | ⟨-, -, hdecided⟩
  · rw [hsame]
    exact hresolved
  · exact isResolved_of_decision hdecided

/-- What every step keeps, any number of steps keeps. -/
theorem InfersAll.preserves {P : Board kb.size → Prop}
    (hstep : ∀ board next, kb.Infers board next → P board → P next) {board final : Board kb.size}
    (h : kb.InfersAll board final) (hboard : P board) : P final := by
  induction h with
  | refl => exact hboard
  | tail _ hlast ih => exact hstep _ _ hlast ih

theorem InfersAll.answers_eq {board final : Board kb.size} (h : kb.InfersAll board final) :
    final.memory.answers = board.memory.answers :=
  h.preserves (P := fun next => next.memory.answers = board.memory.answers)
    (fun _ _ hstep hsame => hstep.answers_eq.trans hsame) rfl

theorem infersAll_evaluateList (ids : List kb.Id) (board : Board kb.size) :
    kb.InfersAll board
      { board with table := (kb.evaluateList board.memory ids board.table).1 } := by
  induction ids generalizing board with
  | nil => exact .refl
  | cons id rest ih =>
    have hrest := ih { board with table := kb.evaluateRule board.memory board.table id }
    exact .head (.evaluate board id) hrest

/-- A deduction that is recorded is a step of inference. -/
theorem Deduces.infers {board : Board kb.size} {fact : Fact} {value : Truth} {event : Event}
    (h : kb.Deduces board fact value event) :
    kb.Infers board (kb.infer board fact value event) := by
  obtain ⟨hraw, hnew⟩ := Memory.not_records_iff.mp h.not_records
  obtain ⟨id, hdemand⟩ := h.demanded
  cases hdemand with
  | derive hfired => exact .derive board id hfired hraw hnew
  | promote hfired hcombinator _ hmem hfinding =>
    exact .promote board id hfired hcombinator fact hmem hfinding hnew
  | refute hcombinator hnegative => exact .refute board id hcombinator hnegative hraw hnew

theorem DeducesAll.infersAll {board final : Board kb.size} {events : Log}
    (h : kb.DeducesAll board events final) : kb.InfersAll board final := by
  induction h with
  | nil => exact .refl
  | cons h _ ih => exact .head h.infers ih

theorem Reports.infersAll {board : Board kb.size} {result : Board kb.size × Bool}
    (h : kb.Reports board result) : kb.InfersAll board result.1 := by
  obtain ⟨_, hevents, -⟩ := h
  exact hevents.infersAll

theorem infersAll_visit (board : Board kb.size) (id : kb.Id) :
    kb.InfersAll board (kb.visit board id).1 :=
  (reports_visit board id).infersAll

theorem infersAll_visitList (ids : List kb.Id) (board : Board kb.size) :
    kb.InfersAll board (kb.visitList ids board).1 :=
  (reports_visitList ids board).infersAll

theorem infersAll_propagate (cap : Nat) (board : Board kb.size) :
    kb.InfersAll board (kb.propagate cap board).1 :=
  (reports_propagate cap board).infersAll

/-- A pass is made of steps of inference. -/
theorem infersAll_convergeOnce (iterations : Nat) (board : Board kb.size) :
    kb.InfersAll board (kb.convergeOnce iterations board).1 := by
  have hevaluated := infersAll_evaluateList kb.ids board
  exact hevaluated.trans (infersAll_propagate iterations _)

theorem infersAll_convergeWithin (iterations cap : Nat) (board : Board kb.size) :
    kb.InfersAll board (kb.convergeWithin iterations cap board).1 := by
  induction cap generalizing board with
  | zero => exact .refl
  | succ cap ih =>
    have hpass := infersAll_convergeOnce iterations board
    rw [convergeWithin]
    split
    · next heq => rwa [heq] at hpass
    · next heq =>
      rw [heq] at hpass
      exact hpass.trans (ih _)

/-- Beyond its passes, a convergence enters at most an event. -/
theorem converge_cases (limits : Limits) (board : Board kb.size) :
    ∃ final, kb.InfersAll board final ∧
      (kb.converge limits board = final ∨
        kb.converge limits board =
          { final with log := final.log ++ [.capReached limits.maxEvaluationPasses] }) := by
  have hsteps := infersAll_convergeWithin limits.maxPropagationIterations
    limits.maxEvaluationPasses board
  refine ⟨_, hsteps, ?_⟩
  unfold KnowledgeBase.converge
  split
  · next heq => exact .inl (by rw [heq])
  · next heq => exact .inr (by rw [heq])

/-- What entering an event keeps holds after a convergence if it holds after its
    passes. -/
theorem converge_preserves {P : Board kb.size → Prop} {limits : Limits} {board : Board kb.size}
    (hnote : ∀ board event, P board → P { board with log := board.log ++ [event] })
    (hpasses : P (kb.convergeWithin limits.maxPropagationIterations
      limits.maxEvaluationPasses board).1) :
    P (kb.converge limits board) := by
  unfold KnowledgeBase.converge
  split
  · next heq => rwa [heq] at hpasses
  · next heq =>
    rw [heq] at hpasses
    exact hnote _ _ hpasses

theorem answers_converge (limits : Limits) (board : Board kb.size) :
    (kb.converge limits board).memory.answers = board.memory.answers := by
  obtain ⟨final, hsteps, hfinal | hfinal⟩ := kb.converge_cases limits board
  · rw [hfinal, hsteps.answers_eq]
  · rw [hfinal]
    exact hsteps.answers_eq

end KnowledgeBase

end Consultation
