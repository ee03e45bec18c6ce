import Consultation.Proofs.Inference.Convergence

namespace Consultation

namespace KnowledgeBase

variable (kb : KnowledgeBase)

/-- The boards from which the passes of a convergence set out, in turn. -/
def passStarts (iterations : Nat) : Nat → Board kb.size → List (Board kb.size)
  | 0, _ => []
  | cap + 1, board =>
    match kb.convergeOnce iterations board with
    | (_, false) => [board]
    | (next, true) => board :: passStarts iterations cap next

/-- The board that a number of passes come to. -/
def afterPasses (iterations count : Nat) (board : Board kb.size) : Board kb.size :=
  (fun start => (kb.convergeOnce iterations start).1)^[count] board

/-- The visits of one round, in turn: each rule with the board that it is
    visited on. -/
def roundVisits : List kb.Id → Board kb.size → List (kb.Id × Board kb.size)
  | [], _ => []
  | id :: rest, board => (id, board) :: roundVisits rest (kb.visit board id).1

/-- The visits of all rounds of a propagation, in turn. -/
def propagationVisits : Nat → Board kb.size → List (kb.Id × Board kb.size)
  | 0, _ => []
  | cap + 1, board =>
    kb.roundVisits kb.ids board ++
      match kb.propagateOnce board with
      | (_, false) => []
      | (next, true) => propagationVisits cap next

variable {kb} {iterations cap : Nat} {board start visited : Board kb.size} {id : kb.Id}
  {limits : Limits}

theorem afterPasses_succ (iterations count : Nat) (board : Board kb.size) :
    kb.afterPasses iterations (count + 1) board =
      kb.afterPasses iterations count (kb.convergeOnce iterations board).1 :=
  Function.iterate_succ_apply ..

/-- What a convergence comes to are its passes, one after the other. -/
theorem convergeWithin_eq_afterPasses (iterations cap : Nat) (board : Board kb.size) :
    (kb.convergeWithin iterations cap board).1 =
      kb.afterPasses iterations (kb.convergeWithin iterations cap board).2.passes board := by
  induction cap generalizing board with
  | zero => rfl
  | succ cap ih =>
    rw [convergeWithin]
    rcases hpass : kb.convergeOnce iterations board with ⟨next, changed⟩
    cases changed with
    | false =>
      rw [afterPasses_succ, hpass]
      rfl
    | true =>
      rw [afterPasses_succ, hpass]
      exact ih next

/-- A pass sets out from the board that the passes before it have come to. -/
theorem passStarts_eq (iterations cap : Nat) (board : Board kb.size) :
    kb.passStarts iterations cap board =
      (List.range (kb.convergeWithin iterations cap board).2.passes).map fun count =>
        kb.afterPasses iterations count board := by
  induction cap generalizing board with
  | zero => rfl
  | succ cap ih =>
    rw [passStarts, convergeWithin]
    rcases hpass : kb.convergeOnce iterations board with ⟨next, changed⟩
    cases changed with
    | false => rfl
    | true =>
      simp only [List.range_succ_eq_map, List.map_cons, List.map_map, ih next]
      refine congrArg (board :: ·) (List.map_congr_left fun count _ => ?_)
      rw [Function.comp_apply, afterPasses_succ, hpass]

theorem mem_passStarts_self (hcap : 0 < cap) : board ∈ kb.passStarts iterations cap board := by
  obtain ⟨cap, rfl⟩ := Nat.exists_eq_add_of_lt hcap
  rw [Nat.zero_add, passStarts]
  split
  · exact List.mem_singleton_self board
  · exact List.mem_cons_self

theorem Reachable.of_mem_passStarts (h : kb.Reachable iterations board)
    (hmem : start ∈ kb.passStarts iterations cap board) : kb.Reachable iterations start := by
  induction cap generalizing board with
  | zero => exact absurd hmem List.not_mem_nil
  | succ cap ih =>
    have hpass := h.pass
    rw [passStarts] at hmem
    split at hmem
    · rw [List.mem_singleton] at hmem
      exact hmem ▸ h
    · next heq =>
      rw [heq] at hpass
      rcases List.mem_cons.mp hmem with rfl | hrest
      · exact h
      · exact ih hpass hrest

theorem length_roundVisits (ids : List kb.Id) (board : Board kb.size) :
    (kb.roundVisits ids board).length = ids.length := by
  induction ids generalizing board with
  | nil => rfl
  | cons id rest ih => rw [roundVisits, List.length_cons, ih, List.length_cons]

/-- Every round visits every rule once. -/
theorem length_propagationVisits (cap : Nat) (board : Board kb.size) :
    (kb.propagationVisits cap board).length = (kb.propagate cap board).2.iterations * kb.size := by
  have hids : kb.ids.length = kb.size := List.length_finRange
  induction cap generalizing board with
  | zero => exact (Nat.zero_mul _).symm
  | succ cap ih =>
    rw [propagationVisits, List.length_append, length_roundVisits, hids, propagate]
    rcases kb.propagateOnce board with ⟨next, changed⟩
    cases changed with
    | false => exact (Nat.one_mul _).symm
    | true =>
      change kb.size + (kb.propagationVisits cap next).length =
        ((kb.propagate cap next).2.iterations + 1) * kb.size
      rw [ih, Nat.add_comm, Nat.succ_mul]

theorem infersAll_of_mem_roundVisits {ids : List kb.Id}
    (hmem : (id, visited) ∈ kb.roundVisits ids board) : kb.InfersAll board visited := by
  induction ids generalizing board with
  | nil => exact absurd hmem List.not_mem_nil
  | cons head rest ih =>
    rcases List.mem_cons.mp hmem with heq | hrest
    · cases heq
      exact .refl
    · exact (infersAll_visit board head).trans (ih hrest)

theorem infersAll_of_mem_propagationVisits
    (hmem : (id, visited) ∈ kb.propagationVisits cap board) : kb.InfersAll board visited := by
  induction cap generalizing board with
  | zero => exact absurd hmem List.not_mem_nil
  | succ cap ih =>
    have hround : kb.InfersAll board (kb.propagateOnce board).1 := infersAll_visitList kb.ids board
    rw [propagationVisits] at hmem
    rcases List.mem_append.mp hmem with hfirst | hlater
    · exact infersAll_of_mem_roundVisits hfirst
    · split at hlater
      · exact absurd hlater List.not_mem_nil
      · next heq =>
        rw [heq] at hround
        exact hround.trans (ih hlater)

/-- Whenever a rule that needs all its conditions is visited after it fired,
    those that were answered `unknown` are already derived to hold. -/
theorem Justified.hypothesis_of_visited (h : kb.Justified board)
    (hmem : (id, visited) ∈ kb.propagationVisits cap (kb.evaluated board))
    (hfired : visited.table.status id = .fired) (hcombinator : (kb.rule id).combinator = .all)
    {condition : Fact} (hcondition : condition ∈ (kb.rule id).conditions)
    (hunknown : visited.memory.finding condition = some .unknown) :
    visited.memory.hypothesis condition = some .holds :=
  (h.evaluated.steps (infersAll_of_mem_propagationVisits hmem)).not_promotable hfired hcombinator
    hcondition hunknown

/-- Two rounds are enough for a propagation, and another round would infer nothing. -/
theorem Justified.propagate_reaches (h : kb.Justified board) (hcap : 2 ≤ cap) :
    (kb.propagate cap board).2.reachedFixpoint = true ∧
      (kb.propagate cap board).2.iterations ≤ 2 ∧
      kb.propagateOnce (kb.propagate cap board).1 = ((kb.propagate cap board).1, false) := by
  have hfinal := h.steps (infersAll_propagate cap board)
  obtain ⟨hfixpoint, hiterations⟩ := h.uncontested.propagate_reaches hcap
  exact ⟨hfixpoint, hiterations,
    hfinal.propagateOnce_eq_of_quiet (h.quiet_propagate (Nat.zero_lt_of_lt hcap))⟩

/-- The events that a consultation enters in its journal. There is none for a
    condition that was promoted, and the one for the cap of passes comes only with
    a cap that leaves no room for two passes for each rule and one more. -/
inductive Journaled (kb : KnowledgeBase) (limits : Limits) : Event → Prop where
  | started : Journaled kb limits (.started kb.goals.length)
  | seeded (fact : Fact) (value : Truth) : Journaled kb limits (.seeded fact value)
  | answered (fact : Fact) (value : Truth) : Journaled kb limits (.answered fact value)
  | answerNormalized (fact : Fact) (token : String) :
      Journaled kb limits (.answerNormalized fact token)
  | derived {fact : Fact} (h : kb.isDerived fact = true) : Journaled kb limits (.derived fact fact)
  | refuted {fact : Fact} (h : kb.Refutable fact) : Journaled kb limits (.refuted fact fact)
  | rolledBack (fact : Fact) (steps : Nat) : Journaled kb limits (.rolledBack fact steps)
  | capReached (h : limits.maxEvaluationPasses ≤ 2 * kb.size) :
      Journaled kb limits (.capReached limits.maxEvaluationPasses)
  | completed (applicable conditional : Nat) : Journaled kb limits (.completed applicable conditional)

/-- Every event of a journal is one that a consultation enters. -/
def AllJournaled (kb : KnowledgeBase) (limits : Limits) (log : Log) : Prop :=
  ∀ event ∈ log, kb.Journaled limits event

theorem AllJournaled.append {log : Log} {event : Event} (h : kb.AllJournaled limits log)
    (hevent : kb.Journaled limits event) : kb.AllJournaled limits (log ++ [event]) :=
  List.forall_mem_append.mpr ⟨h, List.forall_mem_singleton.mpr hevent⟩

theorem Justified.allJournaled_step {next : Board kb.size} (h : kb.Justified board)
    (hstep : kb.Infers board next) (hlog : kb.AllJournaled limits board.log) :
    kb.AllJournaled limits next.log := by
  cases hstep with
  | evaluate => exact hlog
  | derive id => exact hlog.append (.derived (isDerived_iff.mpr ⟨id, rfl⟩))
  | promote id hfired hcombinator condition hmem hfinding hnew =>
    exact absurd (h.not_promotable hfired hcombinator hmem hfinding) hnew
  | refute id hcombinator =>
    exact hlog.append (.refuted ⟨id, mem_concluding.mpr rfl, hcombinator⟩)

theorem Justified.allJournaled_steps {final : Board kb.size} (h : kb.Justified board)
    (hsteps : kb.InfersAll board final) (hlog : kb.AllJournaled limits board.log) :
    kb.AllJournaled limits final.log :=
  h.preserves (P := fun next => kb.AllJournaled limits next.log) hsteps
    (fun _ _ hbefore hstep hkept => hbefore.allJournaled_step hstep hkept) hlog

theorem Reachable.allJournaled_converge
    (h : kb.Reachable limits.maxPropagationIterations board)
    (hlog : kb.AllJournaled limits board.log) :
    kb.AllJournaled limits (kb.converge limits board).log := by
  have hfinal := h.justified.allJournaled_steps (infersAll_convergeWithin
    limits.maxPropagationIterations limits.maxEvaluationPasses board) hlog
  rcases h.converge_cases.2.2 with ⟨-, heq, -⟩ | ⟨-, heq, -, hcap⟩
  · rwa [heq]
  · rw [heq]
    exact hfinal.append (.capReached (by omega))

end KnowledgeBase

end Consultation
