import Consultation.Proofs.Inference.Propagation
import Mathlib.Algebra.BigOperators.Fin
import Mathlib.Algebra.Order.BigOperators.Group.Finset

namespace Consultation

/-- How far a status is from being terminal. Evaluation only ever raises it. -/
def RuleStatus.rank : RuleStatus → Nat
  | .pending | .evaluating => 0
  | .uncertain => 1
  | .fired | .blocked => 2

theorem RuleStatus.rank_le (status : RuleStatus) : status.rank ≤ 2 := by
  cases status <;> simp [rank]

namespace RuleTable

variable {size : Nat}

/-- The ranks of all rules together. -/
def rank (table : RuleTable size) : Nat := ∑ id, (table.status id).rank

theorem rank_le (table : RuleTable size) : table.rank ≤ 2 * size := by
  have hsum : table.rank ≤ ∑ _id : Fin size, 2 :=
    Finset.sum_le_sum fun id _ => (table.status id).rank_le
  simp at hsum
  omega

theorem rank_congr {left right : RuleTable size} (h : ∀ id, left.status id = right.status id) :
    left.rank = right.rank :=
  Finset.sum_congr rfl fun id _ => congrArg RuleStatus.rank (h id)

end RuleTable

namespace KnowledgeBase

variable {kb : KnowledgeBase} {memory : Memory} {table : RuleTable kb.size} {id : kb.Id}

/-- A rule that takes another status takes one of a higher rank. -/
theorem rank_evaluatedStatus (kb : KnowledgeBase) (memory : Memory) (table : RuleTable kb.size)
    (id : kb.Id) :
    (table.status id).rank + (kb.reclassifies memory table id).toNat ≤
      (kb.evaluatedStatus memory table id).rank := by
  unfold reclassifies
  rcases kb.evaluatedStatus_cases memory table id with hkept | ⟨hopen, hdecided⟩
  · simp [hkept]
  · have hresolved := isResolved_of_decision hdecided
    generalize kb.evaluatedStatus memory table id = next at hresolved
    generalize table.status id = current at hopen
    revert hopen hresolved
    cases current <;> cases next <;> decide

theorem rank_evaluateRule (kb : KnowledgeBase) (memory : Memory) (table : RuleTable kb.size)
    (id : kb.Id) :
    table.rank + (kb.reclassifies memory table id).toNat ≤
      (kb.evaluateRule memory table id).rank := by
  have hself := kb.rank_evaluatedStatus memory table id
  have hothers : ∑ query ∈ Finset.univ.erase id, (table.status query).rank =
      ∑ query ∈ Finset.univ.erase id, ((kb.evaluateRule memory table id).status query).rank := by
    refine Finset.sum_congr rfl fun query hquery => ?_
    rw [status_evaluateRule, if_neg (Finset.ne_of_mem_erase hquery)]
  have hsplit (table : RuleTable kb.size) : table.rank = (table.status id).rank +
      ∑ query ∈ Finset.univ.erase id, (table.status query).rank :=
    (Finset.add_sum_erase _ _ (Finset.mem_univ id)).symm
  rw [hsplit, hsplit (kb.evaluateRule memory table id), ← hothers, status_evaluateRule, if_pos rfl]
  omega

theorem rank_evaluateList (memory : Memory) (ids : List kb.Id) (table : RuleTable kb.size) :
    table.rank + (kb.evaluateList memory ids table).2 ≤
      (kb.evaluateList memory ids table).1.rank := by
  induction ids generalizing table with
  | nil => exact Nat.le_refl _
  | cons id rest ih =>
    have hhead := kb.rank_evaluateRule memory table id
    have hrest := ih (kb.evaluateRule memory table id)
    rw [evaluateList]
    simp only
    omega

/-- Evaluation reads nothing of the other rules but their statuses. -/
theorem evaluatedStatus_congr {left right : RuleTable kb.size}
    (h : ∀ query, left.status query = right.status query) (memory : Memory) (id : kb.Id) :
    kb.evaluatedStatus memory left id = kb.evaluatedStatus memory right id := by
  have hdecision : kb.decision memory left id = kb.decision memory right id :=
    decision_congr fun query => congrArg RuleStatus.isResolved (h query)
  unfold decision at hdecision
  simp only [evaluatedStatus, h, hdecision]

theorem evaluateList_of_count_eq_zero (ids : List kb.Id) (table : RuleTable kb.size)
    (hcount : (kb.evaluateList memory ids table).2 = 0) :
    (∀ query, (kb.evaluateList memory ids table).1.status query = table.status query) ∧
      ∀ id ∈ ids, kb.evaluatedStatus memory table id = table.status id := by
  induction ids generalizing table with
  | nil => exact ⟨fun _ => rfl, fun id hid => absurd hid List.not_mem_nil⟩
  | cons id rest ih =>
    rw [evaluateList] at hcount
    obtain ⟨hrest, hhead⟩ := Nat.add_eq_zero_iff.mp hcount
    have hkept : kb.evaluatedStatus memory table id = table.status id := by
      simpa [reclassifies] using hhead
    have hsame : ∀ query, (kb.evaluateRule memory table id).status query = table.status query := by
      intro query
      rw [status_evaluateRule]
      split
      · next heq => rw [heq, hkept]
      · rfl
    obtain ⟨hstatus, hevaluated⟩ := ih _ hrest
    refine ⟨fun query => (hstatus query).trans (hsame query), ?_⟩
    refine List.forall_mem_cons.mpr ⟨hkept, fun query hquery => ?_⟩
    rw [← evaluatedStatus_congr hsame, hevaluated query hquery, hsame]

theorem evaluatedStatus_eq_self_iff :
    kb.evaluatedStatus memory table id = table.status id ↔
      ((table.status id).isTerminal = false → ∀ status,
        kb.decision memory table id = some status → table.status id = status) := by
  cases hterminal : (table.status id).isTerminal with
  | true => simp [evaluatedStatus_of_isTerminal hterminal]
  | false =>
    rw [evaluatedStatus_of_not_isTerminal hterminal]
    cases kb.decision memory table id with
    | none => simp
    | some status => simp [eq_comm]

variable {board : Board kb.size} {iterations : Nat}

/-- Every rule of a board that is not terminal has the status that its conditions
    decide, where they decide one. -/
def Decided (kb : KnowledgeBase) (board : Board kb.size) : Prop :=
  ∀ id, (board.table.status id).isTerminal = false → ∀ status,
    kb.decision board.memory board.table id = some status → board.table.status id = status

/-- A board is settled when another pass would change no status and infer
    nothing. -/
structure Settled (kb : KnowledgeBase) (board : Board kb.size) : Prop where
  decided : kb.Decided board
  quiet : kb.Quiet board

/-- Nothing decides a rule of a decided board whose status is not terminal. -/
theorem Decided.not_affirmed (h : kb.Decided board)
    (hopen : (board.table.status id).isTerminal = false) : ¬ kb.Affirmed board.memory id := by
  intro haffirmed
  rw [h id hopen .fired (decision_eq_fired_iff.mpr haffirmed)] at hopen
  cases hopen

theorem Decided.not_denied (h : kb.Decided board)
    (hopen : (board.table.status id).isTerminal = false) : ¬ kb.Denied board.memory id := by
  intro hdenied
  rw [h id hopen .blocked (decision_eq_blocked_iff.mpr hdenied)] at hopen
  cases hopen

/-- A board with every rule evaluated, from which propagation sets out. -/
def evaluated (kb : KnowledgeBase) (board : Board kb.size) : Board kb.size :=
  { board with table := (kb.evaluateAll board.memory board.table).1 }

theorem Justified.evaluated (h : kb.Justified board) : kb.Justified (kb.evaluated board) :=
  h.steps (infersAll_evaluateList kb.ids board)

/-- A pass tells whether a status changed or something was inferred. -/
theorem convergeOnce_eq_false_iff :
    (kb.convergeOnce iterations board).2 = false ↔
      (kb.evaluateAll board.memory board.table).2 = 0 ∧
        (kb.propagate iterations (kb.evaluated board)).2.changed = false := by
  simp [convergeOnce, KnowledgeBase.evaluated]

/-- Where no status changed, every status is the one that evaluation gives. -/
theorem evaluatedStatus_evaluated (hcount : (kb.evaluateAll board.memory board.table).2 = 0)
    (id : kb.Id) :
    kb.evaluatedStatus board.memory (kb.evaluated board).table id =
      (kb.evaluated board).table.status id := by
  obtain ⟨hstatus, hevaluated⟩ := evaluateList_of_count_eq_zero kb.ids board.table hcount
  calc kb.evaluatedStatus board.memory (kb.evaluated board).table id
    _ = kb.evaluatedStatus board.memory board.table id := evaluatedStatus_congr hstatus _ id
    _ = board.table.status id := hevaluated id (kb.mem_ids id)
    _ = (kb.evaluated board).table.status id := (hstatus id).symm

theorem quiet_convergeOnce (h : kb.Justified board) (hiterations : 0 < iterations) :
    kb.Quiet (kb.convergeOnce iterations board).1 :=
  h.evaluated.quiet_propagate hiterations

/-- A pass that reports no change leaves a settled board. -/
theorem settled_of_convergeOnce (h : kb.Justified board) (hiterations : 0 < iterations)
    (hchanged : (kb.convergeOnce iterations board).2 = false) :
    kb.Settled (kb.convergeOnce iterations board).1 := by
  obtain ⟨hcount, hpropagation⟩ := convergeOnce_eq_false_iff.mp hchanged
  obtain ⟨hquiet, hsame⟩ := h.evaluated.quiet_of_propagate hiterations hpropagation
  change kb.Settled (kb.propagate iterations (kb.evaluated board)).1
  rw [hsame]
  exact ⟨fun id => evaluatedStatus_eq_self_iff.mp (evaluatedStatus_evaluated hcount id), hquiet⟩

/-- On a quiet board a pass cannot change anything but through a status: a pass
    that reports a change has raised the ranks. Where propagation is not allowed a
    round, the board need not be quiet. -/
theorem rank_convergeOnce (h : kb.Justified board) (hquiet : 0 < iterations → kb.Quiet board)
    (hchanged : (kb.convergeOnce iterations board).2 = true) :
    board.table.rank < (kb.convergeOnce iterations board).1.table.rank := by
  have hrank := rank_evaluateList board.memory kb.ids board.table
  have hpropagation : (kb.convergeOnce iterations board).1.table.rank =
      (kb.evaluateList board.memory kb.ids board.table).1.rank :=
    RuleTable.rank_congr fun query => status_propagate iterations _ query
  have hcount : (kb.evaluateList board.memory kb.ids board.table).2 ≠ 0 := by
    intro hnone
    obtain ⟨hstatus, -⟩ := evaluateList_of_count_eq_zero kb.ids board.table hnone
    have hunchanged : (kb.propagate iterations (kb.evaluated board)).2.changed = false := by
      rcases Nat.eq_zero_or_pos iterations with rfl | hiterations
      · rfl
      · have hstill : kb.Quiet (kb.evaluated board) :=
          fun id => (hquiet hiterations id).congr hstatus (fun _ hrecords => hrecords) rfl
        rw [h.evaluated.propagate_eq_of_quiet hstill hiterations]
    rw [convergeOnce_eq_false_iff.mpr ⟨hnone, hunchanged⟩] at hchanged
    cases hchanged
  omega

theorem checked_evaluateList (ids : List kb.Id) (table : RuleTable kb.size)
    (hid : id ∈ ids ∨ (table.get id).checked = kb.conditionValues memory id) :
    ((kb.evaluateList memory ids table).1.get id).checked = kb.conditionValues memory id := by
  induction ids generalizing table with
  | nil => exact hid.resolve_left List.not_mem_nil
  | cons head rest ih =>
    apply ih
    rw [evaluateRule, RuleTable.get_set]
    split
    · next heq => exact .inr (by rw [heq])
    · next hne => exact hid.imp_left fun hmem => (List.mem_cons.mp hmem).resolve_left hne

/-- Evaluation does nothing to rules that have the decided statuses and the
    present values of their conditions. -/
theorem evaluateList_eq_self (ids : List kb.Id) (table : RuleTable kb.size)
    (hstatus : ∀ id, kb.evaluatedStatus memory table id = table.status id)
    (hchecked : ∀ id, (table.get id).checked = kb.conditionValues memory id) :
    kb.evaluateList memory ids table = (table, 0) := by
  induction ids with
  | nil => rfl
  | cons id rest ih =>
    have hsame : kb.evaluateRule memory table id = table := by
      apply RuleTable.eq_of_get
      intro query
      rw [evaluateRule, RuleTable.get_set]
      split
      · next heq =>
        subst heq
        exact RuleState.ext (hstatus query) (hchecked query).symm
      · rfl
    have hcount : kb.reclassifies memory table id = false := by simp [reclassifies, hstatus]
    simp only [evaluateList, hsame, ih, hcount, Bool.toNat_false, Nat.add_zero]

/-- After a pass that reports no change, another pass does nothing at all. -/
theorem convergeOnce_eq_self (h : kb.Justified board)
    (hchanged : (kb.convergeOnce iterations board).2 = false) :
    kb.convergeOnce iterations (kb.convergeOnce iterations board).1 =
      ((kb.convergeOnce iterations board).1, false) := by
  obtain ⟨hcount, hpropagation⟩ := convergeOnce_eq_false_iff.mp hchanged
  have hsame : (kb.propagate iterations (kb.evaluated board)).1 = kb.evaluated board := by
    rcases Nat.eq_zero_or_pos iterations with rfl | hiterations
    · rfl
    · exact (h.evaluated.quiet_of_propagate hiterations hpropagation).2
  have hagain : kb.evaluateAll board.memory (kb.evaluated board).table =
      ((kb.evaluated board).table, 0) := by
    refine evaluateList_eq_self kb.ids _ (evaluatedStatus_evaluated hcount) fun id => ?_
    exact checked_evaluateList kb.ids board.table (.inl (kb.mem_ids id))
  have hstill : kb.evaluated (kb.evaluated board) = kb.evaluated board := by
    change ({ kb.evaluated board with
      table := (kb.evaluateAll board.memory (kb.evaluated board).table).1 } : Board kb.size) = _
    rw [hagain]
  change kb.convergeOnce iterations (kb.propagate iterations (kb.evaluated board)).1 =
    ((kb.propagate iterations (kb.evaluated board)).1, false)
  rw [hsame]
  apply Prod.ext
  · change (kb.propagate iterations (kb.evaluated (kb.evaluated board))).1 = kb.evaluated board
    rw [hstill, hsame]
  · refine convergeOnce_eq_false_iff.mpr ⟨congrArg Prod.snd hagain, ?_⟩
    rw [hstill, hpropagation]

theorem decided_of_convergeOnce_eq (hfixed : kb.convergeOnce iterations board = (board, false)) :
    kb.Decided board := by
  have hchanged : (kb.convergeOnce iterations board).2 = false := by rw [hfixed]
  obtain ⟨-, hevaluated⟩ :=
    evaluateList_of_count_eq_zero kb.ids board.table (convergeOnce_eq_false_iff.mp hchanged).1
  exact fun id => evaluatedStatus_eq_self_iff.mp (hevaluated id (kb.mem_ids id))

/-- The ways in which a convergence can go. Every pass before the last one raises
    a rank, which can happen twice for each rule; so either it comes to a pass
    that changes nothing, or the cap leaves no room for two passes for each rule
    and one more. -/
inductive Converges (kb : KnowledgeBase) (iterations cap : Nat) (board : Board kb.size) :
    Board kb.size × Convergence → Prop where
  | settled {final : Board kb.size} {passes : Nat} (hcap : passes ≤ cap)
      (hpasses : passes + board.table.rank ≤ 2 * kb.size + 1)
      (hfixed : kb.convergeOnce iterations final = (final, false)) :
      Converges kb iterations cap board (final, ⟨passes, true⟩)
  | capped {final : Board kb.size} (hcap : cap + board.table.rank ≤ 2 * kb.size) :
      Converges kb iterations cap board (final, ⟨cap, false⟩)

theorem Justified.converges (h : kb.Justified board) (hquiet : 0 < iterations → kb.Quiet board)
    (cap : Nat) : kb.Converges iterations cap board (kb.convergeWithin iterations cap board) := by
  induction cap generalizing board with
  | zero => exact .capped (by have hrank := board.table.rank_le; omega)
  | succ cap ih =>
    have hnext : kb.Justified (kb.convergeOnce iterations board).1 :=
      h.steps (infersAll_convergeOnce iterations board)
    have hquietNext : 0 < iterations → kb.Quiet (kb.convergeOnce iterations board).1 :=
      quiet_convergeOnce h
    have hrank := rank_convergeOnce h hquiet
    have hfixed : (kb.convergeOnce iterations board).2 = false →
        kb.convergeOnce iterations (kb.convergeOnce iterations board).1 =
          ((kb.convergeOnce iterations board).1, false) := convergeOnce_eq_self h
    have hbound := board.table.rank_le
    rw [convergeWithin]
    generalize kb.convergeOnce iterations board = result at *
    obtain ⟨next, changed⟩ := result
    cases changed with
    | false => exact .settled (by omega) (by omega) (hfixed rfl)
    | true =>
      have hraised : board.table.rank < next.table.rank := hrank rfl
      have hrest : kb.Converges iterations cap next (kb.convergeWithin iterations cap next) :=
        ih hnext hquietNext
      simp only
      generalize kb.convergeWithin iterations cap next = rest at hrest ⊢
      cases hrest with
      | @settled final passes hcap hpasses hfixed =>
        change kb.Converges iterations (cap + 1) board (final, ⟨passes + 1, true⟩)
        exact .settled (by omega) (by omega) hfixed
      | capped hcap => exact .capped (by omega)

end KnowledgeBase

/-- Limits under which nothing is ever cut short while a knowledge base is
    evaluated. -/
structure Limits.Ample (limits : Limits) (kb : KnowledgeBase) : Prop where
  passes : 2 * kb.size + 1 ≤ limits.maxEvaluationPasses
  iterations : 1 ≤ limits.maxPropagationIterations

namespace KnowledgeBase

variable {kb : KnowledgeBase} {board : Board kb.size} {limits : Limits} {iterations : Nat}

theorem Quiet.mark (h : kb.Quiet board) (fact : Fact) :
    kb.Quiet { board with table := kb.markEvaluating board.table fact } := by
  intro id
  refine ⟨fun hfired => ?_, fun hcombinator hnegative => ?_⟩
  · exact (h id).fired ((status_markEvaluating_of_isResolved rfl).mp hfired)
  · refine (h id).failed hcombinator fun other hother => ?_
    rw [← congr_status_markEvaluating RuleStatus.isNegative rfl board.table fact]
    exact hnegative other hother

theorem Quiet.note (h : kb.Quiet board) (event : Event) :
    kb.Quiet { board with log := board.log ++ [event] } :=
  fun id => (h id).congr (fun _ => rfl) (fun _ hrecords => hrecords) rfl

theorem Quiet.answer (h : kb.Quiet board) {fact : Fact} (value : Truth)
    (hnew : board.memory.finding fact = none) :
    kb.Quiet { board with memory := board.memory.putFinding fact value } :=
  fun id => (h id).congr (fun _ => rfl) (fun _ hrecords => hrecords.putFinding value hnew) rfl

/-- Between operations there is never anything left to infer. -/
theorem Reachable.quiet (h : kb.Reachable iterations board) (hiterations : 0 < iterations) :
    kb.Quiet board := by
  induction h with
  | fresh memory log _ _ =>
    intro id
    refine ⟨fun hfired => ?_, fun _ hnegative => ?_⟩
    · rw [RuleTable.status_fresh] at hfired
      cases hfired
    · have hid := hnegative id (mem_concluding.mpr rfl)
      rw [RuleTable.status_fresh] at hid
      cases hid
  | pass h _ => exact quiet_convergeOnce h.justified hiterations
  | mark _ fact ih => exact ih.mark fact
  | note _ event ih => exact ih.note event
  | answer _ _ value _ hnew ih => exact ih.answer value hnew

theorem converge_of_settled
    (hsettled : (kb.convergeWithin limits.maxPropagationIterations limits.maxEvaluationPasses
      board).2.settled = true) :
    kb.converge limits board =
      (kb.convergeWithin limits.maxPropagationIterations limits.maxEvaluationPasses board).1 := by
  unfold converge
  split
  · next heq => rw [heq]
  · next heq =>
    rw [heq] at hsettled
    cases hsettled

/-- Where the passes did not come to rest, nothing is added to what they came to
    but the event of the cap. -/
theorem converge_of_not_settled
    (hcapped : (kb.convergeWithin limits.maxPropagationIterations limits.maxEvaluationPasses
      board).2.settled = false) :
    kb.converge limits board =
      let final := (kb.convergeWithin limits.maxPropagationIterations limits.maxEvaluationPasses
        board).1
      { final with log := final.log ++ [.capReached limits.maxEvaluationPasses] } := by
  unfold converge
  split
  · next heq =>
    rw [heq] at hcapped
    cases hcapped
  · next heq => rw [heq]

/-- What inference comes to, within two passes for each rule and one more: a board
    on which another pass does nothing, or one to which the event of the cap was
    added because the cap leaves no room for so many passes. -/
theorem Reachable.converge_cases (h : kb.Reachable limits.maxPropagationIterations board) :
    let converged := kb.convergeWithin limits.maxPropagationIterations limits.maxEvaluationPasses
      board
    let final := kb.converge limits board
    converged.2.passes ≤ 2 * kb.size + 1 ∧ converged.2.passes ≤ limits.maxEvaluationPasses ∧
    (converged.2.settled = true ∧ final = converged.1 ∧
        kb.convergeOnce limits.maxPropagationIterations final = (final, false) ∨
      converged.2.settled = false ∧
        final = { converged.1 with
          log := converged.1.log ++ [.capReached limits.maxEvaluationPasses] } ∧
        converged.2.passes = limits.maxEvaluationPasses ∧
        limits.maxEvaluationPasses < 2 * kb.size + 1) := by
  have hconverges : kb.Converges limits.maxPropagationIterations limits.maxEvaluationPasses board
      _ := h.justified.converges h.quiet limits.maxEvaluationPasses
  have hsettled := @converge_of_settled kb board limits
  have hcapped := @converge_of_not_settled kb board limits
  generalize kb.convergeWithin limits.maxPropagationIterations limits.maxEvaluationPasses board =
    converged at hconverges hsettled hcapped ⊢
  cases hconverges with
  | settled hcap hpasses hfixed =>
    refine ⟨by simp only; omega, hcap, .inl ⟨rfl, hsettled rfl, ?_⟩⟩
    rw [hsettled rfl]
    exact hfixed
  | capped hcap =>
    exact ⟨by simp only; omega, Nat.le_refl _, .inr ⟨rfl, hcapped rfl, rfl, by omega⟩⟩

/-- Two passes for each rule and one more are enough. -/
theorem Reachable.convergeOnce_converge (h : kb.Reachable limits.maxPropagationIterations board)
    (hpasses : 2 * kb.size + 1 ≤ limits.maxEvaluationPasses) :
    kb.convergeOnce limits.maxPropagationIterations (kb.converge limits board) =
      (kb.converge limits board, false) := by
  rcases h.converge_cases.2.2 with ⟨-, -, hfixed⟩ | ⟨-, -, -, hcap⟩
  · exact hfixed
  · omega

/-- Then every rule is decided, even where propagation is not allowed a round. -/
theorem Reachable.decided_converge (h : kb.Reachable limits.maxPropagationIterations board)
    (hpasses : 2 * kb.size + 1 ≤ limits.maxEvaluationPasses) :
    kb.Decided (kb.converge limits board) :=
  decided_of_convergeOnce_eq (h.convergeOnce_converge hpasses)

/-- A board on which another pass does nothing is settled. -/
theorem Justified.settled_of_convergeOnce_eq (h : kb.Justified board) (hiterations : 0 < iterations)
    (hfixed : kb.convergeOnce iterations board = (board, false)) : kb.Settled board := by
  have hsettled := settled_of_convergeOnce h hiterations (by rw [hfixed])
  rwa [hfixed] at hsettled

/-- Under ample limits every convergence reaches a settled board. -/
theorem Reachable.settled_converge (h : kb.Reachable limits.maxPropagationIterations board)
    (hlimits : limits.Ample kb) : kb.Settled (kb.converge limits board) :=
  h.converge.justified.settled_of_convergeOnce_eq hlimits.iterations
    (h.convergeOnce_converge hlimits.passes)

/-- Asking a fact leaves a settled board settled. -/
theorem Settled.mark (h : kb.Settled board) (fact : Fact) :
    kb.Settled { board with table := kb.markEvaluating board.table fact } := by
  refine ⟨fun id hopen status hdecided => ?_, h.quiet.mark fact⟩
  simp only at hopen hdecided ⊢
  rw [congr_status_markEvaluating RuleStatus.isTerminal rfl] at hopen
  rw [decision_congr (congr_status_markEvaluating RuleStatus.isResolved rfl board.table fact)]
    at hdecided
  have hstatus := h.decided id hopen status hdecided
  exact (status_markEvaluating_of_isResolved (isResolved_of_decision hdecided)).mpr hstatus

theorem Settled.note (h : kb.Settled board) (event : Event) :
    kb.Settled { board with log := board.log ++ [event] } := ⟨h.decided, h.quiet.note event⟩

end KnowledgeBase

end Consultation
