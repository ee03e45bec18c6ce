import Consultation.Proofs.Inference.Contest

namespace Consultation

namespace KnowledgeBase

variable {kb : KnowledgeBase} {board next : Board kb.size} {id : kb.Id}

/-- A board is quiet when another round of propagation would infer nothing. -/
def Quiet (kb : KnowledgeBase) (board : Board kb.size) : Prop := ∀ id, kb.Inferred board id

/-- What is left to infer is a matter of the statuses and of what was recorded
    about the action. -/
theorem Inferred.congr {id other : kb.Id} (h : kb.Inferred board id)
    (hstatus : ∀ query, next.table.status query = board.table.status query)
    (haction : ∀ value, board.memory.Records (kb.rule id).action value →
      next.memory.Records (kb.rule id).action value)
    (hother : other = id) : kb.Inferred next other := by
  subst hother
  constructor
  · intro hfired
    rw [hstatus] at hfired
    exact haction _ (h.fired hfired)
  · intro hcombinator hnegative
    refine haction _ (h.failed hcombinator fun query hquery => ?_)
    rw [← hstatus]
    exact hnegative query hquery

/-- The ways in which a visit can go on a board whose hypotheses are justified:
    there is nothing left to promote, so at most one value is written. -/
inductive Visits (kb : KnowledgeBase) (board : Board kb.size) (id : kb.Id) :
    Board kb.size × Bool → Prop where
  | quiet (h : kb.Inferred board id) : Visits kb board id (board, false)
  | derive (hfired : board.table.status id = .fired)
      (hnew : ¬ board.memory.Records (kb.rule id).action .holds) :
      Visits kb board id (kb.infer board (kb.rule id).action .holds
        (.derived (kb.rule id).action (kb.rule id).action), true)
  | refute (hcombinator : (kb.rule id).combinator = .all)
      (hnegative : ∀ other ∈ kb.concluding (kb.rule id).action,
        (board.table.status other).isNegative = true)
      (hnew : ¬ board.memory.Records (kb.rule id).action .fails) :
      Visits kb board id (kb.infer board (kb.rule id).action .fails
        (.refuted (kb.rule id).action (kb.rule id).action), true)

namespace Visits

variable {result : Board kb.size × Bool}

theorem eq_of_inferred (h : kb.Visits board id result) (hinferred : kb.Inferred board id) :
    result = (board, false) := by
  cases h with
  | quiet => rfl
  | derive hfired hnew => exact absurd (hinferred.fired hfired) hnew
  | refute hcombinator hnegative hnew => exact absurd (hinferred.failed hcombinator hnegative) hnew

end Visits

namespace Justified

/-- Where hypotheses are justified, no fact is contested: what a fired rule was proved by is
    derived to hold, and what is derived to hold is not refuted. -/
theorem uncontested (h : kb.Justified board) : kb.Uncontested board := by
  rintro fact ⟨hunknown, ⟨id, hfired, hcombinator, hmem⟩, hnegative, -⟩
  exact h.hypothesis_ne_holds hnegative (h.not_promotable hfired hcombinator hmem hunknown)

theorem met_iff_inferred (h : kb.Justified board) : kb.Met board id ↔ kb.Inferred board id :=
  met_iff.trans (and_iff_left fun hfired hcombinator _ hmem =>
    h.not_promotable hfired hcombinator hmem)

theorem met_iff_quiet (h : kb.Justified board) : (∀ id, kb.Met board id) ↔ kb.Quiet board :=
  forall_congr' fun _ => h.met_iff_inferred

/-- Firing derives the action and promotes nothing. -/
private theorem assertFired_eq (h : kb.Justified board)
    (hfired : board.table.status id = .fired) :
    kb.assertFired board id = kb.deriveAction board id := by
  have hderived : kb.Justified (kb.deriveAction board id).1 ∧
      (kb.deriveAction board id).1.table.status id = .fired := by
    unfold deriveAction
    simp only
    split
    · exact ⟨h.derive hfired _, by simpa using hfired⟩
    · exact ⟨h, hfired⟩
  unfold assertFired
  cases hcombinator : (kb.rule id).combinator with
  | any => simp only [hcombinator]
  | all =>
    have hpromotes : kb.promotePremises (kb.rule id).action (kb.rule id).conditions
        (kb.deriveAction board id).1 = ((kb.deriveAction board id).1, false) := by
      refine (reports_promotePremises hcombinator _ (List.Subset.refl _) _
        hderived.2).eq_of_unchanged ?_
      rw [promotePremises_unchanged_iff]
      exact fun condition hmem => hderived.1.not_promotable hderived.2 hcombinator hmem
    simp only [hcombinator, hpromotes, Bool.or_false]

theorem visits (h : kb.Justified board) (id : kb.Id) :
    kb.Visits board id (kb.visit board id) := by
  by_cases hinferred : kb.Inferred board id
  · have hunchanged := visit_unchanged_iff.mpr (h.met_iff_inferred.mpr hinferred)
    rw [(reports_visit board id).eq_of_unchanged hunchanged]
    exact .quiet hinferred
  by_cases hfired : board.table.status id = .fired
  · rw [inferred_iff_of_fired hfired] at hinferred
    have hvisit : kb.visit board id = kb.deriveAction board id := by
      rw [visit, hfired]
      exact h.assertFired_eq hfired
    rw [hvisit, deriveAction, if_pos (Memory.not_records_iff.mp hinferred)]
    exact .derive hfired hinferred
  · rw [inferred_iff_of_not_fired hfired] at hinferred
    obtain ⟨hcombinator, hrest⟩ := Classical.not_imp.mp hinferred
    obtain ⟨hnegative, hnew⟩ := Classical.not_imp.mp hrest
    have hvisit : kb.visit board id = kb.refuteFailed board id :=
      visit_eq_refuteFailed (hnegative id (mem_concluding.mpr rfl))
    rw [hvisit, refuteFailed, if_pos ⟨hcombinator, hnegative, Memory.not_records_iff.mp hnew⟩]
    exact .refute hcombinator hnegative hnew

theorem propagateOnce_eq_of_quiet (h : kb.Justified board) (hquiet : kb.Quiet board) :
    kb.propagateOnce board = (board, false) :=
  propagateOnce_eq_of_met (h.met_iff_quiet.mpr hquiet)

theorem propagate_succ (h : kb.Justified board) (cap : Nat) :
    kb.propagate (cap + 1) board =
      if (kb.propagateOnce board).2 then
        ((kb.propagateOnce board).1, if cap = 0 then ⟨1, true, false⟩ else ⟨2, true, true⟩)
      else (board, ⟨1, false, true⟩) :=
  h.uncontested.propagate_succ cap

variable {cap : Nat}

theorem quiet_propagate (h : kb.Justified board) (hcap : 0 < cap) :
    kb.Quiet (kb.propagate cap board).1 := by
  obtain ⟨cap, rfl⟩ := Nat.exists_eq_add_of_le' hcap
  have hfinal := h.steps (infersAll_propagate (cap + 1) board)
  exact hfinal.met_iff_quiet.mp (h.uncontested.met_propagate cap)

theorem propagate_eq_of_quiet (h : kb.Justified board) (hquiet : kb.Quiet board) (hcap : 0 < cap) :
    kb.propagate cap board = (board, ⟨1, false, true⟩) := by
  obtain ⟨cap, rfl⟩ := Nat.exists_eq_add_of_le' hcap
  exact propagate_eq_of_met (h.met_iff_quiet.mpr hquiet) cap

/-- A propagation that reports no change has made none, and had none to make. -/
theorem quiet_of_propagate (h : kb.Justified board) (hcap : 0 < cap)
    (hchanged : (kb.propagate cap board).2.changed = false) :
    kb.Quiet board ∧ (kb.propagate cap board).1 = board := by
  obtain ⟨cap, rfl⟩ := Nat.exists_eq_add_of_le' hcap
  have hsame := (reports_propagate (cap + 1) board).eq_of_unchanged hchanged
  have hboard : (kb.propagate (cap + 1) board).1 = board := congrArg Prod.fst hsame
  exact ⟨hboard ▸ h.quiet_propagate (Nat.succ_pos cap), hboard⟩

end Justified

end KnowledgeBase

end Consultation
