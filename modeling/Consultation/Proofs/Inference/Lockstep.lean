import Consultation.Proofs.Inference.Convergence

namespace Consultation

namespace KnowledgeBase

variable {kb other : KnowledgeBase} {pair : kb.Id → other.Id}
  {R : Board kb.size → Board other.size → Prop} {left : Board kb.size} {right : Board other.size}

namespace Visits

variable {board : Board kb.size} {id : kb.Id} {result : Board kb.size × Bool}

/-- A rule that fired has nothing left to infer but its action. -/
theorem eq_of_fired (h : kb.Visits board id result) (hleft : ¬ kb.Inferred board id)
    (hfired : board.table.status id = .fired) :
    result = (kb.infer board (kb.rule id).action .holds
      (.derived (kb.rule id).action (kb.rule id).action), true) := by
  cases h with
  | quiet h => exact absurd h hleft
  | derive => rfl
  | refute _ hnegative =>
    have hid := hnegative id (mem_concluding.mpr rfl)
    rw [hfired] at hid
    cases hid

theorem eq_of_not_fired (h : kb.Visits board id result) (hleft : ¬ kb.Inferred board id)
    (hfired : board.table.status id ≠ .fired) :
    result = (kb.infer board (kb.rule id).action .fails
      (.refuted (kb.rule id).action (kb.rule id).action), true) := by
  cases h with
  | quiet h => exact absurd h hleft
  | derive h => exact absurd h hfired
  | refute => rfl

end Visits

/-- Two knowledge bases whose rules correspond in order, and a relation of their
    boards under which inference goes the same way on both: corresponding rules
    take new statuses together and have the same left to infer, and neither an
    evaluation nor an inference breaks the relation. -/
structure Lockstep (kb other : KnowledgeBase) (pair : kb.Id → other.Id)
    (R : Board kb.size → Board other.size → Prop) : Prop where
  ids : other.ids = kb.ids.map pair
  action : ∀ id, (other.rule (pair id)).action = (kb.rule id).action
  fired : ∀ {left right}, R left right → ∀ id,
    (right.table.status (pair id) = .fired ↔ left.table.status id = .fired)
  inferred : ∀ {left right}, R left right → ∀ id,
    (other.Inferred right (pair id) ↔ kb.Inferred left id)
  reclassifies : ∀ {left right}, R left right → ∀ id,
    other.reclassifies right.memory right.table (pair id) =
      kb.reclassifies left.memory left.table id
  evaluate : ∀ {left right}, R left right → ∀ id,
    R { left with table := kb.evaluateRule left.memory left.table id }
      { right with table := other.evaluateRule right.memory right.table (pair id) }
  infer : ∀ {left right}, R left right → ∀ fact value event,
    R (kb.infer left fact value event) (other.infer right fact value event)

namespace Lockstep

variable (h : kb.Lockstep other pair R)

include h

theorem evaluateList (hR : R left right) (ids : List kb.Id) :
    (other.evaluateList right.memory (ids.map pair) right.table).2 =
      (kb.evaluateList left.memory ids left.table).2 ∧
    R { left with table := (kb.evaluateList left.memory ids left.table).1 }
      { right with table := (other.evaluateList right.memory (ids.map pair) right.table).1 } := by
  induction ids generalizing left right with
  | nil => exact ⟨rfl, hR⟩
  | cons id rest ih =>
    obtain ⟨hcount, hrest⟩ := ih (h.evaluate hR id)
    refine ⟨?_, hrest⟩
    simp only [List.map_cons, KnowledgeBase.evaluateList]
    rw [hcount, h.reclassifies hR id]

theorem evaluated (hR : R left right) :
    (other.evaluateAll right.memory right.table).2 = (kb.evaluateAll left.memory left.table).2 ∧
      R (kb.evaluated left) (other.evaluated right) := by
  unfold KnowledgeBase.evaluated evaluateAll
  rw [h.ids]
  exact h.evaluateList hR kb.ids

/-- Corresponding rules infer the same, or nothing on either side. -/
theorem visit (hleft : kb.Justified left) (hright : other.Justified right) (hR : R left right)
    (id : kb.Id) :
    (other.visit right (pair id)).2 = (kb.visit left id).2 ∧
      R (kb.visit left id).1 (other.visit right (pair id)).1 := by
  have hvisitLeft : kb.Visits left id (kb.visit left id) := hleft.visits id
  have hvisitRight : other.Visits right (pair id) (other.visit right (pair id)) :=
    hright.visits (pair id)
  have hinferred := h.inferred hR id
  -- What a visit does is fixed by what is left to infer and whether the rule fired.
  by_cases hquiet : kb.Inferred left id
  · rw [hvisitLeft.eq_of_inferred hquiet, hvisitRight.eq_of_inferred (hinferred.mpr hquiet)]
    exact ⟨rfl, hR⟩
  · by_cases hfired : left.table.status id = .fired
    · rw [hvisitLeft.eq_of_fired hquiet hfired,
        hvisitRight.eq_of_fired (mt hinferred.mp hquiet) ((h.fired hR id).mpr hfired), h.action id]
      exact ⟨rfl, h.infer hR _ _ _⟩
    · rw [hvisitLeft.eq_of_not_fired hquiet hfired,
        hvisitRight.eq_of_not_fired (mt hinferred.mp hquiet) (mt (h.fired hR id).mp hfired),
        h.action id]
      exact ⟨rfl, h.infer hR _ _ _⟩

theorem visitList (hleft : kb.Justified left) (hright : other.Justified right) (hR : R left right)
    (ids : List kb.Id) :
    (other.visitList (ids.map pair) right).2 = (kb.visitList ids left).2 ∧
      R (kb.visitList ids left).1 (other.visitList (ids.map pair) right).1 := by
  induction ids generalizing left right with
  | nil => exact ⟨rfl, hR⟩
  | cons id rest ih =>
    obtain ⟨hchanged, hvisited⟩ := h.visit hleft hright hR id
    have hnextLeft : kb.Justified (kb.visit left id).1 := hleft.steps (infersAll_visit left id)
    have hnextRight : other.Justified (other.visit right (pair id)).1 :=
      hright.steps (infersAll_visit right (pair id))
    obtain ⟨hchanges, hrest⟩ := ih hnextLeft hnextRight hvisited
    refine ⟨?_, hrest⟩
    simp only [List.map_cons, KnowledgeBase.visitList]
    rw [hchanged, hchanges]

theorem propagateOnce (hleft : kb.Justified left) (hright : other.Justified right)
    (hR : R left right) :
    (other.propagateOnce right).2 = (kb.propagateOnce left).2 ∧
      R (kb.propagateOnce left).1 (other.propagateOnce right).1 := by
  unfold KnowledgeBase.propagateOnce
  rw [h.ids]
  exact h.visitList hleft hright hR kb.ids

theorem propagate (hleft : kb.Justified left) (hright : other.Justified right) (hR : R left right)
    (cap : Nat) :
    (other.propagate cap right).2 = (kb.propagate cap left).2 ∧
      R (kb.propagate cap left).1 (other.propagate cap right).1 := by
  cases cap with
  | zero => exact ⟨rfl, hR⟩
  | succ cap =>
    obtain ⟨hchanged, honce⟩ := h.propagateOnce hleft hright hR
    rw [hleft.propagate_succ, hright.propagate_succ, hchanged]
    split
    · exact ⟨rfl, honce⟩
    · exact ⟨rfl, hR⟩

theorem convergeOnce (hleft : kb.Justified left) (hright : other.Justified right)
    (hR : R left right) (iterations : Nat) :
    (other.convergeOnce iterations right).2 = (kb.convergeOnce iterations left).2 ∧
      R (kb.convergeOnce iterations left).1 (other.convergeOnce iterations right).1 := by
  obtain ⟨hcount, hevaluated⟩ := h.evaluated hR
  obtain ⟨houtcome, hpropagated⟩ :=
    h.propagate hleft.evaluated hright.evaluated hevaluated iterations
  refine ⟨?_, hpropagated⟩
  unfold KnowledgeBase.evaluated at houtcome
  simp only [KnowledgeBase.convergeOnce, hcount, houtcome]

/-- Whole convergences take as many passes on both sides, and end alike. -/
theorem convergeWithin (hleft : kb.Justified left) (hright : other.Justified right)
    (hR : R left right) (iterations cap : Nat) :
    (other.convergeWithin iterations cap right).2 = (kb.convergeWithin iterations cap left).2 ∧
      R (kb.convergeWithin iterations cap left).1
        (other.convergeWithin iterations cap right).1 := by
  induction cap generalizing left right with
  | zero => exact ⟨rfl, hR⟩
  | succ cap ih =>
    obtain ⟨hchanged, honce⟩ := h.convergeOnce hleft hright hR iterations
    have hnextLeft : kb.Justified (kb.convergeOnce iterations left).1 :=
      hleft.steps (infersAll_convergeOnce iterations left)
    have hnextRight : other.Justified (other.convergeOnce iterations right).1 :=
      hright.steps (infersAll_convergeOnce iterations right)
    obtain ⟨houtcome, hrest⟩ := ih hnextLeft hnextRight honce
    rw [KnowledgeBase.convergeWithin, KnowledgeBase.convergeWithin]
    generalize kb.convergeOnce iterations left = leftResult at hchanged honce houtcome hrest ⊢
    generalize other.convergeOnce iterations right = rightResult at hchanged honce houtcome hrest ⊢
    obtain ⟨leftNext, changed⟩ := leftResult
    obtain ⟨rightNext, changed'⟩ := rightResult
    obtain rfl : changed' = changed := hchanged
    cases changed' with
    | false => exact ⟨rfl, honce⟩
    | true =>
      refine ⟨?_, hrest⟩
      simp only [houtcome]

theorem converge (hleft : kb.Justified left) (hright : other.Justified right) (hR : R left right)
    (hnote : ∀ {left right}, R left right → ∀ event,
      R { left with log := left.log ++ [event] } { right with log := right.log ++ [event] })
    (limits : Limits) : R (kb.converge limits left) (other.converge limits right) := by
  obtain ⟨houtcome, hboard⟩ := h.convergeWithin hleft hright hR limits.maxPropagationIterations
    limits.maxEvaluationPasses
  unfold KnowledgeBase.converge
  generalize kb.convergeWithin limits.maxPropagationIterations limits.maxEvaluationPasses left =
    leftResult at houtcome hboard ⊢
  generalize other.convergeWithin limits.maxPropagationIterations limits.maxEvaluationPasses right =
    rightResult at houtcome hboard ⊢
  obtain ⟨leftFinal, passes, settled⟩ := leftResult
  obtain ⟨rightFinal, outcome⟩ := rightResult
  obtain rfl : outcome = ⟨passes, settled⟩ := houtcome
  cases settled with
  | true => exact hboard
  | false => exact hnote hboard _

end Lockstep

end KnowledgeBase

/-- Boards that differ in their journals at most. -/
structure Board.SameButLog {size : Nat} (left right : Board size) : Prop where
  memory : right.memory = left.memory
  table : right.table = left.table

theorem Board.SameButLog.symm {size : Nat} {left right : Board size} (h : left.SameButLog right) :
    right.SameButLog left := ⟨h.memory.symm, h.table.symm⟩

private theorem Board.SameButLog.inferred {kb : KnowledgeBase} {left right : Board kb.size}
    {id : kb.Id} (h : left.SameButLog right) (hleft : kb.Inferred left id) :
    kb.Inferred right id :=
  hleft.congr (fun _ => by rw [h.table]) (fun _ hrecords => by rwa [h.memory]) rfl

/-- Inference reads nothing of the journal. -/
theorem KnowledgeBase.lockstep_sameButLog (kb : KnowledgeBase) :
    kb.Lockstep kb id Board.SameButLog where
  ids := (List.map_id _).symm
  action _ := rfl
  fired h _ := by rw [h.table]; rfl
  inferred h _ := ⟨h.symm.inferred, h.inferred⟩
  reclassifies h _ := by rw [h.memory, h.table]; rfl
  evaluate h _ := ⟨h.memory, by rw [h.memory, h.table]; rfl⟩
  infer h _ _ _ := by
    constructor
    · simp only [memory_infer, h.memory]
    · simp only [KnowledgeBase.infer, h.table]

end Consultation
