import Consultation.Proofs.Inference.Deduction

namespace Consultation

namespace KnowledgeBase

variable {kb : KnowledgeBase} {board next : Board kb.size} {id : kb.Id} {fact : Fact}
  {value : Truth} {event : Event}

namespace Demands

/-- What is demanded depends on the statuses and on the answers alone. -/
theorem congr (h : kb.Demands board id fact value event)
    (hstatus : ∀ query, next.table.status query = board.table.status query)
    (hfinding : ∀ query, next.memory.finding query = board.memory.finding query) :
    kb.Demands next id fact value event := by
  cases h with
  | derive hfired hanswer =>
    exact .derive ((hstatus id).trans hfired) (hfinding _ ▸ hanswer)
  | promote hfired hcombinator _ hmem hanswer =>
    exact .promote ((hstatus id).trans hfired) hcombinator _ hmem ((hfinding _).trans hanswer)
  | refute hcombinator hnegative hanswer =>
    exact .refute hcombinator (fun query hquery => (hstatus query) ▸ hnegative query hquery)
      (hfinding _ ▸ hanswer)

theorem value_cases (h : kb.Demands board id fact value event) :
    value = .holds ∨ value = .fails := by
  cases h with
  | derive | promote => exact .inl rfl
  | refute => exact .inr rfl

end Demands

/-- Nothing is left to infer from the status of a rule. -/
structure Inferred (kb : KnowledgeBase) (board : Board kb.size) (id : kb.Id) : Prop where
  fired : board.table.status id = .fired → board.memory.Records (kb.rule id).action .holds
  failed : (kb.rule id).combinator = .all →
    (∀ other ∈ kb.concluding (kb.rule id).action, (board.table.status other).isNegative = true) →
    board.memory.Records (kb.rule id).action .fails

/-- What a rule demands for a fact is what was derived about it last. -/
def Met (kb : KnowledgeBase) (board : Board kb.size) (id : kb.Id) : Prop :=
  ∀ fact value event, kb.Demands board id fact value event →
    board.memory.hypothesis fact = some value

/-- Beyond its action, a fired rule demands what it takes to be proved by its firing. -/
theorem met_iff : kb.Met board id ↔ kb.Inferred board id ∧
    (board.table.status id = .fired → (kb.rule id).combinator = .all →
      ∀ condition ∈ (kb.rule id).conditions, board.memory.finding condition = some .unknown →
        board.memory.hypothesis condition = some .holds) := by
  constructor
  · intro h
    refine ⟨⟨fun hfired => ?_, fun hcombinator hnegative => ?_⟩, ?_⟩
    · by_cases hfinding : board.memory.finding (kb.rule id).action = some .holds
      · exact .inl hfinding
      · exact .inr (h _ _ _ (.derive hfired hfinding))
    · by_cases hfinding : board.memory.finding (kb.rule id).action = some .fails
      · exact .inl hfinding
      · exact .inr (h _ _ _ (.refute hcombinator hnegative hfinding))
    · intro hfired hcombinator condition hmem hfinding
      exact h _ _ _ (.promote hfired hcombinator condition hmem hfinding)
  · rintro ⟨hinferred, hpromoted⟩ fact value event hdemand
    cases hdemand with
    | derive hfired hfinding => exact (hinferred.fired hfired).resolve_left hfinding
    | promote hfired hcombinator _ hmem hfinding =>
      exact hpromoted hfired hcombinator fact hmem hfinding
    | refute hcombinator hnegative hfinding =>
      exact (hinferred.failed hcombinator hnegative).resolve_left hfinding

/-- A rule that is not negative itself refutes nothing. -/
private theorem not_negative_of_self (hstatus : (board.table.status id).isNegative = false) :
    ¬ ∀ other ∈ kb.concluding (kb.rule id).action,
      (board.table.status other).isNegative = true := by
  intro hnegative
  have hid := hnegative id (mem_concluding.mpr rfl)
  rw [hstatus] at hid
  cases hid

theorem inferred_iff_of_fired (hfired : board.table.status id = .fired) :
    kb.Inferred board id ↔ board.memory.Records (kb.rule id).action .holds := by
  refine ⟨fun h => h.fired hfired, fun hrecorded => ⟨fun _ => hrecorded, fun _ hnegative => ?_⟩⟩
  exact absurd hnegative (not_negative_of_self (by rw [hfired]; rfl))

theorem inferred_iff_of_not_fired (hfired : board.table.status id ≠ .fired) :
    kb.Inferred board id ↔ ((kb.rule id).combinator = .all →
      (∀ other ∈ kb.concluding (kb.rule id).action,
        (board.table.status other).isNegative = true) →
      board.memory.Records (kb.rule id).action .fails) :=
  ⟨fun h => h.failed, fun hfailed => ⟨fun h => absurd h hfired, hfailed⟩⟩

private theorem deriveAction_unchanged_iff :
    (kb.deriveAction board id).2 = false ↔ board.memory.Records (kb.rule id).action .holds := by
  unfold deriveAction
  simp only
  split
  · next h => exact iff_of_false nofun (Memory.not_records_iff.mpr h)
  · next h => exact iff_of_true rfl (by_contra fun hnew => h (Memory.not_records_iff.mp hnew))

theorem promotePremises_unchanged_iff (action : Fact) (conditions : List Fact) :
    (kb.promotePremises action conditions board).2 = false ↔
      ∀ condition ∈ conditions, board.memory.finding condition = some .unknown →
        board.memory.hypothesis condition = some .holds := by
  induction conditions with
  | nil => exact iff_of_true rfl (List.forall_mem_nil _)
  | cons condition rest ih =>
    rw [promotePremises, List.forall_mem_cons]
    split
    · next h => exact iff_of_false (by simp) fun hpromoted => h.2 (hpromoted.1 h.1)
    · next h =>
      rw [ih, and_iff_right]
      intro hfinding
      by_contra hnew
      exact h ⟨hfinding, hnew⟩

private theorem refuteFailed_unchanged_iff :
    (kb.refuteFailed board id).2 = false ↔ ((kb.rule id).combinator = .all →
      (∀ other ∈ kb.concluding (kb.rule id).action,
        (board.table.status other).isNegative = true) →
      board.memory.Records (kb.rule id).action .fails) := by
  unfold refuteFailed
  simp only
  split
  · next h =>
    obtain ⟨hcombinator, hnegative, hnew⟩ := h
    exact iff_of_false nofun fun hfailed =>
      Memory.not_records_iff.mpr hnew (hfailed hcombinator hnegative)
  · next h =>
    refine iff_of_true rfl fun hcombinator hnegative => ?_
    by_contra hnew
    exact h ⟨hcombinator, hnegative, Memory.not_records_iff.mp hnew⟩

/-- A visit reports no change exactly where whatever the rule demands is met. -/
theorem visit_unchanged_iff : (kb.visit board id).2 = false ↔ kb.Met board id := by
  rw [met_iff]
  unfold visit
  cases hstatus : board.table.status id with
  | fired =>
    rw [inferred_iff_of_fired hstatus]
    change (kb.assertFired board id).2 = false ↔ _
    unfold assertFired
    cases hcombinator : (kb.rule id).combinator with
    | any =>
      simp only [hcombinator]
      rw [deriveAction_unchanged_iff, and_iff_left nofun]
    | all =>
      simp only [hcombinator]
      by_cases hrecorded : board.memory.Records (kb.rule id).action .holds
      · have hunchanged := deriveAction_unchanged_iff.mpr hrecorded
        have hderived : kb.deriveAction board id = (board, false) :=
          (reports_deriveAction hstatus).1.eq_of_unchanged hunchanged
        rw [hderived, Bool.false_or, promotePremises_unchanged_iff]
        simp [hrecorded]
      · have hderived : (kb.deriveAction board id).2 = true := by
          simpa using mt deriveAction_unchanged_iff.mp hrecorded
        simp [hderived, hrecorded]
  | blocked | uncertain =>
    rw [inferred_iff_of_not_fired (by rw [hstatus]; nofun), and_iff_left nofun]
    exact refuteFailed_unchanged_iff
  | pending | evaluating =>
    refine iff_of_true rfl ⟨?_, nofun⟩
    rw [inferred_iff_of_not_fired (by rw [hstatus]; nofun)]
    exact fun _ hnegative => absurd hnegative (not_negative_of_self (by rw [hstatus]; rfl))

theorem visit_eq_refuteFailed (h : (board.table.status id).isNegative = true) :
    kb.visit board id = kb.refuteFailed board id := by
  unfold visit
  cases hstatus : board.table.status id with
  | blocked | uncertain => rfl
  | pending | evaluating | fired =>
    rw [hstatus] at h
    cases h

private theorem records_promotePremises (action : Fact) (conditions : List Fact)
    (h : board.memory.Records fact .holds) :
    (kb.promotePremises action conditions board).1.memory.Records fact .holds := by
  induction conditions generalizing board with
  | nil => exact h
  | cons condition rest ih =>
    rw [promotePremises]
    split
    · refine ih ?_
      rw [Memory.Records, memory_infer, Memory.hypothesis_putHypothesis]
      split
      · exact .inr rfl
      · exact h
    · exact ih h

private theorem promotePremises_proves (action : Fact) (conditions : List Fact)
    (hmem : fact ∈ conditions) (hfinding : board.memory.finding fact = some .unknown) :
    (kb.promotePremises action conditions board).1.memory.Records fact .holds := by
  induction conditions generalizing board with
  | nil => cases hmem
  | cons condition rest ih =>
    rw [promotePremises]
    split
    · rcases List.mem_cons.mp hmem with rfl | hrest
      · exact records_promotePremises action rest (.inr (by simp))
      · exact ih hrest hfinding
    · next h =>
      rcases List.mem_cons.mp hmem with rfl | hrest
      · refine records_promotePremises action rest (.inr ?_)
        by_contra hnew
        exact h ⟨hfinding, hnew⟩
      · exact ih hrest hfinding

private theorem records_deriveAction :
    (kb.deriveAction board id).1.memory.Records (kb.rule id).action .holds := by
  unfold deriveAction
  simp only
  split
  · exact .inr (by simp)
  · next h => exact by_contra fun hnew => h (Memory.not_records_iff.mp hnew)

private theorem records_assertFired :
    (kb.assertFired board id).1.memory.Records (kb.rule id).action .holds := by
  unfold assertFired
  cases hcombinator : (kb.rule id).combinator with
  | any =>
    simp only [hcombinator]
    exact records_deriveAction
  | all =>
    simp only [hcombinator]
    exact records_promotePremises _ _ records_deriveAction

private theorem assertFired_proves (hfired : board.table.status id = .fired)
    (hcombinator : (kb.rule id).combinator = .all) (hmem : fact ∈ (kb.rule id).conditions)
    (hfinding : board.memory.finding fact = some .unknown) :
    (kb.assertFired board id).1.memory.Records fact .holds := by
  obtain ⟨_, hevents, -⟩ := (reports_deriveAction hfired).1
  unfold assertFired
  simp only [hcombinator]
  exact promotePremises_proves _ _ hmem ((hevents.finding_eq fact).trans hfinding)

private theorem records_refuteFailed (hcombinator : (kb.rule id).combinator = .all)
    (hnegative : ∀ other ∈ kb.concluding (kb.rule id).action,
      (board.table.status other).isNegative = true) :
    (kb.refuteFailed board id).1.memory.Records (kb.rule id).action .fails := by
  unfold refuteFailed
  simp only
  split
  · exact .inr (by simp)
  · next h =>
    by_contra hnew
    exact h ⟨hcombinator, hnegative, Memory.not_records_iff.mp hnew⟩

/-- A visit leaves met what the rule demands. -/
theorem met_visit (board : Board kb.size) (id : kb.Id) : kb.Met (kb.visit board id).1 id := by
  obtain ⟨_, hevents, -⟩ := reports_visit board id
  have hkept := hevents.status_eq
  cases hstatus : board.table.status id with
  | fired =>
    have hvisit : kb.visit board id = kb.assertFired board id := by rw [visit, hstatus]
    rw [met_iff, inferred_iff_of_fired ((hkept id).trans hstatus)]
    refine ⟨hvisit ▸ records_assertFired, fun _ hcombinator condition hmem hunknown => ?_⟩
    have hrecorded : (kb.visit board id).1.memory.Records condition .holds :=
      hvisit ▸ assertFired_proves hstatus hcombinator hmem
        ((hevents.finding_eq condition).symm.trans hunknown)
    exact hrecorded.resolve_left (by rw [hunknown]; nofun)
  | blocked | uncertain =>
    have hvisit : kb.visit board id = kb.refuteFailed board id :=
      visit_eq_refuteFailed (by rw [hstatus]; rfl)
    have hnot : (kb.visit board id).1.table.status id ≠ .fired := by
      rw [hkept, hstatus]
      nofun
    rw [met_iff, inferred_iff_of_not_fired hnot]
    refine ⟨fun hcombinator hnegative => ?_, fun hfired => absurd hfired hnot⟩
    simp only [hkept] at hnegative
    exact hvisit ▸ records_refuteFailed hcombinator hnegative
  | pending | evaluating =>
    have hunchanged : (kb.visit board id).2 = false := by rw [visit, hstatus]
    rw [(reports_visit board id).eq_of_unchanged hunchanged]
    exact visit_unchanged_iff.mp hunchanged

/-- A list of visits reports no change exactly where there is none to make. -/
theorem visitList_unchanged_iff (ids : List kb.Id) (board : Board kb.size) :
    (kb.visitList ids board).2 = false ↔ ∀ id ∈ ids, kb.Met board id := by
  induction ids generalizing board with
  | nil => exact iff_of_true rfl nofun
  | cons id rest ih =>
    rw [visitList, Bool.or_eq_false_iff, visit_unchanged_iff, List.forall_mem_cons]
    refine and_congr_right fun hmet => ?_
    rw [(reports_visit board id).eq_of_unchanged (visit_unchanged_iff.mpr hmet)]
    exact ih board

theorem propagateOnce_unchanged_iff :
    (kb.propagateOnce board).2 = false ↔ ∀ id, kb.Met board id := by
  rw [propagateOnce, visitList_unchanged_iff]
  exact ⟨fun h id => h id (kb.mem_ids id), fun h id _ => h id⟩

theorem propagateOnce_eq_of_met (h : ∀ id, kb.Met board id) :
    kb.propagateOnce board = (board, false) :=
  (reports_visitList kb.ids board).eq_of_unchanged (propagateOnce_unchanged_iff.mpr h)

theorem propagate_eq_of_met (h : ∀ id, kb.Met board id) (cap : Nat) :
    kb.propagate (cap + 1) board = (board, ⟨1, false, true⟩) := by
  rw [propagate, propagateOnce_eq_of_met h]

end KnowledgeBase

end Consultation
