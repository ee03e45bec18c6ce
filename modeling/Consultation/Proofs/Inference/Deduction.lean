import Consultation.Inference.Propagation
import Consultation.Proofs.Memory

namespace Consultation

namespace KnowledgeBase

variable {kb : KnowledgeBase} {board final : Board kb.size} {fact : Fact} {value : Truth}
  {event : Event} {events : Log}

@[simp]
theorem status_noteCondition (table : RuleTable kb.size) (fact : Fact) (value : Truth)
    (id : kb.Id) : (kb.noteCondition table fact value).status id = table.status id := by
  rw [noteCondition, RuleTable.status, RuleTable.get_updateWhere]
  split <;> rfl

@[simp]
theorem status_infer (board : Board kb.size) (fact : Fact) (value : Truth) (event : Event)
    (id : kb.Id) : (kb.infer board fact value event).table.status id = board.table.status id :=
  status_noteCondition board.table fact value id

@[simp]
theorem memory_infer (board : Board kb.size) (fact : Fact) (value : Truth) (event : Event) :
    (kb.infer board fact value event).memory = board.memory.putHypothesis fact value := rfl

@[simp]
theorem log_infer (board : Board kb.size) (fact : Fact) (value : Truth) (event : Event) :
    (kb.infer board fact value event).log = board.log ++ [event] := rfl

/-- Rules have notes on their own conditions only. A rule that was never evaluated has none. -/
def NotesOwn (kb : KnowledgeBase) (table : RuleTable kb.size) : Prop :=
  ∀ id, ∀ entry ∈ (table.get id).checked, entry.1 ∈ (kb.rule id).conditions

/-- Where rules note their own conditions only, a new value reaches every note on its fact. -/
theorem NotesOwn.checked_noteCondition {table : RuleTable kb.size} (h : kb.NotesOwn table)
    (fact : Fact) (value : Truth) (id : kb.Id) :
    ((kb.noteCondition table fact value).get id).checked =
      (table.get id).checked.map fun entry =>
        if entry.1 = fact then (entry.1, some value) else entry := by
  rw [noteCondition, RuleTable.get_updateWhere]
  split
  · rfl
  · next hnot =>
    have hother : fact ∉ (kb.rule id).conditions := by simpa using hnot
    have hkept : ∀ entry ∈ (table.get id).checked,
        (if entry.1 = fact then (entry.1, some value) else entry) = entry := by
      intro entry hentry
      refine if_neg ?_
      rintro rfl
      exact hother (h id entry hentry)
    exact ((List.map_congr_left hkept).trans (List.map_id _)).symm

theorem NotesOwn.noteCondition {table : RuleTable kb.size} (h : kb.NotesOwn table)
    (fact : Fact) (value : Truth) : kb.NotesOwn (kb.noteCondition table fact value) := by
  intro id entry hentry
  rw [h.checked_noteCondition fact value id] at hentry
  obtain ⟨earlier, hearlier, rfl⟩ := List.mem_map.mp hentry
  rw [apply_ite Prod.fst, ite_self]
  exact h id earlier hearlier

/-- The values that the status of a rule demands to be derived, each with its fact and the event
    that is to tell of it. Nothing is demanded that was answered already. -/
inductive Demands (kb : KnowledgeBase) (board : Board kb.size) (id : kb.Id) :
    Fact → Truth → Event → Prop where
  | derive (hfired : board.table.status id = .fired)
      (hfinding : board.memory.finding (kb.rule id).action ≠ some .holds) :
      Demands kb board id (kb.rule id).action .holds
        (.derived (kb.rule id).action (kb.rule id).action)
  | promote (hfired : board.table.status id = .fired)
      (hcombinator : (kb.rule id).combinator = .all) (condition : Fact)
      (hmem : condition ∈ (kb.rule id).conditions)
      (hfinding : board.memory.finding condition = some .unknown) :
      Demands kb board id condition .holds (.premisePromoted condition (kb.rule id).action)
  | refute (hcombinator : (kb.rule id).combinator = .all)
      (hnegative : ∀ other ∈ kb.concluding (kb.rule id).action,
        (board.table.status other).isNegative = true)
      (hfinding : board.memory.finding (kb.rule id).action ≠ some .fails) :
      Demands kb board id (kb.rule id).action .fails
        (.refuted (kb.rule id).action (kb.rule id).action)

/-- A value is deduced when some rule demands it and something else, or nothing, was derived
    about the fact before. -/
structure Deduces (kb : KnowledgeBase) (board : Board kb.size) (fact : Fact) (value : Truth)
    (event : Event) : Prop where
  demanded : ∃ id, kb.Demands board id fact value event
  new : board.memory.hypothesis fact ≠ some value

theorem Demands.finding_ne {id : kb.Id} (h : kb.Demands board id fact value event) :
    board.memory.finding fact ≠ some value := by
  cases h with
  | derive _ hfinding => exact hfinding
  | promote _ _ _ _ hfinding =>
    rw [hfinding]
    nofun
  | refute _ _ hfinding => exact hfinding

theorem Deduces.not_records (h : kb.Deduces board fact value event) :
    ¬ board.memory.Records fact value := by
  obtain ⟨_, hdemand⟩ := h.demanded
  exact not_or.mpr ⟨hdemand.finding_ne, h.new⟩

/-- Any number of deductions one after the other, each recorded, with the events in turn. -/
inductive DeducesAll (kb : KnowledgeBase) : Board kb.size → Log → Board kb.size → Prop where
  | nil (board : Board kb.size) : DeducesAll kb board [] board
  | cons {board final : Board kb.size} {fact : Fact} {value : Truth} {event : Event}
      {events : Log} (h : kb.Deduces board fact value event)
      (hrest : DeducesAll kb (kb.infer board fact value event) events final) :
      DeducesAll kb board (event :: events) final

namespace DeducesAll

theorem append {middle : Board kb.size} {later : Log}
    (h : kb.DeducesAll board events middle) (hlater : kb.DeducesAll middle later final) :
    kb.DeducesAll board (events ++ later) final := by
  induction h with
  | nil => exact hlater
  | cons h _ ih => exact .cons h (ih hlater)

theorem answers_eq (h : kb.DeducesAll board events final) :
    final.memory.answers = board.memory.answers := by
  induction h with
  | nil => rfl
  | cons _ _ ih => exact ih

theorem finding_eq (h : kb.DeducesAll board events final) (fact : Fact) :
    final.memory.finding fact = board.memory.finding fact :=
  Memory.finding_eq_of_answers_eq h.answers_eq fact

theorem status_eq (h : kb.DeducesAll board events final) (id : kb.Id) :
    final.table.status id = board.table.status id := by
  induction h with
  | nil => rfl
  | cons _ _ ih => rw [ih, status_infer]

theorem log_eq (h : kb.DeducesAll board events final) : final.log = board.log ++ events := by
  induction h with
  | nil => rw [List.append_nil]
  | cons _ _ ih => rw [ih, log_infer, List.append_assoc, List.singleton_append]

end DeducesAll

/-- A result comes about by deductions, and reports a change exactly where there are any. -/
def Reports (kb : KnowledgeBase) (board : Board kb.size) (result : Board kb.size × Bool) : Prop :=
  ∃ events, kb.DeducesAll board events result.1 ∧ (result.2 = true ↔ events ≠ [])

namespace Reports

theorem none (board : Board kb.size) : kb.Reports board (board, false) :=
  ⟨[], .nil board, by simp⟩

theorem single (h : kb.Deduces board fact value event) :
    kb.Reports board (kb.infer board fact value event, true) :=
  ⟨[event], .cons h (.nil _), by simp⟩

theorem append {result later : Board kb.size × Bool} (h : kb.Reports board result)
    (hlater : kb.Reports result.1 later) : kb.Reports board (later.1, result.2 || later.2) := by
  obtain ⟨events, hevents, hchanged⟩ := h
  obtain ⟨others, hothers, hchanges⟩ := hlater
  refine ⟨events ++ others, hevents.append hothers, ?_⟩
  rw [Bool.or_eq_true, hchanged, hchanges, ← not_and_or, ← List.append_eq_nil_iff]

/-- Where no change is reported, there is none. -/
theorem eq_of_unchanged {result : Board kb.size × Bool} (h : kb.Reports board result)
    (hunchanged : result.2 = false) : result = (board, false) := by
  obtain ⟨final, changed⟩ := result
  obtain rfl : changed = false := hunchanged
  obtain ⟨events, hevents, hchanged⟩ := h
  obtain rfl : events = [] := by simpa using hchanged
  cases hevents
  rfl

end Reports

theorem reports_deriveAction {id : kb.Id} (hfired : board.table.status id = .fired) :
    kb.Reports board (kb.deriveAction board id) ∧
      (kb.deriveAction board id).1.table.status id = .fired := by
  unfold deriveAction
  simp only
  split
  · next h =>
    have hdemand : kb.Demands board id _ .holds _ :=
      .derive hfired fun hfinding => Memory.not_records_iff.mpr h (.inl hfinding)
    exact ⟨.single ⟨⟨id, hdemand⟩, h.2⟩, by simpa using hfired⟩
  · exact ⟨.none board, hfired⟩

theorem reports_promotePremises {id : kb.Id}
    (hcombinator : (kb.rule id).combinator = .all) (conditions : List Fact)
    (hsubset : conditions ⊆ (kb.rule id).conditions) (board : Board kb.size)
    (hfired : board.table.status id = .fired) :
    kb.Reports board (kb.promotePremises (kb.rule id).action conditions board) := by
  induction conditions generalizing board with
  | nil => exact .none board
  | cons condition rest ih =>
    obtain ⟨hmem, hrest⟩ := List.cons_subset.mp hsubset
    rw [promotePremises]
    split
    · next h =>
      have hdemand : kb.Demands board id condition .holds _ :=
        .promote hfired hcombinator condition hmem h.1
      exact (Reports.single ⟨⟨id, hdemand⟩, h.2⟩).append (ih hrest _ (by simpa using hfired))
    · exact ih hrest board hfired

private theorem reports_assertFired {id : kb.Id} (hfired : board.table.status id = .fired) :
    kb.Reports board (kb.assertFired board id) := by
  obtain ⟨hderived, hstill⟩ := reports_deriveAction hfired
  unfold assertFired
  cases hcombinator : (kb.rule id).combinator with
  | any =>
    simp only [hcombinator]
    exact hderived
  | all =>
    simp only [hcombinator]
    exact hderived.append (reports_promotePremises hcombinator _ (List.Subset.refl _) _ hstill)

private theorem reports_refuteFailed (board : Board kb.size) (id : kb.Id) :
    kb.Reports board (kb.refuteFailed board id) := by
  unfold refuteFailed
  simp only
  split
  · next h =>
    obtain ⟨hcombinator, hnegative, hrecorded⟩ := h
    have hdemand : kb.Demands board id _ .fails _ := .refute hcombinator hnegative
      fun hfinding => Memory.not_records_iff.mpr hrecorded (.inl hfinding)
    exact .single ⟨⟨id, hdemand⟩, hrecorded.2⟩
  · exact .none board

theorem reports_visit (board : Board kb.size) (id : kb.Id) :
    kb.Reports board (kb.visit board id) := by
  unfold visit
  cases hstatus : board.table.status id with
  | fired => exact reports_assertFired hstatus
  | blocked | uncertain => exact reports_refuteFailed board id
  | pending | evaluating => exact .none board

theorem reports_visitList (ids : List kb.Id) (board : Board kb.size) :
    kb.Reports board (kb.visitList ids board) := by
  induction ids generalizing board with
  | nil => exact .none board
  | cons id rest ih => exact (reports_visit board id).append (ih _)

theorem reports_propagate (cap : Nat) (board : Board kb.size) :
    kb.Reports board ((kb.propagate cap board).1, (kb.propagate cap board).2.changed) := by
  induction cap generalizing board with
  | zero => exact .none board
  | succ cap ih =>
    have hround := reports_visitList kb.ids board
    rw [propagate, propagateOnce]
    split
    · next heq => rwa [heq] at hround
    · next heq =>
      rw [heq] at hround
      exact hround.append (ih _)

/-- Propagation leaves every status as it was. -/
theorem status_propagate (cap : Nat) (board : Board kb.size) (id : kb.Id) :
    (kb.propagate cap board).1.table.status id = board.table.status id := by
  obtain ⟨_, hevents, -⟩ := reports_propagate cap board
  exact hevents.status_eq id

end KnowledgeBase

end Consultation
