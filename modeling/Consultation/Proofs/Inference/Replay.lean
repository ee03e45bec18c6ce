import Consultation.Proofs.Inference.Deduction
import Mathlib.Data.List.Nodup

namespace Consultation

/-- The value that an event tells was derived, with its fact. -/
def Event.deduced? : Event → Option (Fact × Truth)
  | .derived fact _ | .premisePromoted fact _ => some (fact, .holds)
  | .refuted fact _ => some (fact, .fails)
  | .started _ | .seeded _ _ | .answered _ _ | .answerNormalized _ _ | .rolledBack _ _
  | .capReached _ | .completed _ _ => none

/-- The derived values after an event, where those before it are given. The event has to tell of
    a derived value, and of another one than the fact had. -/
def Event.rederive? (hypotheses : FactMap) (event : Event) : Option FactMap :=
  event.deduced?.bind fun (fact, value) =>
    if hypotheses.get? fact = some value then none else some (hypotheses.set fact value)

/-- The facts that some events tell a derived value of. -/
def Log.deducedFacts (events : Log) : List Fact :=
  events.filterMap fun event => event.deduced?.map (·.1)

namespace KnowledgeBase

variable {kb : KnowledgeBase} {board final : Board kb.size} {fact : Fact} {value : Truth}
  {event : Event} {events : Log}

namespace Deduces

theorem deduced?_eq (h : kb.Deduces board fact value event) :
    event.deduced? = some (fact, value) := by
  obtain ⟨id, hdemand⟩ := h.demanded
  cases hdemand <;> rfl

theorem rederive?_eq (h : kb.Deduces board fact value event) :
    event.rederive? board.memory.hypotheses =
      some (kb.infer board fact value event).memory.hypotheses := by
  rw [Event.rederive?, h.deduced?_eq]
  exact if_neg h.new

theorem deducedFacts_cons (h : kb.Deduces board fact value event) :
    Log.deducedFacts (event :: events) = fact :: events.deducedFacts := by
  simp [Log.deducedFacts, h.deduced?_eq]

end Deduces

namespace DeducesAll

theorem replay_eq (h : kb.DeducesAll board events final) :
    events.foldlM Event.rederive? board.memory.hypotheses = some final.memory.hypotheses := by
  induction h with
  | nil => rfl
  | cons h _ ih =>
    rw [List.foldlM_cons, h.rederive?_eq]
    exact ih

/-- A fact that no event names keeps what was derived about it. -/
theorem hypothesis_eq (h : kb.DeducesAll board events final) (hnot : fact ∉ events.deducedFacts) :
    final.memory.hypothesis fact = board.memory.hypothesis fact := by
  induction h with
  | nil => rfl
  | cons h _ ih =>
    rw [h.deducedFacts_cons, List.mem_cons, not_or] at hnot
    rw [ih hnot.2, memory_infer, Memory.hypothesis_putHypothesis, if_neg hnot.1]

/-- The notes on the facts that the events name are brought up to what is derived about them in
    the end, however often that changed on the way. -/
theorem checked_eq (h : kb.DeducesAll board events final) (hnotes : kb.NotesOwn board.table)
    (id : kb.Id) :
    (final.table.get id).checked = (board.table.get id).checked.map fun entry =>
      if entry.1 ∈ events.deducedFacts then (entry.1, final.memory.hypothesis entry.1)
      else entry := by
  induction h with
  | nil => exact (List.map_id _).symm
  | @cons board final fact value event events h hrest ih =>
    have hfirst := hnotes.checked_noteCondition fact value id
    rw [ih (hnotes.noteCondition fact value)]
    change List.map _ ((kb.noteCondition board.table fact value).get id).checked = _
    rw [hfirst, List.map_map]
    refine List.map_congr_left fun entry _ => ?_
    simp only [Function.comp_apply, h.deducedFacts_cons, List.mem_cons]
    by_cases hfact : entry.1 = fact
    · by_cases hlater : fact ∈ events.deducedFacts
      · simp [hfact, hlater]
      · -- The note made now is the last one on the fact.
        have hkept := hrest.hypothesis_eq hlater
        simp [hfact, hlater, hkept]
    · simp [hfact]

end DeducesAll

/-- Propagation makes no change without an event, and enters no event without a change. Whatever
    the statuses and the values that it sets out from, it leaves the answers and the statuses
    alone and only adds to the journal. What it adds, replayed on what was derived before, gives
    what is derived after it, each event changing a value; there is such an event exactly where
    it reports a change; and the notes of the rules follow for the facts that the events name,
    and for no others. -/
theorem propagate_accounted (kb : KnowledgeBase) (cap : Nat) (board : Board kb.size)
    (hnotes : kb.NotesOwn board.table) :
    let final := (kb.propagate cap board).1
    let outcome := (kb.propagate cap board).2
    final.memory.findings = board.memory.findings ∧
    final.memory.history = board.memory.history ∧
    (∀ id, final.table.status id = board.table.status id) ∧
    ∃ events : Log, final.log = board.log ++ events ∧
      events.foldlM Event.rederive? board.memory.hypotheses = some final.memory.hypotheses ∧
      (outcome.changed = true ↔ events ≠ []) ∧
      ∀ id, (final.table.get id).checked = (board.table.get id).checked.map fun entry =>
        if entry.1 ∈ events.deducedFacts then (entry.1, final.memory.hypothesis entry.1)
        else entry := by
  obtain ⟨events, hevents, hchanged⟩ := reports_propagate cap board
  have hfindings := congrArg Memory.findings hevents.answers_eq
  have hhistory := congrArg Memory.history hevents.answers_eq
  exact ⟨hfindings, hhistory, hevents.status_eq, events, hevents.log_eq, hevents.replay_eq,
    hchanged, hevents.checked_eq hnotes⟩

/-- A goal over a fact that another rule concludes. -/
def premised : KnowledgeBase where
  rules := [(Rule.needsAll ["p"] "g").asGoal, Rule.needsAll ["q"] "p"]
  categories := [""]
  wellFormed := by
    simp [Rule.wellFormed_iff, Rule.needsAll, Rule.asGoal, Text.IsBlankText, Text.isBlank]
  categories_nodup := List.nodup_singleton _
  category_mem := by decide

/-- The goal fired on a fact that was answered `unknown`; the rule that concludes the fact may
    have any status. -/
def premisedBoard (status : RuleStatus) : Board premised.size where
  memory := Memory.empty.putFinding "p" .unknown
  table := ⟨#v[⟨.fired, [("p", some .unknown)]⟩, ⟨status, [("q", none)]⟩]⟩
  log := [.started 1]

theorem premised_propagate_accounted :
    let board := premisedBoard .blocked
    let final := (premised.propagate 2 board).1
    premised.NotesOwn board.table ∧
      (premised.propagate 2 board).2.changed = true ∧
      ∃ events : Log, events = [.derived "g" "g", .premisePromoted "p" "g", .refuted "p" "p",
          .premisePromoted "p" "g", .refuted "p" "p"] ∧
        final.log = board.log ++ events ∧
        events.foldlM Event.rederive? board.memory.hypotheses = some final.memory.hypotheses ∧
        (final.table.get ⟨0, by decide⟩).checked = [("p", some .fails)] := by
  intro board final
  have hnotes : premised.NotesOwn board.table := by unfold NotesOwn; decide +kernel
  obtain ⟨-, -, -, events, hlog, hreplay, hchanged, hchecked⟩ :=
    propagate_accounted premised 2 board hnotes
  have hevents : events = [.derived "g" "g", .premisePromoted "p" "g", .refuted "p" "p",
      .premisePromoted "p" "g", .refuted "p" "p"] := by
    have hfinal : final.log = board.log ++ [.derived "g" "g", .premisePromoted "p" "g",
        .refuted "p" "p", .premisePromoted "p" "g", .refuted "p" "p"] := by decide +kernel
    exact List.append_cancel_left (hlog.symm.trans hfinal)
  have hfirst := hchecked ⟨0, by decide⟩
  subst hevents
  exact ⟨hnotes, hchanged.mpr nofun, _, rfl, hlog, hreplay, hfirst.trans (by decide +kernel)⟩

end KnowledgeBase

end Consultation
