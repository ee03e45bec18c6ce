import Consultation.Proofs.Inference.Demand
import Consultation.Proofs.Inference.Justification
import Consultation.Proofs.Inference.Replay

namespace Consultation

namespace KnowledgeBase

variable {kb : KnowledgeBase} {board next : Board kb.size} {id other : kb.Id} {fact : Fact}
  {value answered : Truth} {event told : Event} {cap : Nat}

/-- A fact is contested where a rule that fired takes it to be proved although it was answered
    `unknown`, and the rules that conclude it, all resolved without firing, refute it. -/
structure Contested (kb : KnowledgeBase) (board : Board kb.size) (fact : Fact) : Prop where
  unknown : board.memory.finding fact = some .unknown
  premise : ∃ id, board.table.status id = .fired ∧ (kb.rule id).combinator = .all ∧
    fact ∈ (kb.rule id).conditions
  negative : ∀ id ∈ kb.concluding fact, (board.table.status id).isNegative = true
  refutable : kb.Refutable fact

/-- No fact is contested. -/
def Uncontested (kb : KnowledgeBase) (board : Board kb.size) : Prop :=
  ∀ fact, ¬ kb.Contested board fact

/-- A refutation takes all the rules that conclude the fact. -/
theorem Demands.refutes (h : kb.Demands board id fact .fails event) : kb.Refutable fact ∧
    ∀ other ∈ kb.concluding fact, (board.table.status other).isNegative = true := by
  cases h with
  | refute hcombinator hnegative =>
    exact ⟨⟨id, mem_concluding.mpr rfl, hcombinator⟩, hnegative⟩

/-- To contest a fact is to demand both values for it: no rule that concludes it fired, so only
    a promotion can stand against the refutation. -/
theorem contested_iff : kb.Contested board fact ↔
    (∃ id event, kb.Demands board id fact .holds event) ∧
      ∃ id event, kb.Demands board id fact .fails event := by
  constructor
  · rintro ⟨hunknown, ⟨id, hfired, hcombinator, hmem⟩, hnegative, other, hother, hneeds⟩
    obtain rfl := mem_concluding.mp hother
    have hanswer : board.memory.finding (kb.rule other).action ≠ some .fails := by
      rw [hunknown]
      nofun
    exact ⟨⟨id, _, .promote hfired hcombinator _ hmem hunknown⟩,
      other, _, .refute hneeds hnegative hanswer⟩
  · rintro ⟨⟨id, event, hproof⟩, other, told, hrefutation⟩
    obtain ⟨hrefutable, hnegative⟩ := hrefutation.refutes
    cases hproof with
    | derive hfired =>
      have hid := hnegative id (mem_concluding.mpr rfl)
      rw [hfired] at hid
      cases hid
    | promote hfired hcombinator _ hmem hunknown =>
      exact ⟨hunknown, ⟨id, hfired, hcombinator, hmem⟩, hnegative, hrefutable⟩

theorem Contested.congr (h : kb.Contested board fact)
    (hstatus : ∀ query, next.table.status query = board.table.status query)
    (hfinding : ∀ query, next.memory.finding query = board.memory.finding query) :
    kb.Contested next fact := by
  obtain ⟨⟨id, event, hproof⟩, other, told, hrefutation⟩ := contested_iff.mp h
  exact contested_iff.mpr ⟨⟨id, event, hproof.congr hstatus hfinding⟩,
    other, told, hrefutation.congr hstatus hfinding⟩

namespace Uncontested

variable {result : Board kb.size × Bool}

/-- Where no fact is contested, all that is demanded for a fact is one value. -/
theorem value_eq (h : kb.Uncontested board) (hone : kb.Demands board id fact value event)
    (hother : kb.Demands board other fact answered told) : answered = value := by
  rcases hone.value_cases with rfl | rfl <;> rcases hother.value_cases with rfl | rfl
  · rfl
  · exact absurd (contested_iff.mpr ⟨⟨id, event, hone⟩, other, told, hother⟩) (h fact)
  · exact absurd (contested_iff.mpr ⟨⟨other, told, hother⟩, id, event, hone⟩) (h fact)
  · rfl

theorem congr (h : kb.Uncontested board)
    (hstatus : ∀ query, next.table.status query = board.table.status query)
    (hfinding : ∀ query, next.memory.finding query = board.memory.finding query) :
    kb.Uncontested next := fun fact hfact =>
  h fact (hfact.congr (fun query => (hstatus query).symm) fun query => (hfinding query).symm)

theorem infer (h : kb.Uncontested board) (fact : Fact) (value : Truth) (event : Event) :
    kb.Uncontested (kb.infer board fact value event) :=
  h.congr (status_infer board fact value event) fun _ => rfl

/-- What was met stays met, whatever is deduced next. -/
theorem met_infer (h : kb.Uncontested board) (hdeduces : kb.Deduces board fact value event)
    (hmet : kb.Met board id) : kb.Met (kb.infer board fact value event) id := by
  intro query answered told hdemand
  have hbefore : kb.Demands board id query answered told :=
    hdemand.congr (fun id => (status_infer board fact value event id).symm) fun _ => rfl
  obtain ⟨other, hother⟩ := hdeduces.demanded
  rw [memory_infer, Memory.hypothesis_putHypothesis]
  split
  · next heq =>
    subst heq
    exact congrArg some (h.value_eq hbefore hother)
  · exact hmet query answered told hbefore

theorem met_of_reports (h : kb.Uncontested board) (hreports : kb.Reports board result)
    (hmet : kb.Met board id) : kb.Met result.1 id := by
  obtain ⟨final, changed⟩ := result
  obtain ⟨events, hevents : kb.DeducesAll board events final, -⟩ := hreports
  change kb.Met final id
  induction hevents with
  | nil => exact hmet
  | cons hdeduces _ ih => exact ih (h.infer _ _ _) (h.met_infer hdeduces hmet)

theorem of_reports (h : kb.Uncontested board) (hreports : kb.Reports board result) :
    kb.Uncontested result.1 := by
  obtain ⟨_, hevents, -⟩ := hreports
  exact h.congr hevents.status_eq hevents.finding_eq

end Uncontested

theorem Uncontested.met_visitList (h : kb.Uncontested board) (ids : List kb.Id)
    (hid : id ∈ ids ∨ kb.Met board id) : kb.Met (kb.visitList ids board).1 id := by
  induction ids generalizing board with
  | nil => exact hid.resolve_left List.not_mem_nil
  | cons first rest ih =>
    have hreports := reports_visit board first
    apply ih (h.of_reports hreports)
    rcases hid with hmem | hmet
    · rcases List.mem_cons.mp hmem with rfl | hrest
      · exact .inr (met_visit board id)
      · exact .inl hrest
    · exact .inr (h.met_of_reports hreports hmet)

/-- One round leaves nothing to change. -/
theorem Uncontested.met_propagateOnce (h : kb.Uncontested board) (id : kb.Id) :
    kb.Met (kb.propagateOnce board).1 id :=
  h.met_visitList kb.ids (.inl (kb.mem_ids id))

/-- Propagation that is allowed a round takes one that writes, if there is anything to write,
    and one more to see that nothing is left. -/
theorem Uncontested.propagate_succ (h : kb.Uncontested board) (cap : Nat) :
    kb.propagate (cap + 1) board =
      if (kb.propagateOnce board).2 then
        ((kb.propagateOnce board).1, if cap = 0 then ⟨1, true, false⟩ else ⟨2, true, true⟩)
      else (board, ⟨1, false, true⟩) := by
  rw [propagate]
  split
  · next heq =>
    have hunchanged := (reports_visitList kb.ids board).eq_of_unchanged (congrArg Prod.snd heq)
    rw [← propagateOnce, heq] at hunchanged
    cases hunchanged
    rw [heq]
    rfl
  · next once heq =>
    have hmet : ∀ id, kb.Met once id := by
      have hround := h.met_propagateOnce
      rwa [heq] at hround
    rw [heq]
    cases cap with
    | zero => rfl
    | succ cap => simp [propagate, propagateOnce_eq_of_met hmet]

/-- Two rounds are enough for a propagation: one to derive whatever is left, and one to see that
    nothing is left any more. -/
theorem Uncontested.propagate_reaches (h : kb.Uncontested board) (hcap : 2 ≤ cap) :
    (kb.propagate cap board).2.reachedFixpoint = true ∧
      (kb.propagate cap board).2.iterations ≤ 2 := by
  obtain ⟨cap, rfl⟩ := Nat.exists_eq_add_of_le' hcap
  rw [h.propagate_succ]
  split
  · exact ⟨rfl, Nat.le_refl 2⟩
  · exact ⟨rfl, Nat.le_succ 1⟩

theorem Uncontested.met_propagate (h : kb.Uncontested board) (cap : Nat) (id : kb.Id) :
    kb.Met (kb.propagate (cap + 1) board).1 id := by
  rw [h.propagate_succ]
  split
  · exact h.met_propagateOnce id
  · next hnot => exact propagateOnce_unchanged_iff.mp (by simpa using hnot) id

/-- A round that sets out with a contested fact cannot be the last one: no hypothesis meets both
    demands. -/
theorem Contested.exists_round (h : kb.Contested board fact) :
    ∃ next, kb.propagateOnce board = (next, true) ∧ kb.Contested next fact := by
  obtain ⟨⟨id, event, hproof⟩, other, told, hrefutation⟩ := contested_iff.mp h
  have hchanged : (kb.propagateOnce board).2 = true := by
    by_contra hnot
    have hmet := propagateOnce_unchanged_iff.mp (by simpa using hnot)
    have hproved := hmet id fact .holds event hproof
    rw [hmet other fact .fails told hrefutation] at hproved
    cases hproved
  obtain ⟨_, hevents, -⟩ := reports_visitList kb.ids board
  exact ⟨_, Prod.ext rfl hchanged, h.congr hevents.status_eq hevents.finding_eq⟩

variable (kb) in
/-- The boards from which the rounds of a propagation set out, in turn. -/
def roundStarts : Nat → Board kb.size → List (Board kb.size)
  | 0, _ => []
  | cap + 1, board =>
    match kb.propagateOnce board with
    | (_, false) => [board]
    | (next, true) => board :: roundStarts cap next

theorem length_roundStarts (cap : Nat) (board : Board kb.size) :
    (kb.roundStarts cap board).length = (kb.propagate cap board).2.iterations := by
  induction cap generalizing board with
  | zero => rfl
  | succ cap ih =>
    rw [roundStarts, propagate]
    rcases kb.propagateOnce board with ⟨next, changed⟩
    cases changed with
    | false => rfl
    | true => exact congrArg (· + 1) (ih next)

namespace Contested

theorem propagate_eq (h : kb.Contested board fact) (cap : Nat) :
    (kb.propagate (cap + 1) board).2 = ⟨cap + 1, true, false⟩ := by
  induction cap generalizing board with
  | zero =>
    obtain ⟨next, hround, -⟩ := h.exists_round
    rw [propagate, hround]
    rfl
  | succ cap ih =>
    obtain ⟨next, hround, hnext⟩ := h.exists_round
    rw [propagate, hround]
    simp only [ih hnext]

theorem of_mem_roundStarts (h : kb.Contested board fact) {start : Board kb.size}
    (hmem : start ∈ kb.roundStarts cap board) : kb.Contested start fact := by
  induction cap generalizing board with
  | zero => cases hmem
  | succ cap ih =>
    obtain ⟨next, hround, hnext⟩ := h.exists_round
    rw [roundStarts, hround] at hmem
    rcases List.mem_cons.mp hmem with rfl | hrest
    · exact h
    · exact ih hnext hrest

end Contested

/-- Exactly when propagation settles, whatever the statuses and the values that it sets out from.
    Where no fact is contested, two rounds are enough to reach a fixpoint, and propagating again
    changes nothing. Where one is, no number of rounds is enough: every round derives something
    else than was derived before, and only the cap ends the propagation. -/
theorem propagate_settles (kb : KnowledgeBase) (board : Board kb.size) (cap : Nat)
    (hcap : 2 ≤ cap) :
    let final := (kb.propagate cap board).1
    let outcome := (kb.propagate cap board).2
    (kb.Uncontested board →
      outcome.reachedFixpoint = true ∧ outcome.iterations ≤ 2 ∧
      ∀ more, (kb.propagate more final).1 = final ∧
        (kb.propagate more final).2.changed = false) ∧
    ((∃ fact, kb.Contested board fact) →
      outcome = ⟨cap, true, false⟩ ∧ (kb.roundStarts cap board).length = cap ∧
      ∀ start ∈ kb.roundStarts cap board, (kb.propagateOnce start).2 = true ∧
        ∃ events, events ≠ [] ∧ kb.DeducesAll start events (kb.propagateOnce start).1) := by
  intro final outcome
  refine ⟨fun h => ?_, ?_⟩
  · obtain ⟨hfixpoint, hiterations⟩ := h.propagate_reaches hcap
    refine ⟨hfixpoint, hiterations, fun more => ?_⟩
    obtain ⟨cap, rfl⟩ := Nat.exists_eq_add_of_le' hcap
    have hmet : ∀ id, kb.Met final id := h.met_propagate (cap + 1)
    cases more with
    | zero => exact ⟨rfl, rfl⟩
    | succ more =>
      rw [propagate_eq_of_met hmet]
      exact ⟨rfl, rfl⟩
  · rintro ⟨fact, h⟩
    obtain ⟨cap, rfl⟩ := Nat.exists_eq_add_of_le' hcap
    have houtcome : outcome = ⟨cap + 2, true, false⟩ := h.propagate_eq (cap + 1)
    refine ⟨houtcome, ?_, fun start hstart => ?_⟩
    · exact (length_roundStarts _ _).trans (congrArg Propagation.iterations houtcome)
    · obtain ⟨next, hround, -⟩ := (h.of_mem_roundStarts hstart).exists_round
      have hchanged : (kb.propagateOnce start).2 = true := congrArg Prod.snd hround
      obtain ⟨events, hevents, hnonempty⟩ := reports_visitList kb.ids start
      exact ⟨hchanged, events, hnonempty.mp hchanged, hevents⟩

theorem premised_propagate_settles :
    let settling := premised.propagate 7 (premisedBoard .pending)
    let contesting := premised.propagate 7 (premisedBoard .blocked)
    settling.2.reachedFixpoint = true ∧ settling.2.iterations ≤ 2 ∧
      (premised.propagate 7 settling.1).1 = settling.1 ∧
      premised.Contested (premisedBoard .blocked) "p" ∧ contesting.2 = ⟨7, true, false⟩ := by
  intro settling contesting
  have huncontested : premised.Uncontested (premisedBoard .pending) := by
    rintro fact ⟨hunknown, -, hnegative, -⟩
    obtain rfl : fact = "p" := by
      by_contra hne
      change (Memory.empty.putFinding "p" .unknown).finding fact = _ at hunknown
      rw [Memory.finding_putFinding, if_neg hne] at hunknown
      cases hunknown
    have hconcluding := hnegative ⟨1, by decide⟩ (by decide +kernel)
    cases hconcluding
  have hcontested : premised.Contested (premisedBoard .blocked) "p" :=
    ⟨by decide +kernel, ⟨⟨0, by decide⟩, rfl, rfl, by decide⟩, by decide +kernel, by decide +kernel⟩
  obtain ⟨hsettles, -⟩ := propagate_settles premised (premisedBoard .pending) 7 (by decide)
  obtain ⟨-, hcontests⟩ := propagate_settles premised (premisedBoard .blocked) 7 (by decide)
  obtain ⟨hfixpoint, hiterations, hagain⟩ := hsettles huncontested
  exact ⟨hfixpoint, hiterations, (hagain 7).1, hcontested, (hcontests ⟨"p", hcontested⟩).1⟩

end KnowledgeBase

end Consultation
