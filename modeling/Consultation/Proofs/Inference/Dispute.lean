import Consultation.Proofs.Inference.Convergence

namespace Consultation

namespace KnowledgeBase

variable {kb : KnowledgeBase} {board next : Board kb.size} {id : kb.Id}

/-- No answer is in dispute: a plain yes or no agrees with whatever the rules
    derived about the fact, and no rule fired on an answer `unknown` that the
    rules overrode. The second part matters only for rules whose action is a
    condition that could have been refuted before they fired. -/
structure Undisputed (kb : KnowledgeBase) (board : Board kb.size) : Prop where
  answers : ∀ fact value, board.memory.finding fact = some value → value ≠ .unknown →
    ∀ derived, board.memory.hypothesis fact = some derived → derived = value
  premises : ∀ id, board.table.status id = .fired → kb.isCondition (kb.rule id).action = true →
    kb.Refutable (kb.rule id).action → ∀ condition ∈ (kb.rule id).conditions,
      board.memory.finding condition = some .unknown →
      board.memory.hypothesis condition ≠ some .holds

/-- A dispute is never resolved by inferring more. -/
theorem Undisputed.of_infers (h : kb.Undisputed next) (hboard : kb.Justified board)
    (hstep : kb.Infers board next) : kb.Undisputed board := by
  constructor
  · intro fact value hfinding hdefinite derived hhypothesis
    have hnextFinding : next.memory.finding fact = some value :=
      (hstep.finding_eq fact).trans hfinding
    have hagree := h.answers fact value hnextFinding hdefinite
    cases hboard.writes hstep fact with
    | kept hkept => exact hagree derived (hkept.trans hhypothesis)
    | derived _ _ _ _ hnew hwritten =>
      -- What was answered yes is not derived again.
      have hvalue := hagree .holds hwritten
      exact absurd (.inl (hvalue ▸ hfinding)) hnew
    | refuted _ _ _ hnew _ hwritten =>
      have hvalue := hagree .fails hwritten
      exact absurd (.inl (hvalue ▸ hfinding)) hnew
  · intro id hfired hcondition hrefutable condition hmem hfinding hholds
    have hstill : next.table.status id = .fired := by
      rw [hstep.status_eq_of_isTerminal (by rw [hfired]; rfl), hfired]
    exact h.premises id hstill hcondition hrefutable condition hmem
      ((hstep.finding_eq condition).trans hfinding) (hboard.hypothesis_holds hstep hholds)

theorem Undisputed.of_mark {fact : Fact}
    (h : kb.Undisputed { board with table := kb.markEvaluating board.table fact }) :
    kb.Undisputed board :=
  ⟨h.answers, fun id hfired => h.premises id ((status_markEvaluating_of_isResolved rfl).mpr hfired)⟩

/-- Nor by answering more. -/
theorem Undisputed.of_answer {fact : Fact} {value : Truth}
    (h : kb.Undisputed { board with memory := board.memory.putFinding fact value })
    (hnew : board.memory.finding fact = none) : kb.Undisputed board := by
  constructor
  · intro query old hold
    exact h.answers query old (Memory.finding_putFinding_of_some hold value hnew)
  · intro id hfired hcondition hrefutable condition hmem hfinding
    exact h.premises id hfired hcondition hrefutable condition hmem
      (Memory.finding_putFinding_of_some hfinding value hnew)

/-- Where nothing is in dispute, a definite value that was recorded is the one
    that the rules see. -/
theorem Undisputed.effectiveValue_eq (h : kb.Undisputed board) (hboard : kb.Justified board)
    {fact : Fact} {value : Truth} (hdefinite : value ≠ .unknown)
    (hrecords : board.memory.Records fact value) :
    kb.effectiveValue board.memory fact = some value := by
  rw [hboard.effectiveValue_eq]
  rcases hrecords with hfinding | hhypothesis
  · cases hhypothesis : board.memory.hypothesis fact with
    | none => simpa using hfinding
    | some derived =>
      have hagree := h.answers fact value hfinding hdefinite derived hhypothesis
      simp [hagree]
  · simp [hhypothesis]

/-- The rules see `unknown` only where it was answered and nothing was derived. -/
theorem Justified.finding_of_effectiveValue (h : kb.Justified board) {fact : Fact}
    (hvalue : kb.effectiveValue board.memory fact = some .unknown) :
    board.memory.finding fact = some .unknown :=
  (Memory.records_of_effectiveValue hvalue).resolve_right (h.definite fact)

/-- The conditions that were answered `unknown` or fail keep the rule's body
    from being proved by anything but an override. -/
def Doubted (kb : KnowledgeBase) (memory : Memory) (id : kb.Id) : Prop :=
  (kb.rule id).BodyFails fun condition =>
    memory.finding condition = some .unknown ∨ kb.effectiveValue memory condition = some .fails

/-- A rule is decided `uncertain` on account of conditions that were answered
    `unknown`. -/
theorem Justified.doubted (h : kb.Justified board) {table : RuleTable kb.size}
    (hdecided : kb.decision board.memory table id = some .uncertain) :
    kb.Doubted board.memory id := by
  have hdecides := kb.decides board.memory table id
  rw [hdecided] at hdecides
  cases hdecides with
  | uncertain haffirmed _ hexhausted =>
    refine (Rule.bodyFails_not haffirmed).mono fun condition hmem hnot => ?_
    cases hvalue : kb.effectiveValue board.memory condition with
    | none => exact absurd hvalue (hexhausted condition hmem).1
    | some truth =>
      cases truth with
      | holds => exact absurd hvalue hnot
      | fails => exact .inr rfl
      | unknown => exact .inl (h.finding_of_effectiveValue hvalue)

/-- A doubted rule is affirmed only by overriding an answer `unknown`. -/
theorem Doubted.exists_overridden (h : kb.Doubted board.memory id)
    (haffirmed : kb.Affirmed board.memory id) :
    ∃ condition ∈ (kb.rule id).conditions, board.memory.finding condition = some .unknown ∧
      board.memory.hypothesis condition = some .holds := by
  obtain ⟨condition, hmem, hholds, hdoubt⟩ := Rule.BodyHolds.exists_of_bodyFails haffirmed h
  have hfinding : board.memory.finding condition = some .unknown := by
    rcases hdoubt with hfinding | hfails
    · exact hfinding
    · rw [hholds] at hfails
      cases hfails
  refine ⟨condition, hmem, hfinding, ?_⟩
  rcases Memory.records_of_effectiveValue hholds with hanswered | hhypothesis
  · rw [hfinding] at hanswered
    cases hanswered
  · exact hhypothesis

/-- The statuses and refutations of a board still agree with the values of the
    conditions that they were drawn from. -/
structure Coherent (kb : KnowledgeBase) (board : Board kb.size) : Prop where
  affirmed : ∀ id, board.table.status id = .fired → kb.Affirmed board.memory id
  denied : ∀ id, board.table.status id = .blocked → kb.Denied board.memory id
  doubted : ∀ id, board.table.status id = .uncertain → kb.Doubted board.memory id
  refuted : ∀ fact, kb.isCondition fact = true → board.memory.hypothesis fact = some .fails →
    ∀ id ∈ kb.concluding fact, (board.table.status id).isNegative = true

namespace Coherent

/-- A step leaves every definite value of a condition as it is, unless it brings
    an answer into dispute. -/
theorem effectiveValue_eq (h : kb.Coherent board) (hboard : kb.Justified board)
    (hnext : kb.Undisputed next) (hstep : kb.Infers board next) {fact : Fact}
    (hcondition : kb.isCondition fact = true) {value : Truth} (hdefinite : value ≠ .unknown)
    (hvalue : kb.effectiveValue board.memory fact = some value) :
    kb.effectiveValue next.memory fact = some value := by
  apply hnext.effectiveValue_eq (hboard.step hstep) hdefinite
  rcases Memory.records_of_effectiveValue hvalue with hfinding | hhypothesis
  · exact .inl ((hstep.finding_eq fact).trans hfinding)
  · cases hboard.writes hstep fact with
    | kept hkept => exact .inr (hkept.trans hhypothesis)
    | derived _ id hid hfired hnew hwritten =>
      cases value with
      | holds => exact absurd (.inr hhypothesis) hnew
      | unknown => exact absurd rfl hdefinite
      | fails =>
        -- A rule that fired is not negative, so the fact was not refuted.
        have hnegative := h.refuted fact hcondition hhypothesis id hid
        rw [hfired] at hnegative
        cases hnegative
    | refuted _ _ hnegative _ _ hwritten =>
      cases value with
      | holds => exact absurd hhypothesis (hboard.hypothesis_ne_holds hnegative)
      | unknown => exact absurd rfl hdefinite
      | fails => exact .inr hwritten

/-- A negative rule for a refuted condition stays negative. Only an `uncertain`
    rule is classified again, and it would have to fire on an overridden
    `unknown`. -/
theorem isNegative_step (h : kb.Coherent board) (hboard : kb.Justified board)
    (hnext : kb.Undisputed next) (hstep : kb.Infers board next) {fact : Fact}
    (hcondition : kb.isCondition fact = true) (hfails : board.memory.hypothesis fact = some .fails)
    {id : kb.Id} (hid : id ∈ kb.concluding fact) :
    (next.table.status id).isNegative = true := by
  have hnegative := h.refuted fact hcondition hfails id hid
  rcases hstep.status_cases id with hsame | ⟨hopen, hmemory, hdecided⟩
  · rw [hsame]
    exact hnegative
  · have huncertain : board.table.status id = .uncertain := by
      revert hopen hnegative
      cases board.table.status id <;> simp [RuleStatus.isTerminal, RuleStatus.isNegative]
    cases hstatus : next.table.status id with
    | blocked | uncertain => rfl
    | pending | evaluating =>
      have hresolved := isResolved_of_decision hdecided
      rw [hstatus] at hresolved
      cases hresolved
    | fired =>
      rw [hstatus] at hdecided
      obtain ⟨condition, hmem, hfinding, hholds⟩ :=
        (h.doubted id huncertain).exists_overridden (decision_eq_fired_iff.mp hdecided)
      rw [← hmemory] at hfinding hholds
      have haction := mem_concluding.mp hid
      subst haction
      have hrefutable := (hboard.fails _ hfails).1
      exact absurd hholds (hnext.premises id hstatus hcondition hrefutable condition hmem hfinding)

theorem step (h : kb.Coherent board) (hboard : kb.Justified board) (hnext : kb.Undisputed next)
    (hstep : kb.Infers board next) : kb.Coherent next := by
  have hvalue {id : kb.Id} {condition : Fact} (hmem : condition ∈ (kb.rule id).conditions)
      {value : Truth} (hdefinite : value ≠ .unknown)
      (hboardValue : kb.effectiveValue board.memory condition = some value) :=
    h.effectiveValue_eq hboard hnext hstep (isCondition_iff.mpr ⟨id, hmem⟩) hdefinite hboardValue
  refine ⟨fun id hfired => ?_, fun id hblocked => ?_, fun id huncertain => ?_,
    fun fact hcondition hfails other hother => ?_⟩
  · rcases hstep.status_cases id with hsame | ⟨-, hmemory, hdecided⟩
    · have haffirmed := h.affirmed id (hsame ▸ hfired)
      exact haffirmed.mono fun _ hmem => hvalue hmem (by nofun)
    · rw [hfired] at hdecided
      rw [hmemory]
      exact decision_eq_fired_iff.mp hdecided
  · rcases hstep.status_cases id with hsame | ⟨-, hmemory, hdecided⟩
    · have hdenied := h.denied id (hsame ▸ hblocked)
      exact hdenied.mono fun _ hmem => hvalue hmem (by nofun)
    · rw [hblocked] at hdecided
      rw [hmemory]
      exact decision_eq_blocked_iff.mp hdecided
  · rcases hstep.status_cases id with hsame | ⟨-, hmemory, hdecided⟩
    · have hdoubted := h.doubted id (hsame ▸ huncertain)
      refine hdoubted.mono fun condition hmem hdoubt => ?_
      rw [hstep.finding_eq]
      exact hdoubt.imp_right (hvalue hmem (by nofun))
    · rw [huncertain] at hdecided
      rw [hmemory]
      exact hboard.doubted hdecided
  · cases hboard.writes hstep fact with
    | derived _ _ _ _ _ hwritten =>
      rw [hfails] at hwritten
      cases hwritten
    | refuted hstatus _ hnegative =>
      rw [hstatus]
      exact hnegative other hother
    | kept hkept =>
      exact h.isNegative_step hboard hnext hstep hcondition (hkept.symm.trans hfails) hother

theorem answer (h : kb.Coherent board) (hboard : kb.Justified board) {fact : Fact} {value : Truth}
    (hnext : kb.Undisputed { board with memory := board.memory.putFinding fact value })
    (hnew : board.memory.finding fact = none) :
    kb.Coherent { board with memory := board.memory.putFinding fact value } := by
  have hvalue {condition : Fact} {old : Truth} (hdefinite : old ≠ .unknown)
      (hold : kb.effectiveValue board.memory condition = some old) :
      kb.effectiveValue (board.memory.putFinding fact value) condition = some old :=
    hnext.effectiveValue_eq (hboard.answer value hnew) hdefinite
      ((Memory.records_of_effectiveValue hold).putFinding value hnew)
  refine ⟨fun id hfired => ?_, fun id hblocked => ?_, fun id huncertain => ?_, h.refuted⟩
  · have haffirmed := h.affirmed id hfired
    exact haffirmed.mono fun _ _ => hvalue (by nofun)
  · have hdenied := h.denied id hblocked
    exact hdenied.mono fun _ _ => hvalue (by nofun)
  · have hdoubted := h.doubted id huncertain
    refine hdoubted.mono fun condition _ hdoubt => ?_
    exact hdoubt.imp (fun hfinding => Memory.finding_putFinding_of_some hfinding value hnew)
      (hvalue (by nofun))

end Coherent

theorem Coherent.mark (h : kb.Coherent board) (fact : Fact) :
    kb.Coherent { board with table := kb.markEvaluating board.table fact } := by
  have hstatus (id : kb.Id) {status : RuleStatus} (hresolved : status.isResolved = true) :
      (kb.markEvaluating board.table fact).status id = status ↔ board.table.status id = status :=
    status_markEvaluating_of_isResolved hresolved
  refine ⟨fun id hfired => h.affirmed id ((hstatus id rfl).mp hfired),
    fun id hblocked => h.denied id ((hstatus id rfl).mp hblocked),
    fun id huncertain => h.doubted id ((hstatus id rfl).mp huncertain),
    fun query hcondition hfails id hid => ?_⟩
  rw [congr_status_markEvaluating RuleStatus.isNegative rfl]
  exact h.refuted query hcondition hfails id hid

/-- What a consultation has concluded agrees with what it was concluded from, as
    long as no answer is in dispute. -/
theorem Reachable.coherent {iterations : Nat} (h : kb.Reachable iterations board)
    (hundisputed : kb.Undisputed board) : kb.Coherent board := by
  induction h with
  | fresh memory log hunderived _ =>
    refine ⟨by simp, by simp, by simp, fun fact _ hfails => ?_⟩
    rw [Memory.hypothesis, hunderived] at hfails
    cases hfails
  | @pass board hboard ih =>
    have hpass : kb.Undisputed (kb.convergeOnce iterations board).1 →
        kb.Coherent (kb.convergeOnce iterations board).1 := by
      refine hboard.justified.preserves (P := fun board => kb.Undisputed board → kb.Coherent board)
        (infersAll_convergeOnce iterations board) ?_ ih
      intro before after hbefore hstep hcoherent hafter
      exact (hcoherent (hafter.of_infers hbefore hstep)).step hbefore hafter hstep
    exact hpass hundisputed
  | mark _ fact ih => exact (ih hundisputed.of_mark).mark fact
  | note _ event ih =>
    have hcoherent := ih ⟨hundisputed.answers, hundisputed.premises⟩
    exact ⟨hcoherent.affirmed, hcoherent.denied, hcoherent.doubted, hcoherent.refuted⟩
  | answer hboard _ _ _ hnew ih =>
    exact (ih (hundisputed.of_answer hnew)).answer hboard.justified hundisputed hnew

end KnowledgeBase

end Consultation
