import Consultation.Proofs.Inference.Dispute

namespace Consultation

/-- What is decided about a rule, whether or not one of its conditions has been
    asked. -/
def RuleStatus.unmarked : RuleStatus → RuleStatus
  | .evaluating => .pending
  | status => status

namespace RuleStatus

/-- What takes `evaluating` for `pending` does not see more of a status. -/
theorem congr_of_unmarked_eq {α : Type} {left right : RuleStatus} (p : RuleStatus → α)
    (hp : p .evaluating = p .pending) (h : left.unmarked = right.unmarked) : p left = p right := by
  have hunmarked (status : RuleStatus) : p status.unmarked = p status := by
    cases status <;> first | rfl | exact hp.symm
  rw [← hunmarked left, h, hunmarked right]

theorem eq_of_unmarked_eq {left right : RuleStatus} (h : left.unmarked = right.unmarked)
    (hresolved : left.isResolved = true) : left = right := by
  revert h hresolved
  cases left <;> cases right <;> decide

end RuleStatus

/-- No derived value repeats the answer to its fact. -/
def Memory.Irredundant (memory : Memory) : Prop :=
  ∀ fact value, memory.hypothesis fact = some value → memory.finding fact ≠ some value

namespace KnowledgeBase

variable {kb : KnowledgeBase} {board next final : Board kb.size} {id : kb.Id}

/-- Inference has come to rest, and brought no answer into dispute. -/
structure Stable (kb : KnowledgeBase) (board : Board kb.size) : Prop where
  justified : kb.Justified board
  settled : kb.Settled board
  undisputed : kb.Undisputed board
  coherent : kb.Coherent board

theorem Reachable.stable {iterations : Nat} (h : kb.Reachable iterations board)
    (hsettled : kb.Settled board) (hundisputed : kb.Undisputed board) : kb.Stable board :=
  ⟨h.justified, hsettled, hundisputed, h.coherent hundisputed⟩

namespace Stable

theorem effectiveValue_eq (h : kb.Stable board) {fact : Fact} {value : Truth}
    (hdefinite : value ≠ .unknown) (hrecords : board.memory.Records fact value) :
    kb.effectiveValue board.memory fact = some value :=
  h.undisputed.effectiveValue_eq h.justified hdefinite hrecords

theorem fired_iff (h : kb.Stable board) :
    board.table.status id = .fired ↔ kb.Affirmed board.memory id := by
  refine ⟨h.coherent.affirmed id, fun haffirmed => ?_⟩
  cases hstatus : board.table.status id with
  | fired => rfl
  | blocked => exact absurd (h.coherent.denied id hstatus) haffirmed.not_denied
  | pending | evaluating | uncertain =>
    exact absurd haffirmed (h.settled.decided.not_affirmed (by rw [hstatus]; rfl))

theorem blocked_iff (h : kb.Stable board) :
    board.table.status id = .blocked ↔ kb.Denied board.memory id := by
  refine ⟨h.coherent.denied id, fun hdenied => ?_⟩
  cases hstatus : board.table.status id with
  | blocked => rfl
  | fired => exact absurd hdenied (h.coherent.affirmed id hstatus).not_denied
  | pending | evaluating | uncertain =>
    exact absurd hdenied (h.settled.decided.not_denied (by rw [hstatus]; rfl))

theorem isResolved_of_exhausted (h : kb.Stable board)
    (hexhausted : kb.Exhausted board.memory board.table id) :
    (board.table.status id).isResolved = true := by
  cases hterminal : (board.table.status id).isTerminal with
  | true => exact RuleStatus.isResolved_of_isTerminal hterminal
  | false =>
    obtain ⟨status, hdecided⟩ := Option.ne_none_iff_exists'.mp hexhausted.decision_ne_none
    rw [h.settled.decided id hterminal status hdecided]
    exact isResolved_of_decision hdecided

theorem effectiveValue_of_fired (h : kb.Stable board) (hfired : board.table.status id = .fired) :
    kb.effectiveValue board.memory (kb.rule id).action = some .holds :=
  h.effectiveValue_eq (by nofun) ((h.settled.quiet id).fired hfired)

theorem effectiveValue_of_isNegative (h : kb.Stable board) {fact : Fact}
    (hrefutable : kb.Refutable fact)
    (hnegative : ∀ id ∈ kb.concluding fact, (board.table.status id).isNegative = true) :
    kb.effectiveValue board.memory fact = some .fails := by
  obtain ⟨id, hid, hcombinator⟩ := hrefutable
  have haction := mem_concluding.mp hid
  subst haction
  exact h.effectiveValue_eq (by nofun) ((h.settled.quiet id).failed hcombinator hnegative)

/-- Where inference has come to rest, the derivable facts are seen to hold. -/
theorem effectiveValue_of_derivable (h : kb.Stable board) {fact : Fact}
    (hderivable : kb.Derivable board.memory.AnsweredYes fact) :
    kb.effectiveValue board.memory fact = some .holds := by
  apply hderivable.mem_of_closed
  · exact fun fact hanswered => h.effectiveValue_eq (by nofun) (.inl hanswered)
  · exact fun id hbody => h.effectiveValue_of_fired (h.fired_iff.mpr hbody)

/-- Where inference has come to rest, the rules with a derivable body have
    fired. -/
theorem fired_of_derivableBody (h : kb.Stable board)
    (hbody : kb.DerivableBody board.memory.AnsweredYes id) : board.table.status id = .fired :=
  h.fired_iff.mpr (Rule.BodyHolds.mono hbody fun _ _ => h.effectiveValue_of_derivable)

end Stable

/-- All that one board concludes is also concluded on another, as far as it can
    matter there: an `uncertain` rule may be decided otherwise, but it does not
    fire for an action that could have been refuted meanwhile. -/
structure Precedes (kb : KnowledgeBase) (board final : Board kb.size) : Prop where
  finding : ∀ fact value, board.memory.finding fact = some value →
    final.memory.finding fact = some value
  hypothesis : ∀ fact value, kb.isCondition fact = true →
    board.memory.hypothesis fact = some value → kb.effectiveValue final.memory fact = some value
  fired : ∀ id, board.table.status id = .fired → final.table.status id = .fired
  blocked : ∀ id, board.table.status id = .blocked → final.table.status id = .blocked
  uncertain : ∀ id, board.table.status id = .uncertain → (final.table.status id).isResolved = true
  refutable : ∀ id, board.table.status id = .uncertain →
    kb.isCondition (kb.rule id).action = true → kb.Refutable (kb.rule id).action →
    (final.table.status id).isNegative = true

namespace Precedes

theorem isResolved (h : kb.Precedes board final)
    (hresolved : (board.table.status id).isResolved = true) :
    (final.table.status id).isResolved = true := by
  cases hstatus : board.table.status id with
  | fired => rw [h.fired id hstatus]; rfl
  | blocked => rw [h.blocked id hstatus]; rfl
  | uncertain => exact h.uncertain id hstatus
  | pending | evaluating =>
    rw [hstatus] at hresolved
    cases hresolved

theorem isNegative (h : kb.Precedes board final)
    (hnegative : (board.table.status id).isNegative = true)
    (hcondition : kb.isCondition (kb.rule id).action = true)
    (hrefutable : kb.Refutable (kb.rule id).action) :
    (final.table.status id).isNegative = true := by
  cases hstatus : board.table.status id with
  | blocked => rw [h.blocked id hstatus]; rfl
  | uncertain => exact h.refutable id hstatus hcondition hrefutable
  | fired | pending | evaluating =>
    rw [hstatus] at hnegative
    cases hnegative

theorem effectiveValue_eq (h : kb.Precedes board final) (hfinal : kb.Stable final) {fact : Fact}
    (hcondition : kb.isCondition fact = true) {value : Truth} (hdefinite : value ≠ .unknown)
    (hvalue : kb.effectiveValue board.memory fact = some value) :
    kb.effectiveValue final.memory fact = some value := by
  rcases Memory.records_of_effectiveValue hvalue with hfinding | hhypothesis
  · exact hfinal.effectiveValue_eq hdefinite (.inl (h.finding fact value hfinding))
  · exact h.hypothesis fact value hcondition hhypothesis

theorem affirmed (h : kb.Precedes board final) (hfinal : kb.Stable final)
    (haffirmed : kb.Affirmed board.memory id) : kb.Affirmed final.memory id :=
  haffirmed.mono fun _ hmem =>
    h.effectiveValue_eq hfinal (isCondition_iff.mpr ⟨id, hmem⟩) (by nofun)

theorem denied (h : kb.Precedes board final) (hfinal : kb.Stable final)
    (hdenied : kb.Denied board.memory id) : kb.Denied final.memory id :=
  hdenied.mono fun _ hmem =>
    h.effectiveValue_eq hfinal (isCondition_iff.mpr ⟨id, hmem⟩) (by nofun)

theorem doubted (h : kb.Precedes board final) (hfinal : kb.Stable final)
    (hdoubted : kb.Doubted board.memory id) : kb.Doubted final.memory id :=
  hdoubted.mono fun condition hmem hdoubt =>
    hdoubt.imp (h.finding condition .unknown)
      (h.effectiveValue_eq hfinal (isCondition_iff.mpr ⟨id, hmem⟩) (by nofun))

theorem exhausted (h : kb.Precedes board final) (hboard : kb.Justified board)
    (hfinal : kb.Stable final) (hexhausted : kb.Exhausted board.memory board.table id) :
    kb.Exhausted final.memory final.table id := by
  intro condition hmem
  have hcondition : kb.isCondition condition = true := isCondition_iff.mpr ⟨id, hmem⟩
  obtain ⟨hvalued, hclosed⟩ := hexhausted condition hmem
  -- A value that is `unknown` in the end was `unknown` before.
  have hdefinite {value : Truth} (hne : value ≠ .unknown)
      (hvalue : kb.effectiveValue board.memory condition = some value) :=
    h.effectiveValue_eq hfinal hcondition hne hvalue
  cases hvalue : kb.effectiveValue board.memory condition with
  | none => exact absurd hvalue hvalued
  | some truth =>
    cases truth with
    | holds =>
      rw [hdefinite (by nofun) hvalue]
      exact ⟨nofun, nofun⟩
    | fails =>
      rw [hdefinite (by nofun) hvalue]
      exact ⟨nofun, nofun⟩
    | unknown =>
      constructor
      · have hfinding := h.finding condition .unknown (hboard.finding_of_effectiveValue hvalue)
        rw [hfinal.justified.effectiveValue_eq, hfinding]
        cases final.memory.hypothesis condition <;> nofun
      · intro hcombinator _
        have hresolved := isOpen_eq_false_iff.mp (hclosed hcombinator hvalue)
        exact isOpen_eq_false_iff.mpr fun other hother => h.isResolved (hresolved other hother)

theorem isResolved_of_uncertain (h : kb.Precedes board final) (hboard : kb.Justified board)
    (hfinal : kb.Stable final)
    (hdecided : kb.decision board.memory board.table id = some .uncertain) :
    (final.table.status id).isResolved = true := by
  have hdecides := kb.decides board.memory board.table id
  rw [hdecided] at hdecides
  cases hdecides with
  | uncertain _ _ hexhausted =>
    exact hfinal.isResolved_of_exhausted (h.exhausted hboard hfinal hexhausted)

theorem isNegative_of_uncertain (h : kb.Precedes board final) (hboard : kb.Justified board)
    (hfinal : kb.Stable final)
    (hdecided : kb.decision board.memory board.table id = some .uncertain)
    (hcondition : kb.isCondition (kb.rule id).action = true)
    (hrefutable : kb.Refutable (kb.rule id).action) :
    (final.table.status id).isNegative = true := by
  have hresolved := h.isResolved_of_uncertain hboard hfinal hdecided
  cases hstatus : final.table.status id with
  | blocked | uncertain => rfl
  | pending | evaluating =>
    rw [hstatus] at hresolved
    cases hresolved
  | fired =>
    have haffirmed := hfinal.fired_iff.mp hstatus
    have hdoubted := h.doubted hfinal (hboard.doubted hdecided)
    obtain ⟨condition, hmem, hfinding, hholds⟩ := hdoubted.exists_overridden haffirmed
    exact absurd hholds (hfinal.undisputed.premises id hstatus hcondition hrefutable condition hmem
      hfinding)

/-- No step of inference leads away from a stable board that is ahead. -/
theorem step (h : kb.Precedes board final) (hboard : kb.Justified board) (hfinal : kb.Stable final)
    (hstep : kb.Infers board next) : kb.Precedes next final := by
  refine ⟨fun fact value hfinding => ?_, fun fact value hcondition hhypothesis => ?_,
    fun id hfired => ?_, fun id hblocked => ?_, fun id huncertain => ?_,
    fun id huncertain hcondition hrefutable => ?_⟩
  · exact h.finding fact value ((hstep.finding_eq fact).symm.trans hfinding)
  · cases hboard.writes hstep fact with
    | kept hkept => exact h.hypothesis fact value hcondition (hkept.symm.trans hhypothesis)
    | derived _ id hid hfired _ hwritten =>
      have haction := mem_concluding.mp hid
      subst haction
      rw [hwritten] at hhypothesis
      cases hhypothesis
      exact hfinal.effectiveValue_of_fired (h.fired id hfired)
    | refuted _ hrefutable hnegative _ _ hwritten =>
      rw [hwritten] at hhypothesis
      cases hhypothesis
      refine hfinal.effectiveValue_of_isNegative hrefutable fun id hid => ?_
      have haction := mem_concluding.mp hid
      subst haction
      exact h.isNegative (hnegative id hid) hcondition hrefutable
  · rcases hstep.status_cases id with hsame | ⟨-, -, hdecided⟩
    · exact h.fired id (hsame ▸ hfired)
    · rw [hfired] at hdecided
      exact hfinal.fired_iff.mpr (h.affirmed hfinal (decision_eq_fired_iff.mp hdecided))
  · rcases hstep.status_cases id with hsame | ⟨-, -, hdecided⟩
    · exact h.blocked id (hsame ▸ hblocked)
    · rw [hblocked] at hdecided
      exact hfinal.blocked_iff.mpr (h.denied hfinal (decision_eq_blocked_iff.mp hdecided))
  · rcases hstep.status_cases id with hsame | ⟨-, -, hdecided⟩
    · exact h.uncertain id (hsame ▸ huncertain)
    · rw [huncertain] at hdecided
      exact h.isResolved_of_uncertain hboard hfinal hdecided
  · rcases hstep.status_cases id with hsame | ⟨-, -, hdecided⟩
    · exact h.refutable id (hsame ▸ huncertain) hcondition hrefutable
    · rw [huncertain] at hdecided
      exact h.isNegative_of_uncertain hboard hfinal hdecided hcondition hrefutable

theorem of_status_iff (h : kb.Precedes board final)
    (hstatus : ∀ id status, status.isResolved = true →
      (next.table.status id = status ↔ board.table.status id = status))
    (hmemory : next.memory = board.memory) : kb.Precedes next final := by
  refine ⟨by rw [hmemory]; exact h.finding, by rw [hmemory]; exact h.hypothesis,
    fun id hfired => h.fired id ((hstatus id .fired rfl).mp hfired),
    fun id hblocked => h.blocked id ((hstatus id .blocked rfl).mp hblocked),
    fun id huncertain => h.uncertain id ((hstatus id .uncertain rfl).mp huncertain),
    fun id huncertain => h.refutable id ((hstatus id .uncertain rfl).mp huncertain)⟩

end Precedes

/-- A stable board is ahead of every board that a consultation can come to with
    no other answers. Whether these boards were stable, and in which order the
    answers were given on the way to them, does not matter. -/
theorem Reachable.precedes {iterations : Nat} (h : kb.Reachable iterations board)
    (hfinal : kb.Stable final)
    (hfinding : ∀ fact value, board.memory.finding fact = some value →
      final.memory.finding fact = some value) : kb.Precedes board final := by
  induction h with
  | fresh memory log hunderived _ =>
    refine ⟨hfinding, fun fact value _ hhypothesis => ?_, by simp, by simp, by simp, by simp⟩
    rw [Memory.hypothesis, hunderived] at hhypothesis
    cases hhypothesis
  | @pass board hboard ih =>
    have hsteps := infersAll_convergeOnce iterations board
    have hbefore : kb.Precedes board final := by
      refine ih fun fact value hvalue => hfinding fact value ?_
      exact (Memory.finding_eq_of_answers_eq hsteps.answers_eq fact).trans hvalue
    refine hboard.justified.preserves (P := fun next => kb.Precedes next final) hsteps ?_ hbefore
    exact fun _ _ hjustified hstep hprecedes => hprecedes.step hjustified hfinal hstep
  | mark _ fact ih =>
    exact (ih hfinding).of_status_iff
      (fun _ _ hresolved => status_markEvaluating_of_isResolved hresolved) rfl
  | note _ event ih => exact (ih hfinding).of_status_iff (fun _ _ _ => Iff.rfl) rfl
  | @answer board _ fact value _ hnew ih =>
    have hbefore : kb.Precedes board final := ih fun query old hold =>
      hfinding query old (Memory.finding_putFinding_of_some hold value hnew)
    exact ⟨hfinding, hbefore.hypothesis, hbefore.fired, hbefore.blocked, hbefore.uncertain,
      hbefore.refutable⟩

/-- A board that is behind a stable one has no dispute that the stable one does
    not have. -/
theorem Precedes.undisputed (h : kb.Precedes board final) (hfinal : kb.Stable final)
    (hcondition : ∀ fact value, board.memory.finding fact = some value →
      kb.isCondition fact = true) : kb.Undisputed board := by
  constructor
  · intro fact value hfinding hdefinite derived hhypothesis
    have hderived := h.hypothesis fact derived (hcondition fact value hfinding) hhypothesis
    have hanswered := hfinal.effectiveValue_eq hdefinite (.inl (h.finding fact value hfinding))
    exact Option.some.inj (hderived.symm.trans hanswered)
  · intro id hfired haction hrefutable condition hmem hfinding hholds
    have hvalue := h.hypothesis condition .holds (isCondition_iff.mpr ⟨id, hmem⟩) hholds
    have hunknown := h.finding condition .unknown hfinding
    rcases Memory.records_of_effectiveValue hvalue with hanswered | hhypothesis
    · rw [hunknown] at hanswered
      cases hanswered
    · exact hfinal.undisputed.premises id (h.fired id hfired) haction hrefutable condition hmem
        hunknown hhypothesis

namespace Stable

variable {left right : Board kb.size}

theorem hypothesis_holds_iff (h : kb.Stable board) (hirredundant : board.memory.Irredundant)
    {fact : Fact} :
    board.memory.hypothesis fact = some .holds ↔
      (∃ id ∈ kb.concluding fact, board.table.status id = .fired) ∧
        board.memory.finding fact ≠ some .holds := by
  constructor
  · exact fun hholds => ⟨h.justified.holds fact hholds, hirredundant fact .holds hholds⟩
  · rintro ⟨⟨id, hid, hfired⟩, hfinding⟩
    have haction := mem_concluding.mp hid
    subst haction
    exact ((h.settled.quiet id).fired hfired).resolve_left hfinding

theorem hypothesis_fails_iff (h : kb.Stable board) (hirredundant : board.memory.Irredundant)
    {fact : Fact} :
    board.memory.hypothesis fact = some .fails ↔
      kb.Refutable fact ∧
        (∀ id ∈ kb.concluding fact, (board.table.status id).isNegative = true) ∧
        board.memory.finding fact ≠ some .fails := by
  constructor
  · intro hfails
    obtain ⟨hrefutable, hresolved⟩ := h.justified.fails fact hfails
    refine ⟨hrefutable, fun id hid => ?_, hirredundant fact .fails hfails⟩
    have hid' := hresolved id hid
    cases hstatus : board.table.status id with
    | blocked | uncertain => rfl
    | pending | evaluating =>
      rw [hstatus] at hid'
      cases hid'
    | fired =>
      -- The rules would see two values of the fact.
      have hholds := h.effectiveValue_of_fired hstatus
      have hvalue := h.effectiveValue_eq (by nofun) (.inr hfails)
      rw [mem_concluding.mp hid, hvalue] at hholds
      cases hholds
  · rintro ⟨⟨id, hid, hcombinator⟩, hnegative, hfinding⟩
    have haction := mem_concluding.mp hid
    subst haction
    exact ((h.settled.quiet id).failed hcombinator hnegative).resolve_left hfinding

/-- Two stable boards that are behind each other decide every rule alike. -/
theorem unmarked_eq (hright : kb.Precedes left right) (hleft : kb.Precedes right left)
    (id : kb.Id) : (left.table.status id).unmarked = (right.table.status id).unmarked := by
  have hfired : left.table.status id = .fired ↔ right.table.status id = .fired :=
    ⟨hright.fired id, hleft.fired id⟩
  have hblocked : left.table.status id = .blocked ↔ right.table.status id = .blocked :=
    ⟨hright.blocked id, hleft.blocked id⟩
  have hresolved : (left.table.status id).isResolved = true ↔
      (right.table.status id).isResolved = true := ⟨hright.isResolved, hleft.isResolved⟩
  generalize left.table.status id = first at *
  generalize right.table.status id = second at *
  revert hfired hblocked hresolved
  cases first <;> cases second <;> decide

theorem hypothesis_eq (hleft : kb.Stable left) (hright : kb.Stable right)
    (hirredundantLeft : left.memory.Irredundant) (hirredundantRight : right.memory.Irredundant)
    (hunmarked : ∀ id, (left.table.status id).unmarked = (right.table.status id).unmarked)
    (hfinding : ∀ fact, left.memory.finding fact = right.memory.finding fact) (fact : Fact) :
    left.memory.hypothesis fact = right.memory.hypothesis fact := by
  have hfired (id : kb.Id) : left.table.status id = .fired ↔ right.table.status id = .fired :=
    Eq.to_iff (RuleStatus.congr_of_unmarked_eq (· = .fired) (by simp) (hunmarked id))
  have hnegative (id : kb.Id) :
      (left.table.status id).isNegative = (right.table.status id).isNegative :=
    RuleStatus.congr_of_unmarked_eq RuleStatus.isNegative rfl (hunmarked id)
  apply Option.ext
  intro value
  cases value with
  | unknown => exact iff_of_false (hleft.justified.definite fact) (hright.justified.definite fact)
  | holds =>
    rw [hleft.hypothesis_holds_iff hirredundantLeft, hright.hypothesis_holds_iff hirredundantRight]
    simp only [hfired, hfinding]
  | fails =>
    rw [hleft.hypothesis_fails_iff hirredundantLeft, hright.hypothesis_fails_iff hirredundantRight]
    simp only [hnegative, hfinding]

theorem memory_eq (hleft : kb.Stable left) (hright : kb.Stable right)
    (hirredundantLeft : left.memory.Irredundant) (hirredundantRight : right.memory.Irredundant)
    (hunmarked : ∀ id, (left.table.status id).unmarked = (right.table.status id).unmarked)
    (hanswers : left.memory.answers = right.memory.answers) : left.memory = right.memory := by
  apply Memory.ext
  · exact congrArg (fun memory => memory.findings) hanswers
  · refine FactMap.eq_of_get? fun fact => ?_
    exact hleft.hypothesis_eq hright hirredundantLeft hirredundantRight hunmarked
      (Memory.finding_eq_of_answers_eq hanswers) fact
  · exact congrArg (fun memory => memory.history) hanswers

end Stable

/-- Answers to facts that no rule concludes cannot come into dispute. -/
theorem Justified.undisputed_of_base (h : kb.Justified board)
    (hbase : ∀ fact value, board.memory.finding fact = some value → kb.isDerived fact = false) :
    kb.Undisputed board ∧ board.memory.Irredundant := by
  have hnone {fact : Fact} {value derived : Truth}
      (hfinding : board.memory.finding fact = some value)
      (hhypothesis : board.memory.hypothesis fact = some derived) : False := by
    have hnot := hbase fact value hfinding
    rw [h.isDerived_of_hypothesis hhypothesis] at hnot
    cases hnot
  refine ⟨⟨fun fact value hfinding _ derived hhypothesis => (hnone hfinding hhypothesis).elim,
    fun id _ _ _ condition _ hfinding hholds => hnone hfinding hholds⟩,
    fun fact value hhypothesis hfinding => hnone hfinding hhypothesis⟩

/-- Two boards at which inference has come to rest decide every rule alike when
    the same was answered, provided that one of them has no answer in dispute;
    then neither has. -/
theorem Reachable.agree {left right : Board kb.size} {iterations iterations' : Nat}
    (hleft : kb.Reachable iterations left) (hright : kb.Reachable iterations' right)
    (hsettledLeft : kb.Settled left) (hsettledRight : kb.Settled right)
    (hundisputed : kb.Undisputed left)
    (hfinding : ∀ fact, left.memory.finding fact = right.memory.finding fact) :
    kb.Stable left ∧ kb.Stable right ∧
      ∀ id, (left.table.status id).unmarked = (right.table.status id).unmarked := by
  have hstableLeft := hleft.stable hsettledLeft hundisputed
  have hbehind : kb.Precedes right left := hright.precedes hstableLeft fun fact value hvalue =>
    (hfinding fact).trans hvalue
  have hundisputedRight := hbehind.undisputed hstableLeft fun _ _ hvalue =>
    hright.isCondition_of_finding hvalue
  have hstableRight := hright.stable hsettledRight hundisputedRight
  have hahead : kb.Precedes left right := hleft.precedes hstableRight fun fact value hvalue =>
    (hfinding fact).symm.trans hvalue
  exact ⟨hstableLeft, hstableRight, Stable.unmarked_eq hahead hbehind⟩

end KnowledgeBase

end Consultation
