import Consultation.Proofs.Inference.Dispute

namespace Consultation

namespace Board

variable {size : Nat}

/-- A fact was refuted at some time, whether or not it was proved later. -/
def Refuted (board : Board size) (fact : Fact) : Prop := .refuted fact fact ∈ board.log

/-- A fact was answered no, or was refuted at some time. -/
def Rejects (board : Board size) (fact : Fact) : Prop :=
  board.memory.finding fact = some .fails ∨ board.Refuted fact

/-- A fact was not answered yes, but otherwise, or was refuted at some time. -/
def Discounts (board : Board size) (fact : Fact) : Prop :=
  board.memory.finding fact = some .unknown ∨ board.Rejects fact

end Board

namespace KnowledgeBase

variable {kb : KnowledgeBase} {board next : Board kb.size}

/-- Whatever was decided against a rule or a fact goes back to answers and to
    refutations in the journal. -/
structure Accounted (kb : KnowledgeBase) (board : Board kb.size) : Prop where
  fails : ∀ fact, board.memory.hypothesis fact = some .fails → board.Refuted fact
  blocked : ∀ id, board.table.status id = .blocked → (kb.rule id).BodyFails board.Rejects
  uncertain : ∀ id, board.table.status id = .uncertain → (kb.rule id).BodyFails board.Discounts
  refuted : ∀ fact, board.Refuted fact → kb.Refutable fact ∧
    ∀ id ∈ kb.concluding fact, (kb.rule id).BodyFails board.Discounts

theorem Infers.rejects (h : kb.Infers board next) {fact : Fact} (hrejects : board.Rejects fact) :
    next.Rejects fact :=
  hrejects.imp (fun hfinding => (h.finding_eq fact).trans hfinding) (fun hlog => h.log_subset hlog)

theorem Infers.discounts (h : kb.Infers board next) {fact : Fact}
    (hdiscounts : board.Discounts fact) : next.Discounts fact :=
  hdiscounts.imp (fun hfinding => (h.finding_eq fact).trans hfinding) h.rejects

/-- A fact is refuted when every rule that concludes it has failed. -/
theorem Infers.refuted_cases (h : kb.Infers board next) {fact : Fact}
    (hrefuted : next.Refuted fact) :
    board.Refuted fact ∨ kb.Refutable fact ∧
      ∀ id ∈ kb.concluding fact, (board.table.status id).isNegative = true := by
  cases h with
  | evaluate => exact .inl hrefuted
  | derive | promote => exact .inl (by simpa [Board.Refuted] using hrefuted)
  | refute id hcombinator hnegative =>
    rw [Board.Refuted, log_infer, List.mem_append, List.mem_singleton] at hrefuted
    rcases hrefuted with hbefore | hevent
    · exact .inl hbefore
    · cases hevent
      exact .inr ⟨⟨id, mem_concluding.mpr rfl, hcombinator⟩, hnegative⟩

namespace Accounted

theorem rejects_of_effectiveValue (h : kb.Accounted board) {fact : Fact}
    (hvalue : kb.effectiveValue board.memory fact = some .fails) : board.Rejects fact :=
  (Memory.records_of_effectiveValue hvalue).imp id (h.fails fact)

theorem discounts_of_isNegative (h : kb.Accounted board) {id : kb.Id}
    (hnegative : (board.table.status id).isNegative = true) :
    (kb.rule id).BodyFails board.Discounts := by
  cases hstatus : board.table.status id with
  | blocked =>
    have hrejects := h.blocked id hstatus
    exact hrejects.mono fun _ _ => .inr
  | uncertain => exact h.uncertain id hstatus
  | fired | pending | evaluating =>
    rw [hstatus] at hnegative
    cases hnegative

theorem step (h : kb.Accounted board) (hboard : kb.Justified board) (hstep : kb.Infers board next) :
    kb.Accounted next := by
  refine ⟨fun fact hfails => ?_, fun id hblocked => ?_, fun id huncertain => ?_,
    fun fact hrefuted => ?_⟩
  · cases hboard.writes hstep fact with
    | kept hkept => exact hstep.log_subset (h.fails fact (hkept.symm.trans hfails))
    | derived _ _ _ _ _ hwritten =>
      rw [hfails] at hwritten
      cases hwritten
    | refuted _ _ _ _ hlog => exact hlog
  · have hrejects : (kb.rule id).BodyFails board.Rejects := by
      rcases hstep.status_cases id with hsame | ⟨-, -, hdecided⟩
      · exact h.blocked id (hsame ▸ hblocked)
      · rw [hblocked] at hdecided
        have hdenied := decision_eq_blocked_iff.mp hdecided
        exact hdenied.mono fun _ _ => h.rejects_of_effectiveValue
    exact hrejects.mono fun _ _ => hstep.rejects
  · have hdiscounts : (kb.rule id).BodyFails board.Discounts := by
      rcases hstep.status_cases id with hsame | ⟨-, -, hdecided⟩
      · exact h.uncertain id (hsame ▸ huncertain)
      · rw [huncertain] at hdecided
        have hdoubted := hboard.doubted hdecided
        exact hdoubted.mono fun _ _ => Or.imp_right h.rejects_of_effectiveValue
    exact hdiscounts.mono fun _ _ => hstep.discounts
  · have hbefore : kb.Refutable fact ∧
        ∀ id ∈ kb.concluding fact, (kb.rule id).BodyFails board.Discounts := by
      rcases hstep.refuted_cases hrefuted with hrefuted | ⟨hrefutable, hnegative⟩
      · exact h.refuted fact hrefuted
      · exact ⟨hrefutable, fun id hid => h.discounts_of_isNegative (hnegative id hid)⟩
    refine ⟨hbefore.1, fun id hid => ?_⟩
    have hdiscounts := hbefore.2 id hid
    exact hdiscounts.mono fun _ _ => hstep.discounts

theorem fresh (kb : KnowledgeBase) : kb.Accounted (.fresh kb.size) := by
  refine ⟨fun fact hfails => ?_, by simp [Board.fresh], by simp [Board.fresh],
    fun fact hrefuted => ?_⟩
  · cases hfails
  · cases hrefuted

theorem mark (h : kb.Accounted board) (fact : Fact) :
    kb.Accounted { board with table := kb.markEvaluating board.table fact } :=
  ⟨h.fails, fun id hblocked => h.blocked id ((status_markEvaluating_of_isResolved rfl).mp hblocked),
    fun id huncertain => h.uncertain id ((status_markEvaluating_of_isResolved rfl).mp huncertain),
    h.refuted⟩

theorem note (h : kb.Accounted board) {event : Event}
    (hevent : ∀ fact, event ≠ .refuted fact fact) :
    kb.Accounted { board with log := board.log ++ [event] } := by
  have hrefuted : Board.Refuted { board with log := board.log ++ [event] } = board.Refuted := by
    funext fact
    simp [Board.Refuted, (hevent fact).symm]
  have hrejects : Board.Rejects { board with log := board.log ++ [event] } = board.Rejects := by
    funext fact
    simp only [Board.Rejects, hrefuted]
  have hdiscounts : Board.Discounts { board with log := board.log ++ [event] } =
      board.Discounts := by
    funext fact
    simp only [Board.Discounts, hrejects]
  constructor
  · rw [hrefuted]
    exact h.fails
  · rw [hrejects]
    exact h.blocked
  · rw [hdiscounts]
    exact h.uncertain
  · rw [hrefuted, hdiscounts]
    exact h.refuted

theorem answer (h : kb.Accounted board) {fact : Fact} (value : Truth)
    (hnew : board.memory.finding fact = none) :
    kb.Accounted { board with memory := board.memory.putFinding fact value } := by
  have hrejects {query : Fact} (hquery : board.Rejects query) :
      Board.Rejects { board with memory := board.memory.putFinding fact value } query :=
    hquery.imp_left fun hfinding => Memory.finding_putFinding_of_some hfinding value hnew
  have hdiscounts {query : Fact} (hquery : board.Discounts query) :
      Board.Discounts { board with memory := board.memory.putFinding fact value } query :=
    hquery.imp (fun hfinding => Memory.finding_putFinding_of_some hfinding value hnew) hrejects
  refine ⟨h.fails, fun id hblocked => ?_, fun id huncertain => ?_, fun query hquery => ?_⟩
  · have hbody := h.blocked id hblocked
    exact hbody.mono fun _ _ => hrejects
  · have hbody := h.uncertain id huncertain
    exact hbody.mono fun _ _ => hdiscounts
  · obtain ⟨hrefutable, hbodies⟩ := h.refuted query hquery
    refine ⟨hrefutable, fun id hid => ?_⟩
    have hbody := hbodies id hid
    exact hbody.mono fun _ _ => hdiscounts

end Accounted

end KnowledgeBase

end Consultation
