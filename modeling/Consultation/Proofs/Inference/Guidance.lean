import Consultation.Proofs.Inference.Account
import Consultation.Proofs.Inference.Question

namespace Consultation

namespace KnowledgeBase

variable (kb : KnowledgeBase) (assignment : Fact → Bool)

/-- The base conditions that an assignment makes hold. -/
def Assigned (fact : Fact) : Prop :=
  kb.isCondition fact = true ∧ kb.isDerived fact = false ∧ assignment fact = true

/-- The answer that leads the search below a derived fact, and gives the
    assigned value of any other. -/
def guidedAnswer (fact : Fact) : Answer :=
  if kb.isDerived fact then .unknown else .ofBool (assignment fact)

/-- Every answer was the guided one. -/
def Guided (memory : Memory) : Prop :=
  ∀ fact value, memory.finding fact = some value → value = (kb.guidedAnswer assignment fact).truth

/-- A fact lies beneath a rule when it is one of its conditions, or lies beneath
    a rule that concludes one. -/
inductive Beneath (fact : Fact) : kb.Id → Prop where
  | direct {id : kb.Id} (hmem : fact ∈ (kb.rule id).conditions) : Beneath fact id
  | through {id other : kb.Id} {condition : Fact} (hmem : condition ∈ (kb.rule id).conditions)
      (hother : other ∈ kb.concluding condition) (h : Beneath fact other) : Beneath fact id

variable {kb assignment} {board : Board kb.size} {fact : Fact}

theorem Beneath.isCondition {id : kb.Id} (h : kb.Beneath fact id) : kb.isCondition fact = true := by
  induction h with
  | direct hmem => exact isCondition_iff.mpr ⟨_, hmem⟩
  | through _ _ _ ih => exact ih

theorem not_assigned (hderived : kb.isDerived fact = true) : ¬ kb.Assigned assignment fact := by
  rintro ⟨-, hbase, -⟩
  rw [hderived] at hbase
  cases hbase

theorem Derivable.isDerived (h : kb.Derivable (kb.Assigned assignment) fact)
    (hnot : ¬ kb.Assigned assignment fact) : kb.isDerived fact = true := by
  obtain ⟨id, hid, -⟩ := h.exists_rule hnot
  exact isDerived_iff.mpr ⟨id, mem_concluding.mp hid⟩

/-- Once all inferences are drawn, no rule fired for a fact that is unknown. -/
theorem Settled.not_fired_of_unknown (h : kb.Settled board) (hboard : kb.Justified board)
    (hvalue : kb.effectiveValue board.memory fact = some .unknown) {id : kb.Id}
    (hid : id ∈ kb.concluding fact) : board.table.status id ≠ .fired := by
  intro hfired
  have hrecords := (h.quiet id).fired hfired
  rw [mem_concluding.mp hid] at hrecords
  rcases hrecords with hanswered | hhypothesis
  · rw [hboard.finding_of_effectiveValue hvalue] at hanswered
    cases hanswered
  · rw [hboard.effectiveValue_eq, hhypothesis] at hvalue
    cases hvalue

namespace Guided

theorem assigned (h : kb.Guided assignment board.memory) (hcondition : kb.isCondition fact = true)
    (hfinding : board.memory.finding fact = some .holds) : kb.Assigned assignment fact := by
  have hvalue := h fact .holds hfinding
  unfold guidedAnswer at hvalue
  split at hvalue
  · cases hvalue
  · next hbase =>
    refine ⟨hcondition, by simpa using hbase, ?_⟩
    cases hassigned : assignment fact with
    | true => rfl
    | false =>
      rw [hassigned] at hvalue
      cases hvalue

theorem isDerived_of_unknown (h : kb.Guided assignment board.memory)
    (hfinding : board.memory.finding fact = some .unknown) : kb.isDerived fact = true := by
  have hvalue := h fact .unknown hfinding
  unfold guidedAnswer at hvalue
  split at hvalue
  · next hderived => exact hderived
  · cases hassigned : assignment fact <;> (rw [hassigned] at hvalue; cases hvalue)

/-- No derivable fact is ever answered no. -/
theorem finding_ne_fails (h : kb.Guided assignment board.memory)
    (hderivable : kb.Derivable (kb.Assigned assignment) fact) :
    board.memory.finding fact ≠ some .fails := by
  intro hfinding
  have hvalue := h fact .fails hfinding
  unfold guidedAnswer at hvalue
  split at hvalue
  · cases hvalue
  · next hbase =>
    have hassigned : kb.Assigned assignment fact := by
      by_contra hnot
      exact hbase (hderivable.isDerived hnot)
    rw [hassigned.2.2] at hvalue
    cases hvalue

/-- What speaks against a derivable fact is a refutation. -/
theorem refuted_of_rejects (h : kb.Guided assignment board.memory)
    (hderivable : kb.Derivable (kb.Assigned assignment) fact) (hrejects : board.Rejects fact) :
    board.Refuted fact := hrejects.resolve_left (h.finding_ne_fails hderivable)

theorem isDerived_of_discounts (h : kb.Guided assignment board.memory)
    (haccounted : kb.Accounted board)
    (hderivable : kb.Derivable (kb.Assigned assignment) fact) (hdiscounts : board.Discounts fact) :
    kb.isDerived fact = true := by
  rcases hdiscounts with hunknown | hrejects
  · exact h.isDerived_of_unknown hunknown
  · obtain ⟨⟨id, hid, -⟩, -⟩ := haccounted.refuted fact (h.refuted_of_rejects hderivable hrejects)
    exact isDerived_iff.mpr ⟨id, mem_concluding.mp hid⟩

/-- A fact that is refuted although it is derivable follows by a rule that needs
    a derived condition: a rule over base conditions alone is decided by their
    answers. -/
theorem exists_derived_condition (h : kb.Guided assignment board.memory)
    (haccounted : kb.Accounted board)
    (hderivable : kb.Derivable (kb.Assigned assignment) fact) (hrefuted : board.Refuted fact) :
    kb.Refutable fact ∧ ∃ id ∈ kb.concluding fact, kb.DerivableBody (kb.Assigned assignment) id ∧
      ∃ condition ∈ (kb.rule id).conditions, kb.isDerived condition = true := by
  obtain ⟨hrefutable, hbodies⟩ := haccounted.refuted fact hrefuted
  have hderived : kb.isDerived fact = true := by
    obtain ⟨id, hid, -⟩ := hrefutable
    exact isDerived_iff.mpr ⟨id, mem_concluding.mp hid⟩
  obtain ⟨id, hid, hbody⟩ := hderivable.exists_rule (not_assigned hderived)
  obtain ⟨condition, hmem, hholds, hdiscounts⟩ :=
    Rule.BodyHolds.exists_of_bodyFails hbody (hbodies id hid)
  exact ⟨hrefutable, id, hid, hbody, condition, hmem,
    h.isDerived_of_discounts haccounted hholds hdiscounts⟩

/-- When the search finds nothing to ask for a rule that could have fired, a
    derivable fact beneath it was refuted. The search goes down from a rule to
    rules whose bodies hold at ever earlier stages, so it never comes back to
    one above, and the levels suffice. -/
theorem exists_refuted (h : kb.Guided assignment board.memory) (hboard : kb.Justified board)
    (hsettled : kb.Settled board) (haccounted : kb.Accounted board) {stage : Nat} {id : kb.Id}
    {path : List kb.Id} {levels : Nat}
    (hfirst : kb.FirstStage (kb.Assigned assignment) stage id)
    (hpath : ∀ other ∈ path, ¬ (kb.rule other).BodyHolds (kb.Stage (kb.Assigned assignment) stage))
    (hnodup : path.Nodup) (hlevels : kb.size ≤ levels + path.length)
    (hunfired : board.table.status id ≠ .fired)
    (hsearch : kb.searchBelow board.memory board.table levels path id = none) :
    ∃ fact, kb.Beneath fact id ∧ kb.Derivable (kb.Assigned assignment) fact ∧
      board.Refuted fact := by
  induction stage using Nat.strong_induction_on generalizing id path levels with
  | _ stage ih =>
    have hid : id ∉ path := fun hmem => hpath id hmem hfirst.holds
    have hnodup' : (id :: path).Nodup := List.nodup_cons.mpr ⟨hid, hnodup⟩
    have hlength := hnodup'.length_le_card
    rw [Fintype.card_fin, List.length_cons] at hlength
    obtain ⟨levels, rfl⟩ : ∃ rest, levels = rest + 1 := ⟨levels - 1, by omega⟩
    cases hterminal : (board.table.status id).isTerminal with
    | true =>
      have hblocked : board.table.status id = .blocked := by
        revert hunfired hterminal
        cases board.table.status id <;> simp [RuleStatus.isTerminal]
      obtain ⟨condition, hmem, hstage, hrejects⟩ :=
        hfirst.holds.exists_of_bodyFails (haccounted.blocked id hblocked)
      exact ⟨condition, .direct hmem, hstage.derivable,
        h.refuted_of_rejects hstage.derivable hrejects⟩
    | false =>
      have hexplored := hsettled.decided.explored hterminal
        (scanned_of_searchBelow hsearch hterminal hid)
      obtain ⟨condition, hmem, hstage, hnotHolds⟩ :=
        hfirst.holds.exists_of_not (hsettled.decided.not_affirmed hterminal)
      obtain ⟨hvalued, hpursued⟩ := hexplored condition hmem
      cases hvalue : kb.effectiveValue board.memory condition with
      | none => exact absurd hvalue hvalued
      | some truth =>
        cases truth with
        | holds => exact absurd hvalue hnotHolds
        | fails =>
          have hrejects := haccounted.rejects_of_effectiveValue hvalue
          exact ⟨condition, .direct hmem, hstage.derivable,
            h.refuted_of_rejects hstage.derivable hrejects⟩
        | unknown =>
          have hfinding := hboard.finding_of_effectiveValue hvalue
          have hnot : ¬ kb.Assigned assignment condition :=
            not_assigned (h.isDerived_of_unknown hfinding)
          obtain ⟨earlier, hearlier, other, hother, hbodyOther⟩ := hstage.exists_rule hnot
          obtain ⟨first, hle, hfirstOther⟩ := exists_firstStage hbodyOther
          have hunfiredOther := hsettled.not_fired_of_unknown hboard hvalue hother
          have hpath' : ∀ above ∈ id :: path,
              ¬ (kb.rule above).BodyHolds (kb.Stage (kb.Assigned assignment) first) := by
            refine List.forall_mem_cons.mpr ⟨hfirst.least first (by omega), ?_⟩
            intro above habove hholds
            exact hpath above habove (hholds.mono fun _ _ => Stage.mono (by omega))
          obtain ⟨fact, hbeneath, hderivable, hrefuted⟩ := ih first (by omega) hfirstOther hpath'
            hnodup' (by rw [List.length_cons]; omega) hunfiredOther (hpursued hvalue other hother)
          exact ⟨fact, .through hmem hother hbeneath, hderivable, hrefuted⟩

end Guided

end KnowledgeBase

end Consultation
