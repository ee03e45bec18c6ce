import Consultation.Knowledge.Basic
import Mathlib.Data.Nat.Find

namespace Consultation

namespace Rule

/-- The body of a rule holds for a property of facts when the conditions, joined
    by the combinator, have it. -/
def BodyHolds (rule : Rule) (holds : Fact → Prop) : Prop :=
  match rule.combinator with
  | .all => ∀ condition ∈ rule.conditions, holds condition
  | .any => ∃ condition ∈ rule.conditions, holds condition

/-- The body of a rule fails for a property of facts when the conditions that
    have it keep the body from holding: one is enough under `all`, and under
    `any` it takes all of them. -/
def BodyFails (rule : Rule) (fails : Fact → Prop) : Prop :=
  match rule.combinator with
  | .all => ∃ condition ∈ rule.conditions, fails condition
  | .any => ∀ condition ∈ rule.conditions, fails condition

/-- Only what is said of the rule's own conditions matters. -/
theorem BodyHolds.mono {rule : Rule} {p q : Fact → Prop} (h : rule.BodyHolds p)
    (himp : ∀ condition ∈ rule.conditions, p condition → q condition) : rule.BodyHolds q := by
  unfold BodyHolds at h ⊢
  split at h
  · exact fun condition hmem => himp condition hmem (h condition hmem)
  · obtain ⟨condition, hmem, hp⟩ := h
    exact ⟨condition, hmem, himp condition hmem hp⟩

theorem BodyFails.mono {rule : Rule} {p q : Fact → Prop} (h : rule.BodyFails p)
    (himp : ∀ condition ∈ rule.conditions, p condition → q condition) : rule.BodyFails q := by
  unfold BodyFails at h ⊢
  split at h
  · obtain ⟨condition, hmem, hp⟩ := h
    exact ⟨condition, hmem, himp condition hmem hp⟩
  · exact fun condition hmem => himp condition hmem (h condition hmem)

/-- A body that holds for one property and fails for another has a condition
    with both. Properties that exclude each other therefore exclude each other
    for bodies. -/
theorem BodyHolds.exists_of_bodyFails {rule : Rule} {p q : Fact → Prop} (hholds : rule.BodyHolds p)
    (hfails : rule.BodyFails q) : ∃ condition ∈ rule.conditions, p condition ∧ q condition := by
  unfold BodyHolds at hholds
  unfold BodyFails at hfails
  cases hcombinator : rule.combinator with
  | all =>
    simp only [hcombinator] at hholds hfails
    obtain ⟨condition, hmem, hq⟩ := hfails
    exact ⟨condition, hmem, hholds condition hmem, hq⟩
  | any =>
    simp only [hcombinator] at hholds hfails
    obtain ⟨condition, hmem, hp⟩ := hholds
    exact ⟨condition, hmem, hp, hfails condition hmem⟩

/-- A body that holds for one property and not for another has a condition that
    makes the difference. -/
theorem BodyHolds.exists_of_not {rule : Rule} {p q : Fact → Prop} (h : rule.BodyHolds p)
    (hnot : ¬ rule.BodyHolds q) : ∃ condition ∈ rule.conditions, p condition ∧ ¬ q condition := by
  by_contra hnone
  refine hnot (h.mono fun condition hmem hp => ?_)
  by_contra hq
  exact hnone ⟨condition, hmem, hp, hq⟩

/-- A body that does not hold for a property fails for its negation. -/
theorem bodyFails_not {rule : Rule} {p : Fact → Prop} (h : ¬ rule.BodyHolds p) :
    rule.BodyFails fun condition => ¬ p condition := by
  unfold BodyHolds at h
  unfold BodyFails
  cases hcombinator : rule.combinator with
  | all =>
    simp only [hcombinator] at h ⊢
    push Not at h
    exact h
  | any =>
    simp only [hcombinator] at h ⊢
    push Not at h
    exact h

theorem bodyHolds_not {rule : Rule} {p : Fact → Prop} (h : ¬ rule.BodyFails p) :
    rule.BodyHolds fun condition => ¬ p condition := by
  by_contra hnot
  refine h ((bodyFails_not hnot).mono fun condition _ hp => ?_)
  exact not_not.mp hp

end Rule

namespace KnowledgeBase

/-- The facts that follow from given ones: the least set that has the given
    facts in it, and with the body of a rule also its action. -/
inductive Derivable (kb : KnowledgeBase) (given : Fact → Prop) : Fact → Prop where
  | given {fact : Fact} (h : given fact) : Derivable kb given fact
  | all {id : kb.Id} (hcombinator : (kb.rule id).combinator = .all)
      (h : ∀ condition ∈ (kb.rule id).conditions, Derivable kb given condition) :
      Derivable kb given (kb.rule id).action
  | any {id : kb.Id} (hcombinator : (kb.rule id).combinator = .any) {condition : Fact}
      (hmem : condition ∈ (kb.rule id).conditions) (h : Derivable kb given condition) :
      Derivable kb given (kb.rule id).action

/-- The body of a rule is derivable when it holds of the derivable facts. -/
def DerivableBody (kb : KnowledgeBase) (given : Fact → Prop) (id : kb.Id) : Prop :=
  (kb.rule id).BodyHolds (kb.Derivable given)

variable {kb : KnowledgeBase} {given : Fact → Prop}

theorem DerivableBody.action {id : kb.Id} (h : kb.DerivableBody given id) :
    kb.Derivable given (kb.rule id).action := by
  unfold DerivableBody Rule.BodyHolds at h
  split at h
  · next hcombinator => exact .all hcombinator h
  · next hcombinator =>
    obtain ⟨condition, hmem, hderivable⟩ := h
    exact .any hcombinator hmem hderivable

/-- The derivable facts lie in every set that has the given facts in it and is
    closed under the rules. -/
theorem Derivable.mem_of_closed {p : Fact → Prop} (hgiven : ∀ fact, given fact → p fact)
    (hclosed : ∀ id : kb.Id, (kb.rule id).BodyHolds p → p (kb.rule id).action) {fact : Fact}
    (h : kb.Derivable given fact) : p fact := by
  induction h with
  | given h => exact hgiven _ h
  | @all id hcombinator _ ih =>
    apply hclosed
    rw [Rule.BodyHolds, hcombinator]
    exact ih
  | @any id hcombinator condition hmem _ ih =>
    apply hclosed
    rw [Rule.BodyHolds, hcombinator]
    exact ⟨condition, hmem, ih⟩

/-- More given facts make no fewer facts derivable. -/
theorem Derivable.mono {more : Fact → Prop} (himp : ∀ fact, given fact → more fact) {fact : Fact}
    (h : kb.Derivable given fact) : kb.Derivable more fact := by
  apply h.mem_of_closed
  · exact fun fact hfact => .given (himp fact hfact)
  · exact fun id hbody => DerivableBody.action hbody

theorem DerivableBody.mono {more : Fact → Prop} (himp : ∀ fact, given fact → more fact)
    {id : kb.Id} (h : kb.DerivableBody given id) : kb.DerivableBody more id :=
  Rule.BodyHolds.mono h fun _ _ hderivable => hderivable.mono himp

/-- A derivable fact that was not given is the action of a rule whose body is
    derivable. -/
theorem Derivable.exists_rule {fact : Fact} (h : kb.Derivable given fact) (hnot : ¬ given fact) :
    ∃ id ∈ kb.concluding fact, kb.DerivableBody given id := by
  cases h with
  | given h => exact absurd h hnot
  | @all id hcombinator h =>
    refine ⟨id, mem_concluding.mpr rfl, ?_⟩
    rw [DerivableBody, Rule.BodyHolds, hcombinator]
    exact h
  | @any id hcombinator condition hmem h =>
    refine ⟨id, mem_concluding.mpr rfl, ?_⟩
    rw [DerivableBody, Rule.BodyHolds, hcombinator]
    exact ⟨condition, hmem, h⟩

/-- The facts that follow from given ones when the rules are applied no more
    than so many times, one after the other. -/
def Stage (kb : KnowledgeBase) (given : Fact → Prop) : Nat → Fact → Prop
  | 0, fact => given fact
  | stage + 1, fact =>
    kb.Stage given stage fact ∨
      ∃ id ∈ kb.concluding fact, (kb.rule id).BodyHolds (kb.Stage given stage)

theorem Stage.mono {lower upper : Nat} (hle : lower ≤ upper) {fact : Fact}
    (h : kb.Stage given lower fact) : kb.Stage given upper fact := by
  induction hle with
  | refl => exact h
  | step _ ih => exact .inl ih

/-- A fact that follows at a stage, but was not given, follows by a rule whose
    body held at an earlier one. -/
theorem Stage.exists_rule {stage : Nat} {fact : Fact} (h : kb.Stage given stage fact)
    (hnot : ¬ given fact) :
    ∃ earlier < stage, ∃ id ∈ kb.concluding fact,
      (kb.rule id).BodyHolds (kb.Stage given earlier) := by
  induction stage with
  | zero => exact absurd h hnot
  | succ stage ih =>
    rcases h with hbefore | hrule
    · obtain ⟨earlier, hlt, hrule⟩ := ih hbefore
      exact ⟨earlier, Nat.lt_succ_of_lt hlt, hrule⟩
    · exact ⟨stage, Nat.lt_succ_self stage, hrule⟩

theorem Stage.derivable {stage : Nat} {fact : Fact} (h : kb.Stage given stage fact) :
    kb.Derivable given fact := by
  induction stage generalizing fact with
  | zero => exact .given h
  | succ stage ih =>
    rcases h with hbefore | ⟨id, hid, hbody⟩
    · exact ih hbefore
    · have hderivable : kb.DerivableBody given id := hbody.mono fun _ _ hstage => ih hstage
      exact mem_concluding.mp hid ▸ hderivable.action

private theorem exists_stage_of_forall (conditions : List Fact)
    (h : ∀ condition ∈ conditions, ∃ stage, kb.Stage given stage condition) :
    ∃ stage, ∀ condition ∈ conditions, kb.Stage given stage condition := by
  induction conditions with
  | nil => exact ⟨0, fun _ hmem => absurd hmem List.not_mem_nil⟩
  | cons condition rest ih =>
    obtain ⟨hhead, hrest⟩ := List.forall_mem_cons.mp h
    obtain ⟨first, hfirst⟩ := hhead
    obtain ⟨second, hsecond⟩ := ih hrest
    refine ⟨max first second, List.forall_mem_cons.mpr ⟨?_, fun query hquery => ?_⟩⟩
    · exact hfirst.mono (Nat.le_max_left first second)
    · exact (hsecond query hquery).mono (Nat.le_max_right first second)

private theorem exists_stage_bodyHolds {id : kb.Id}
    (h : (kb.rule id).BodyHolds fun condition => ∃ stage, kb.Stage given stage condition) :
    ∃ stage, (kb.rule id).BodyHolds (kb.Stage given stage) := by
  unfold Rule.BodyHolds at h ⊢
  cases hcombinator : (kb.rule id).combinator with
  | all =>
    simp only [hcombinator] at h ⊢
    exact exists_stage_of_forall _ h
  | any =>
    simp only [hcombinator] at h ⊢
    obtain ⟨condition, hmem, stage, hstage⟩ := h
    exact ⟨stage, condition, hmem, hstage⟩

/-- The stage at which the body of a rule holds for the first time. -/
structure FirstStage (kb : KnowledgeBase) (given : Fact → Prop) (stage : Nat) (id : kb.Id) :
    Prop where
  holds : (kb.rule id).BodyHolds (kb.Stage given stage)
  least : ∀ earlier < stage, ¬ (kb.rule id).BodyHolds (kb.Stage given earlier)

theorem exists_firstStage {stage : Nat} {id : kb.Id}
    (h : (kb.rule id).BodyHolds (kb.Stage given stage)) :
    ∃ first ≤ stage, kb.FirstStage given first id := by
  classical
  have hexists : ∃ stage, (kb.rule id).BodyHolds (kb.Stage given stage) := ⟨stage, h⟩
  exact ⟨Nat.find hexists, Nat.find_min' hexists h, Nat.find_spec hexists,
    fun _ hlt => Nat.find_min hexists hlt⟩

/-- A derivable body holds from some stage on, since a rule has finitely many
    conditions. -/
theorem DerivableBody.exists_firstStage {id : kb.Id} (h : kb.DerivableBody given id) :
    ∃ stage, kb.FirstStage given stage id := by
  have hbody : (kb.rule id).BodyHolds fun condition => ∃ stage, kb.Stage given stage condition := by
    refine Rule.BodyHolds.mono h fun condition _ hderivable => ?_
    refine hderivable.mem_of_closed (p := fun fact => ∃ stage, kb.Stage given stage fact)
      (fun fact hfact => ⟨0, hfact⟩) fun id hbody => ?_
    obtain ⟨stage, hstage⟩ := exists_stage_bodyHolds hbody
    exact ⟨stage + 1, .inr ⟨id, mem_concluding.mpr rfl, hstage⟩⟩
  obtain ⟨stage, hstage⟩ := exists_stage_bodyHolds hbody
  obtain ⟨first, -, hfirst⟩ := KnowledgeBase.exists_firstStage hstage
  exact ⟨first, hfirst⟩

end KnowledgeBase

end Consultation
