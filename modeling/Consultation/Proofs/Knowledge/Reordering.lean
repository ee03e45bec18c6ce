import Consultation.Proofs.Derivable
import Mathlib.Data.List.Forall2

namespace Consultation

/-- Rules that differ in the order of their conditions and in their categories at
    most. -/
structure Rule.Reorders (rule other : Rule) : Prop where
  conditions : other.conditions.Perm rule.conditions
  action : other.action = rule.action
  combinator : other.combinator = rule.combinator
  goal : other.goal = rule.goal

namespace Rule.Reorders

variable {rule other : Rule} (h : rule.Reorders other)

include h

theorem bodyHolds_iff (p : Fact → Prop) : other.BodyHolds p ↔ rule.BodyHolds p := by
  unfold Rule.BodyHolds
  rw [h.combinator]
  cases rule.combinator <;> simp only [h.conditions.mem_iff]

theorem bodyFails_iff (p : Fact → Prop) : other.BodyFails p ↔ rule.BodyFails p := by
  unfold Rule.BodyFails
  rw [h.combinator]
  cases rule.combinator <;> simp only [h.conditions.mem_iff]

end Rule.Reorders

namespace KnowledgeBase

/-- Knowledge bases with the same rules in the same order, each with its conditions
    in any order. The categories and their order do not matter. -/
def Reorders (kb other : KnowledgeBase) : Prop := List.Forall₂ Rule.Reorders kb.rules other.rules

namespace Reorders

variable {kb other : KnowledgeBase}

theorem size_eq (h : kb.Reorders other) : other.size = kb.size := (List.Forall₂.length_eq h).symm

/-- The rule at the same position. -/
def counterpart (h : kb.Reorders other) (id : kb.Id) : other.Id := id.cast h.size_eq.symm

variable (h : kb.Reorders other)

include h

theorem rule_counterpart (id : kb.Id) : (kb.rule id).Reorders (other.rule (h.counterpart id)) :=
  List.Forall₂.get h id.isLt (h.counterpart id).isLt

theorem counterpart_injective : Function.Injective h.counterpart := by
  intro first second heq
  have hposition := congrArg Fin.val heq
  exact Fin.ext hposition

theorem ids_eq : other.ids = kb.ids.map h.counterpart := by
  apply List.ext_getElem
  · simp [ids, h.size_eq]
  · intro index _ _
    apply Fin.ext
    simp [ids, counterpart]

/-- A selection that tells no rule from its counterpart selects the
    counterparts. -/
theorem filter_ids (left : kb.Id → Bool) (right : other.Id → Bool)
    (hsame : ∀ id, right (h.counterpart id) = left id) :
    other.ids.filter right = (kb.ids.filter left).map h.counterpart := by
  rw [h.ids_eq, List.filter_map]
  congr 2
  exact funext hsame

theorem goals_eq : other.goals = kb.goals.map h.counterpart :=
  h.filter_ids _ _ fun id => (h.rule_counterpart id).goal

theorem concluding_eq (fact : Fact) :
    other.concluding fact = (kb.concluding fact).map h.counterpart :=
  h.filter_ids _ _ fun id => by rw [(h.rule_counterpart id).action]

/-- A property that tells no rule from its counterpart is met on both sides or on
    neither. -/
theorem any_rules_eq (p : Rule → Bool)
    (hsame : ∀ rule other : Rule, rule.Reorders other → p other = p rule) :
    other.rules.any p = kb.rules.any p := by
  have hrules : List.Forall₂ Rule.Reorders kb.rules other.rules := h
  generalize kb.rules = rules at hrules
  generalize other.rules = others at hrules
  induction hrules with
  | nil => rfl
  | cons hrule _ ih => rw [List.any_cons, List.any_cons, ih, hsame _ _ hrule]

theorem isDerived_eq (fact : Fact) : other.isDerived fact = kb.isDerived fact :=
  h.any_rules_eq _ fun _ _ hrule => by rw [hrule.action]

theorem isCondition_eq (fact : Fact) : other.isCondition fact = kb.isCondition fact :=
  h.any_rules_eq _ fun _ _ hrule => by simp only [hrule.conditions.mem_iff]

end Reorders

end KnowledgeBase

end Consultation
