import Consultation.Diagnostic
import Consultation.Rule

namespace Consultation

/-- Why a list of rules is refused. Rules are counted from zero, and so are
    the conditions of a rule. -/
inductive Defect where
  | emptyAction (index : Nat)
  | noConditions (rule : Fact)
  | emptyCondition (rule : Fact) (position : Nat)
  | selfReference (rule condition : Fact)
  deriving DecidableEq, Repr

def Defect.diagnostic : Defect → Diagnostic
  | emptyAction index =>
    { message := "rule #" ++ toString index ++ " has an empty action"
      code := "visa::knowledge::empty_action"
      help := "Every rule must conclude a non-empty fact key." }
  | noConditions rule =>
    { message := "rule \"" ++ rule ++ "\" has no conditions"
      code := "visa::knowledge::no_conditions"
      help := "A rule needs at least one condition to be evaluated." }
  | emptyCondition rule position =>
    { message := "rule \"" ++ rule ++ "\" has an empty condition at position " ++ toString position
      code := "visa::knowledge::empty_condition"
      help := "Remove the blank condition or give it a fact key." }
  | selfReference rule condition =>
    { message := "rule \"" ++ rule ++ "\" lists its own conclusion \"" ++ condition ++
        "\" as a condition"
      code := "visa::knowledge::self_reference"
      help := "A rule cannot depend on the fact it concludes. Split it into two rules." }

namespace Rule

/-- The defect of one condition, if it has one. A blank condition is reported
    as blank even where the action is the same blank text. -/
def conditionDefect? (rule : Rule) (condition : Fact × Nat) : Option Defect :=
  if Text.IsBlankText condition.1 then some (.emptyCondition rule.action condition.2)
  else if condition.1 = rule.action then some (.selfReference rule.action condition.1)
  else none

/-- The first defect of a rule: its action is looked at first, then whether
    there are conditions, then each condition from left to right. -/
def defect? (rule : Rule × Nat) : Option Defect :=
  if Text.IsBlankText rule.1.action then some (.emptyAction rule.2)
  else if rule.1.conditions.isEmpty then some (.noConditions rule.1.action)
  else rule.1.conditions.zipIdx.findSome? rule.1.conditionDefect?

/-- The first defect of a list of rules, in declaration order. -/
def firstDefect? (rules : List Rule) : Option Defect := rules.zipIdx.findSome? defect?

private theorem forall_mem_zipIdx {α : Type} {p : α → Prop} {items : List α} {start : Nat} :
    (∀ entry ∈ items.zipIdx start, p entry.1) ↔ ∀ item ∈ items, p item := by
  induction items generalizing start with
  | nil => simp
  | cons item rest ih =>
    rw [List.zipIdx_cons, List.forall_mem_cons, List.forall_mem_cons, ih]

theorem conditionDefect?_eq_none_iff {rule : Rule} {condition : Fact × Nat} :
    rule.conditionDefect? condition = none ↔
      ¬ Text.IsBlankText condition.1 ∧ condition.1 ≠ rule.action := by
  unfold conditionDefect?
  split <;> simp_all

/-- Where a rule stands does not matter to whether it has a defect. -/
theorem defect?_eq_none_iff {rule : Rule × Nat} : defect? rule = none ↔ rule.1.WellFormed := by
  unfold defect?
  split
  · next hblank => simp only [reduceCtorEq, false_iff]; exact fun h => h.action_not_blank hblank
  · next hblank =>
    split
    · next hempty =>
      simp only [reduceCtorEq, false_iff]
      exact fun h => h.conditions_ne_nil (List.isEmpty_iff.mp hempty)
    · next hempty =>
      simp only [List.findSome?_eq_none_iff, conditionDefect?_eq_none_iff]
      have hall := @forall_mem_zipIdx _ (fun c => ¬ Text.IsBlankText c ∧ c ≠ rule.1.action)
        rule.1.conditions 0
      rw [hall, wellFormed_iff]
      constructor
      · exact fun h => ⟨hblank, fun hnil => hempty (List.isEmpty_iff.mpr hnil), h⟩
      · exact fun h => h.2.2

/-- A list of rules has no defect exactly when each of its rules can be
    evaluated. -/
theorem firstDefect?_eq_none_iff {rules : List Rule} :
    firstDefect? rules = none ↔ ∀ rule ∈ rules, rule.WellFormed := by
  simp only [firstDefect?, List.findSome?_eq_none_iff, defect?_eq_none_iff]
  exact forall_mem_zipIdx

end Rule

end Consultation
