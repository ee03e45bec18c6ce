import Consultation.Proofs.Knowledge.Ranking

namespace Consultation

/-- A search that tells items apart by where they stand, but sound ones from others by
    what they are, finds the first that is not sound. -/
theorem findSome?_zipIdx_eq_some_iff {α β : Type} {find : α × Nat → Option β} {sound : α → Prop}
    (hsound : ∀ item index, find (item, index) = none ↔ sound item) {items : List α} {start : Nat}
    {found : β} :
    (items.zipIdx start).findSome? find = some found ↔
      ∃ before item after, items = before ++ item :: after ∧ (∀ earlier ∈ before, sound earlier) ∧
        find (item, start + before.length) = some found := by
  induction items generalizing start with
  | nil => simp
  | cons item rest ih =>
    rw [List.zipIdx_cons, List.findSome?_cons]
    cases hitem : find (item, start) with
    | some other =>
      have hunsound : ¬ sound item := fun h => by
        rw [(hsound item start).mpr h] at hitem
        cases hitem
      constructor
      · intro heq
        exact ⟨[], item, rest, rfl, by simp, hitem.trans heq⟩
      · rintro ⟨before, first, after, heq, hbefore, hfirst⟩
        cases before with
        | nil =>
          obtain ⟨rfl, -⟩ := List.cons.inj heq
          exact hitem.symm.trans hfirst
        | cons earlier before =>
          obtain ⟨rfl, -⟩ := List.cons.inj heq
          exact absurd (hbefore item List.mem_cons_self) hunsound
    | none =>
      rw [ih]
      constructor
      · rintro ⟨before, first, after, rfl, hbefore, hfirst⟩
        refine ⟨item :: before, first, after, rfl, ?_, ?_⟩
        · exact List.forall_mem_cons.mpr ⟨(hsound item start).mp hitem, hbefore⟩
        · rwa [List.length_cons, Nat.add_comm before.length, ← Nat.add_assoc]
      · rintro ⟨before, first, after, heq, hbefore, hfirst⟩
        cases before with
        | nil =>
          obtain ⟨rfl, -⟩ := List.cons.inj heq
          rw [List.length_nil, Nat.add_zero, hitem] at hfirst
          cases hfirst
        | cons earlier before =>
          obtain ⟨-, rfl⟩ := List.cons.inj heq
          refine ⟨before, first, after, rfl, (List.forall_mem_cons.mp hbefore).2, ?_⟩
          rwa [List.length_cons, Nat.add_comm before.length, ← Nat.add_assoc] at hfirst

namespace Rule

/-- Something is left of the action when the blanks around it are removed, and of every
    condition. -/
theorem wellFormed_iff_trim {rule : Rule} :
    rule.WellFormed ↔ Text.trim rule.action ≠ "" ∧ rule.conditions ≠ [] ∧
      ∀ condition ∈ rule.conditions, Text.trim condition ≠ "" ∧ condition ≠ rule.action := by
  simp only [wellFormed_iff, ne_eq, Text.trim_eq_empty_iff]

/-- What a condition of a rule is refused for. A blank one is not compared with the action. -/
inductive ConditionDefect (rule : Rule) (position : Nat) (condition : Fact) : Defect → Prop where
  | blank (h : Text.trim condition = "") :
    ConditionDefect rule position condition (.emptyCondition rule.action position)
  | ownAction (hblank : Text.trim condition ≠ "") (h : condition = rule.action) :
    ConditionDefect rule position condition (.selfReference rule.action condition)

/-- What a rule is refused for. Its conditions matter once its action is not blank, and a
    condition once those before it have been found to be sound. -/
inductive HasDefect (rule : Rule) (index : Nat) : Defect → Prop where
  | blankAction (h : Text.trim rule.action = "") : HasDefect rule index (.emptyAction index)
  | noConditions (haction : Text.trim rule.action ≠ "") (h : rule.conditions = []) :
    HasDefect rule index (.noConditions rule.action)
  | condition {before after : List Fact} {condition : Fact} {defect : Defect}
    (haction : Text.trim rule.action ≠ "") (hsplit : rule.conditions = before ++ condition :: after)
    (hbefore : ∀ earlier ∈ before, Text.trim earlier ≠ "" ∧ earlier ≠ rule.action)
    (h : rule.ConditionDefect before.length condition defect) : HasDefect rule index defect

/-- What a list of rules is refused for: the defect of the first rule that has one. -/
def FirstDefect (rules : List Rule) (defect : Defect) : Prop :=
  ∃ before rule after, rules = before ++ rule :: after ∧
    (∀ earlier ∈ before, earlier.WellFormed) ∧ rule.HasDefect before.length defect

variable {rule : Rule} {defect : Defect}

theorem conditionDefect?_eq_some_iff {condition : Fact} {position : Nat} :
    rule.conditionDefect? (condition, position) = some defect ↔
      rule.ConditionDefect position condition defect := by
  unfold conditionDefect?
  split
  · next hblank =>
    rw [← Text.trim_eq_empty_iff] at hblank
    rw [Option.some.injEq]
    constructor
    · rintro rfl
      exact .blank hblank
    · rintro (_ | ⟨hsound, -⟩)
      · rfl
      · exact absurd hblank hsound
  · next hblank =>
    rw [← Text.trim_eq_empty_iff] at hblank
    split
    · next hown =>
      rw [Option.some.injEq]
      constructor
      · rintro rfl
        exact .ownAction hblank hown
      · rintro (h | _)
        · exact absurd h hblank
        · rfl
    · next hown =>
      refine iff_of_false nofun ?_
      rintro (h | ⟨-, h⟩)
      · exact hblank h
      · exact hown h

theorem defect?_eq_some_iff {index : Nat} :
    defect? (rule, index) = some defect ↔ rule.HasDefect index defect := by
  have hconditions : rule.conditions.zipIdx.findSome? rule.conditionDefect? = some defect ↔
      ∃ before condition after, rule.conditions = before ++ condition :: after ∧
        (∀ earlier ∈ before, Text.trim earlier ≠ "" ∧ earlier ≠ rule.action) ∧
        rule.ConditionDefect before.length condition defect := by
    have hsound (condition : Fact) (position : Nat) :
        rule.conditionDefect? (condition, position) = none ↔
          Text.trim condition ≠ "" ∧ condition ≠ rule.action :=
      conditionDefect?_eq_none_iff.trans (and_congr_left' (not_congr Text.trim_eq_empty_iff.symm))
    simp only [findSome?_zipIdx_eq_some_iff hsound, conditionDefect?_eq_some_iff, Nat.zero_add]
  unfold defect?
  split
  · next hblank =>
    rw [← Text.trim_eq_empty_iff] at hblank
    rw [Option.some.injEq]
    constructor
    · rintro rfl
      exact .blankAction hblank
    · rintro (_ | ⟨haction, -⟩ | ⟨haction, -, -, -⟩)
      · rfl
      all_goals exact absurd hblank haction
  · next hblank =>
    rw [← Text.trim_eq_empty_iff] at hblank
    split
    · next hempty =>
      rw [List.isEmpty_iff] at hempty
      rw [Option.some.injEq]
      constructor
      · rintro rfl
        exact .noConditions hblank hempty
      · rintro (h | _ | ⟨-, hsplit, -, -⟩)
        · exact absurd h hblank
        · rfl
        · rw [hempty] at hsplit
          simp at hsplit
    · next hempty =>
      rw [List.isEmpty_iff] at hempty
      rw [hconditions]
      constructor
      · rintro ⟨before, condition, after, hsplit, hbefore, h⟩
        exact .condition hblank hsplit hbefore h
      · rintro (h | ⟨-, h⟩ | ⟨-, hsplit, hbefore, h⟩)
        · exact absurd h hblank
        · exact absurd h hempty
        · exact ⟨_, _, _, hsplit, hbefore, h⟩

theorem firstDefect?_eq_some_iff {rules : List Rule} :
    firstDefect? rules = some defect ↔ FirstDefect rules defect := by
  unfold firstDefect? FirstDefect
  simp only [findSome?_zipIdx_eq_some_iff (fun _ _ => defect?_eq_none_iff), defect?_eq_some_iff,
    Nat.zero_add]

end Rule

namespace KnowledgeBase

/-- A document is refused for the first defect among its rules. -/
theorem ofDocument?_eq_error_iff {document : Document} {defect : Defect} :
    ofDocument? document = .error defect ↔ Rule.FirstDefect document.rules defect := by
  rw [← Rule.firstDefect?_eq_some_iff]
  unfold ofDocument?
  split
  · next other hother => rw [hother, Except.error.injEq, Option.some.injEq]
  · next hnone => exact iff_of_false nofun (by rw [hnone]; exact nofun)

/-- A document is admitted when each of its rules can be evaluated. -/
theorem exists_ofDocument?_iff {document : Document} :
    (∃ kb, ofDocument? document = .ok kb) ↔ ∀ rule ∈ document.rules, rule.WellFormed := by
  rw [← Rule.firstDefect?_eq_none_iff]
  unfold ofDocument?
  split
  · next defect hdefect => exact iff_of_false (by simp) (by rw [hdefect]; exact nofun)
  · next hnone => exact iff_of_true ⟨_, rfl⟩ hnone

end KnowledgeBase

end Consultation
