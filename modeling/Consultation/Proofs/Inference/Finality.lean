import Consultation.Proofs.Inference.OpenPath
import Consultation.Proofs.Inference.Replay
import Mathlib.Data.List.Forall2

namespace Consultation

/-- The values of a list with every absent one filled in by some value. The values that are
    there stay as they are. -/
def Completes (values : List (Option Truth)) (filled : List Truth) : Prop :=
  List.Forall₂ (fun value truth => ∀ known ∈ value, truth = known) values filled

theorem completes_map_getD (truth : Truth) (values : List (Option Truth)) :
    Completes values (values.map (·.getD truth)) := by
  refine List.forall₂_map_right_iff.mpr (List.forall₂_same.mpr fun value _ known hknown => ?_)
  rw [Option.mem_def.mp hknown, Option.getD_some]

/-- Filled in with one value throughout, a list has this value and those that it had. -/
theorem some_mem_map_getD {truth known : Truth} {values : List (Option Truth)} :
    some known ∈ (values.map (·.getD truth)).map some ↔
      some known ∈ values ∨ none ∈ values ∧ truth = known := by
  simp only [List.map_map, List.mem_map, Function.comp_apply, Option.some.injEq]
  constructor
  · rintro ⟨value, hvalue, rfl⟩
    cases value with
    | none => exact .inr ⟨hvalue, rfl⟩
    | some _ => exact .inl hvalue
  · rintro (hvalue | ⟨hvalue, rfl⟩)
    · exact ⟨some known, hvalue, rfl⟩
    · exact ⟨none, hvalue, rfl⟩

namespace Completes

variable {values : List (Option Truth)} {filled : List Truth}

theorem mem_of_some_mem (h : Completes values filled) {known : Truth}
    (hknown : some known ∈ values) : known ∈ filled := by
  induction h with
  | nil => cases hknown
  | cons hvalue _ ih =>
    rcases List.mem_cons.mp hknown with rfl | hrest
    · exact List.mem_cons.mpr (.inl (hvalue known rfl).symm)
    · exact List.mem_cons_of_mem _ (ih hrest)

/-- Where nothing is absent, there is nothing to choose. -/
theorem map_some_eq (h : Completes values filled) (hfull : none ∉ values) :
    filled.map some = values := by
  induction h with
  | nil => rfl
  | @cons value truth _ _ hvalue _ ih =>
    obtain ⟨hsome, hrest⟩ := not_or.mp (mt List.mem_cons.mpr hfull)
    obtain ⟨known, rfl⟩ := Option.ne_none_iff_exists'.mp (Ne.symm hsome)
    rw [List.map_cons, ih hrest, hvalue known rfl]

end Completes

/-- The status of a rule with a condition whose value decides it. -/
def Combinator.decided : Combinator → RuleStatus
  | all => .blocked
  | any => .fired

/-- The status of a rule with conditions that all have the opposite value. -/
def Combinator.exhausted : Combinator → RuleStatus
  | all => .fired
  | any => .blocked

/-- What the values of all conditions make of a rule when none of them can change any more. -/
def Combinator.outcome (combinator : Combinator) (filled : List Truth) : RuleStatus :=
  if combinator.deciding ∈ filled then combinator.decided
  else if .unknown ∈ filled then .uncertain
  else combinator.exhausted

theorem Combinator.deciding_ne_unknown (combinator : Combinator) :
    combinator.deciding ≠ .unknown := by
  cases combinator <;> exact nofun

/-- What makes decisions final. One value decides on its own, wherever it stands, and without it
    nothing is decided while a value is absent. A list that is decided then stays so however it
    is filled in. One that is not can be filled in both ways: with the value that decides it, and
    with `unknown`, which does not. -/
theorem eq_some_iff_forall_completes {classify : List (Option Truth) → Option RuleStatus}
    {combinator : Combinator} {values : List (Option Truth)}
    (hdecides : ∀ others,
      classify others = some combinator.decided ↔ some combinator.deciding ∈ others)
    (hwaits : some combinator.deciding ∉ values → none ∈ values → classify values = none)
    (status : RuleStatus) :
    classify values = some status ↔
      ∀ filled, Completes values filled → classify (filled.map some) = some status := by
  by_cases hdeciding : some combinator.deciding ∈ values
  · have hfilled {filled : List Truth} (h : Completes values filled) :
        classify (filled.map some) = classify values := by
      rw [(hdecides values).mpr hdeciding]
      exact (hdecides _).mpr (List.mem_map_of_mem (h.mem_of_some_mem hdeciding))
    constructor
    · exact fun h filled hcompletes => (hfilled hcompletes).trans h
    · intro h
      have hcompletes := completes_map_getD .unknown values
      exact (hfilled hcompletes).symm.trans (h _ hcompletes)
  by_cases habsent : none ∈ values
  · rw [hwaits hdeciding habsent]
    refine iff_of_false nofun fun h => ?_
    have hdecided : some combinator.deciding ∈
        (values.map (·.getD combinator.deciding)).map some :=
      some_mem_map_getD.mpr (.inr ⟨habsent, rfl⟩)
    have hundecided : some combinator.deciding ∉ (values.map (·.getD .unknown)).map some := by
      rw [some_mem_map_getD]
      rintro (hmem | ⟨-, heq⟩)
      · exact hdeciding hmem
      · exact combinator.deciding_ne_unknown heq.symm
    have hstatus := h _ (completes_map_getD combinator.deciding values)
    rw [(hdecides _).mpr hdecided, ← h _ (completes_map_getD .unknown values)] at hstatus
    exact hundecided ((hdecides _).mp hstatus.symm)
  · constructor
    · exact fun h filled hcompletes => (hcompletes.map_some_eq habsent).symm ▸ h
    · intro h
      have hcompletes := completes_map_getD .unknown values
      rw [← hcompletes.map_some_eq habsent]
      exact h _ hcompletes

theorem classifyAll_eq_decided_iff (values : List (Option Truth)) :
    classifyAll values = some Combinator.all.decided ↔ some Combinator.all.deciding ∈ values := by
  have hfalse (hall : ∀ value ∈ values, value = some Truth.holds) : some Truth.fails ∉ values :=
    fun hmem => nomatch hall _ hmem
  simp only [classifyAll, Combinator.decided, Combinator.deciding, List.all_eq_true,
    decide_eq_true_eq]
  split
  · next hall => exact iff_of_false (by decide) (hfalse hall)
  · split
    · next hmem => exact iff_of_true rfl hmem
    · next hmem =>
      refine iff_of_false ?_ hmem
      split <;> decide

theorem classifyAll_eq_none {values : List (Option Truth)}
    (hdeciding : some Combinator.all.deciding ∉ values) (habsent : none ∈ values) :
    classifyAll values = none := by
  have hholds : ¬ ∀ value ∈ values, value = some Truth.holds := fun hall => nomatch hall _ habsent
  have hsome : ¬ ∀ value ∈ values, value.isSome = true := fun hall => nomatch hall _ habsent
  simp only [classifyAll, List.all_eq_true, decide_eq_true_eq]
  rw [if_neg hholds, if_neg (show some .fails ∉ values from hdeciding), if_neg hsome]

theorem classifyAny_eq_decided_iff (isOpen : Fact → Bool) (conditions : List Fact)
    (values : List (Option Truth)) :
    classifyAny isOpen conditions values = some Combinator.any.decided ↔
      some Combinator.any.deciding ∈ values := by
  simp only [classifyAny, Combinator.decided, Combinator.deciding]
  split
  · next hmem => exact iff_of_true rfl hmem
  · next hmem =>
    refine iff_of_false ?_ hmem
    split
    · decide
    · split <;> decide

/-- Every value is the value of a condition, so that none is overlooked. -/
theorem classifyAny_eq_none {isOpen : Fact → Bool} {conditions : List Fact}
    {values : List (Option Truth)} (hlength : values.length = conditions.length)
    (hdeciding : some Combinator.any.deciding ∉ values) (habsent : none ∈ values) :
    classifyAny isOpen conditions values = none := by
  have hvalues : none ∈ (conditions.zip values).map Prod.snd := by
    rw [List.map_snd_zip hlength.le]
    exact habsent
  obtain ⟨pair, hpair, hvalue⟩ := List.mem_map.mp hvalues
  have hwaiting : (conditions.zip values).any fun pair =>
      pair.2 = none || (pair.2 = some .unknown && isOpen pair.1) :=
    List.any_eq_true.mpr ⟨pair, hpair, by simp [hvalue]⟩
  simp only [classifyAny]
  rw [if_neg (show some .holds ∉ values from hdeciding), if_pos hwaiting]

/-- Where no value is absent, something is decided. -/
theorem classifyAll_map_some (filled : List Truth) :
    classifyAll (filled.map some) = some (Combinator.all.outcome filled) := by
  have hsome : (filled.map some).all (·.isSome) = true := by simp
  have hall : (filled.map some).all (· = some .holds) = true ↔
      .fails ∉ filled ∧ .unknown ∉ filled := by
    simp only [List.all_map, List.all_eq_true, Function.comp_apply, decide_eq_true_eq,
      Option.some.injEq]
    constructor
    · intro h
      exact ⟨fun hmem => absurd (h .fails hmem) (by decide),
        fun hmem => absurd (h .unknown hmem) (by decide)⟩
    · rintro ⟨hfails, hunknown⟩ truth hmem
      cases truth with
      | holds => rfl
      | fails => exact absurd hmem hfails
      | unknown => exact absurd hmem hunknown
  have hfails : some .fails ∈ filled.map some ↔ .fails ∈ filled := by simp
  simp only [classifyAll, hsome, if_true, hall, hfails, Combinator.outcome, Combinator.deciding,
    Combinator.decided, Combinator.exhausted]
  by_cases hmem : .fails ∈ filled
  · simp [hmem]
  · by_cases hunknown : .unknown ∈ filled <;> simp [hmem, hunknown]

/-- Where no value is absent, only an `unknown` that may still change keeps a rule waiting that
    needs any one of its conditions. -/
theorem classifyAny_map_some {isOpen : Fact → Bool} {conditions : List Fact}
    {filled : List Truth} (hlength : filled.length = conditions.length) :
    classifyAny isOpen conditions (filled.map some) =
      if .holds ∉ filled ∧
          ∃ pair ∈ conditions.zip filled, pair.2 = .unknown ∧ isOpen pair.1 = true then none
      else some (Combinator.any.outcome filled) := by
  have hholds : some .holds ∈ filled.map some ↔ .holds ∈ filled := by simp
  have hvalues : (conditions.zip filled).map Prod.snd = filled := List.map_snd_zip hlength.le
  have hopen : ((conditions.zip (filled.map some)).any fun pair =>
        pair.2 = none || (pair.2 = some .unknown && isOpen pair.1)) = true ↔
      ∃ pair ∈ conditions.zip filled, pair.2 = .unknown ∧ isOpen pair.1 = true := by
    simp [List.zip_map_right, List.any_map]
  have hunknown : ((conditions.zip (filled.map some)).any (·.2 = some .unknown)) = true ↔
      .unknown ∈ filled := by
    rw [← congrArg (Truth.unknown ∈ ·) hvalues, List.mem_map]
    simp [List.zip_map_right, List.any_map]
  simp only [classifyAny, hholds, hopen, hunknown, Combinator.outcome, Combinator.deciding,
    Combinator.decided, Combinator.exhausted]
  by_cases hmem : .holds ∈ filled
  · simp [hmem]
  · by_cases hwaits : ∃ pair ∈ conditions.zip filled, pair.2 = .unknown ∧ isOpen pair.1 = true
    · simp [hmem, hwaits]
    · simp only [hmem, hwaits, if_false, not_false_eq_true, and_false]
      exact (apply_ite some _ _ _).symm

namespace KnowledgeBase

/-- Decisions are final, and as early as can be. Something is decided about a rule exactly when it
    would be decided in the same way whatever values the conditions without one were given, be it
    `unknown`. That is so of lists of any length, of every rule of every knowledge base, and
    whatever statuses the rules have that conclude the conditions. Where every condition has a
    value, the status follows from the values, unless a rule that needs any one of its conditions
    has none that holds and one that is `unknown` and still open. -/
theorem decisions_final (kb : KnowledgeBase) (table : RuleTable kb.size) :
    (∀ values status, classifyAll values = some status ↔
      ∀ filled, Completes values filled → classifyAll (filled.map some) = some status) ∧
    (∀ (rule : Rule) (values : List (Option Truth)), values.length = rule.conditions.length →
      ∀ status, classifyAny (kb.isOpen table) rule.conditions values = some status ↔
        ∀ filled, Completes values filled →
          classifyAny (kb.isOpen table) rule.conditions (filled.map some) = some status) ∧
    (∀ (id : kb.Id) (values : List (Option Truth)),
      values.length = (kb.rule id).conditions.length →
      ∀ status, kb.classify table id values = some status ↔
        ∀ filled, Completes values filled →
          kb.classify table id (filled.map some) = some status) ∧
    (∀ filled : List Truth,
      classifyAll (filled.map some) = some (Combinator.all.outcome filled)) ∧
    ∀ (rule : Rule) (filled : List Truth), filled.length = rule.conditions.length →
      classifyAny (kb.isOpen table) rule.conditions (filled.map some) =
        if .holds ∉ filled ∧ ∃ pair ∈ rule.conditions.zip filled,
            pair.2 = .unknown ∧ kb.isOpen table pair.1 = true then none
        else some (Combinator.any.outcome filled) := by
  have hall (values : List (Option Truth)) (status : RuleStatus) :
      classifyAll values = some status ↔
        ∀ filled, Completes values filled → classifyAll (filled.map some) = some status :=
    eq_some_iff_forall_completes classifyAll_eq_decided_iff classifyAll_eq_none status
  have hany (conditions : List Fact) (values : List (Option Truth))
      (hlength : values.length = conditions.length) (status : RuleStatus) :=
    eq_some_iff_forall_completes (classifyAny_eq_decided_iff (kb.isOpen table) conditions)
      (classifyAny_eq_none hlength) status
  refine ⟨hall, fun rule => hany rule.conditions, fun id values hlength status => ?_,
    classifyAll_map_some, fun _ _ => classifyAny_map_some⟩
  simp only [classify]
  cases (kb.rule id).combinator with
  | all => exact hall values status
  | any => exact hany _ values hlength status

/-- One value that holds is enough, and without it a condition that has no value keeps the rule
    waiting. -/
theorem premised_decisions_final :
    let rule := Rule.needsAny ["p", "x"] "g"
    let table := (premisedBoard .pending).table
    [none, some Truth.holds].length = rule.conditions.length ∧
    (∀ filled, Completes [none, some .holds] filled →
      classifyAny (premised.isOpen table) rule.conditions (filled.map some) = some .fired) ∧
    ¬ ∀ filled, Completes [some .unknown, none] filled →
      classifyAny (premised.isOpen table) rule.conditions (filled.map some) = some .fired := by
  intro rule table
  obtain ⟨-, hany, -⟩ := decisions_final premised table
  refine ⟨rfl, (hany rule [none, some .holds] rfl .fired).mp (by decide +kernel), fun h => ?_⟩
  exact absurd ((hany rule [some .unknown, none] rfl .fired).mpr h) (by decide +kernel)

end KnowledgeBase

end Consultation
