import Consultation.Knowledge.Integrity
import Mathlib.Data.List.Perm.Subperm
import Mathlib.Logic.Relation

namespace Consultation

namespace KnowledgeBase

variable {kb : KnowledgeBase} {fact other : Fact}

/-- A fact depends on a derived fact when a rule that concludes the first has
    the second among its conditions. -/
def DependsOn (kb : KnowledgeBase) (fact other : Fact) : Prop :=
  (∃ id ∈ kb.concluding fact, other ∈ (kb.rule id).conditions) ∧ kb.isDerived other = true

/-- No fact depends on itself, directly or through others. -/
def Acyclic (kb : KnowledgeBase) : Prop := ∀ fact, ¬ Relation.TransGen kb.DependsOn fact fact

theorem mem_actions : fact ∈ kb.actions ↔ kb.isDerived fact = true := by
  simp [actions, isDerived]

theorem mem_actions_of_transGen (h : Relation.TransGen kb.DependsOn fact other) :
    other ∈ kb.actions := by
  obtain ⟨_, -, hdepends⟩ := Relation.TransGen.tail'_iff.mp h
  exact mem_actions.mpr hdepends.2

theorem mem_derivedConditions : other ∈ kb.derivedConditions fact ↔ kb.DependsOn fact other := by
  simp only [derivedConditions, List.mem_filter, List.mem_flatMap, decide_eq_true_eq, DependsOn,
    mem_concluding]
  refine and_congr_left fun _ => ?_
  constructor
  · rintro ⟨rule, ⟨hrule, haction⟩, hmem⟩
    obtain ⟨id, rfl⟩ := exists_id_of_mem hrule
    exact ⟨id, haction, hmem⟩
  · rintro ⟨id, haction, hmem⟩
    exact ⟨kb.rule id, ⟨kb.rule_mem id, haction⟩, hmem⟩

/-- How far a search for dependencies has come: it has found actions, none of
    them twice, and has yet to look behind those that it found last. -/
structure Searched (kb : KnowledgeBase) (found last : List Fact) : Prop where
  nodup : found.Nodup
  subset_actions : found ⊆ kb.actions
  last_subset : last ⊆ found
  closed : ∀ fact ∈ found, fact ∉ last → kb.derivedConditions fact ⊆ found

/-- What one round of the search finds. -/
private theorem mem_next {found last : List Fact} {new : Fact} :
    new ∈ ((last.flatMap kb.derivedConditions).filter (· ∉ found)).eraseDups ↔
      (∃ fact ∈ last, kb.DependsOn fact new) ∧ new ∉ found := by
  simp [List.mem_eraseDups, mem_derivedConditions]

theorem Searched.next {found last : List Fact} (h : kb.Searched found last) :
    let next := ((last.flatMap kb.derivedConditions).filter (· ∉ found)).eraseDups
    kb.Searched (found ++ next) next := by
  intro next
  refine ⟨?_, ?_, List.subset_append_right _ _, fun fact hfact hnext => ?_⟩
  · refine List.nodup_append.mpr ⟨h.nodup, nodup_eraseDups _, fun old hold new hnew => ?_⟩
    rintro rfl
    exact (mem_next.mp hnew).2 hold
  · refine List.append_subset.mpr ⟨h.subset_actions, fun new hnew => ?_⟩
    obtain ⟨⟨fact, -, hdepends⟩, -⟩ := mem_next.mp hnew
    exact mem_actions.mpr hdepends.2
  · have hfound : fact ∈ found := (List.mem_append.mp hfact).resolve_right hnext
    intro new hnew
    by_cases hold : new ∈ found
    · exact List.mem_append_left _ hold
    · have hlast : fact ∈ last := by
        by_contra hlast
        exact hold (h.closed fact hfound hlast hnew)
      exact List.mem_append_right _
        (mem_next.mpr ⟨⟨fact, hlast, mem_derivedConditions.mp hnew⟩, hold⟩)

/-- The search ends with a closed set. A round that is not the last one finds
    another action, and there are no more actions than rounds. -/
theorem Searched.closed_dependencyClosure {rounds : Nat} {found last : List Fact}
    (h : kb.Searched found last) (hrounds : kb.actions.length ≤ rounds + found.length) :
    ∀ fact ∈ kb.dependencyClosure rounds found last,
      kb.derivedConditions fact ⊆ kb.dependencyClosure rounds found last := by
  induction rounds generalizing found last with
  | zero =>
    have hall : found.Perm kb.actions :=
      (List.subperm_of_subset h.nodup h.subset_actions).perm_of_length_le (by omega)
    intro fact _ new hnew
    exact hall.mem_iff.mpr (mem_actions.mpr (mem_derivedConditions.mp hnew).2)
  | succ rounds ih =>
    rw [dependencyClosure]
    split
    · next hempty =>
      intro fact hfact new hnew
      by_cases hlast : fact ∈ last
      · by_contra hnot
        have hmem := mem_next.mpr ⟨⟨fact, hlast, mem_derivedConditions.mp hnew⟩, hnot⟩
        rw [List.isEmpty_iff.mp hempty] at hmem
        exact List.not_mem_nil hmem
      · exact h.closed fact hfact hlast hnew
    · next hnew =>
      refine ih h.next ?_
      have hpositive := List.length_pos_iff.mpr (mt List.isEmpty_iff.mpr hnew)
      rw [List.length_append]
      omega

theorem subset_dependencyClosure (rounds : Nat) (found last : List Fact) :
    found ⊆ kb.dependencyClosure rounds found last := by
  induction rounds generalizing found last with
  | zero => exact List.Subset.refl _
  | succ rounds ih =>
    rw [dependencyClosure]
    split
    · exact List.Subset.refl _
    · exact List.Subset.trans (List.subset_append_left _ _) (ih _ _)

/-- What the direct dependencies keep holds of all that the search finds. -/
theorem forall_mem_dependencyClosure {p : Fact → Prop}
    (hstep : ∀ fact other, p fact → kb.DependsOn fact other → p other) {rounds : Nat}
    {found last : List Fact} (hfound : ∀ fact ∈ found, p fact) (hlast : ∀ fact ∈ last, p fact) :
    ∀ fact ∈ kb.dependencyClosure rounds found last, p fact := by
  induction rounds generalizing found last with
  | zero => exact hfound
  | succ rounds ih =>
    rw [dependencyClosure]
    split
    · exact hfound
    · have hnext : ∀ new ∈ ((last.flatMap kb.derivedConditions).filter (· ∉ found)).eraseDups,
          p new := by
        intro new hnew
        obtain ⟨⟨fact, hmem, hdepends⟩, -⟩ := mem_next.mp hnew
        exact hstep fact new (hlast fact hmem) hdepends
      exact ih (List.forall_mem_append.mpr ⟨hfound, hnext⟩) hnext

/-- The dependencies of a fact are exactly the facts that it depends on,
    directly or through others. -/
theorem mem_dependencies :
    other ∈ kb.dependencies fact ↔ Relation.TransGen kb.DependsOn fact other := by
  have hdirect {new : Fact} :
      new ∈ (kb.derivedConditions fact).eraseDups ↔ kb.DependsOn fact new := by
    rw [List.mem_eraseDups, mem_derivedConditions]
  constructor
  · intro hmem
    refine forall_mem_dependencyClosure (p := Relation.TransGen kb.DependsOn fact)
      (fun _ _ hbefore hdepends => hbefore.tail hdepends) ?_ ?_ other hmem
    · exact fun new hnew => .single (hdirect.mp hnew)
    · exact fun new hnew => .single (hdirect.mp hnew)
  · have hsearched : kb.Searched (kb.derivedConditions fact).eraseDups
        (kb.derivedConditions fact).eraseDups :=
      ⟨nodup_eraseDups _, fun new hnew => mem_actions.mpr (hdirect.mp hnew).2,
        List.Subset.refl _, fun new hnew hnot => absurd hnew hnot⟩
    intro hdepends
    induction hdepends with
    | single hdepends => exact subset_dependencyClosure _ _ _ (hdirect.mpr hdepends)
    | tail _ hdepends ih =>
      exact hsearched.closed_dependencyClosure (Nat.le_add_right _ _) _ ih
        (mem_derivedConditions.mpr hdepends)

/-- A cycle through an action holds the actions that it depends on and that
    depend on it. -/
theorem mem_cycleThrough (hfact : fact ∈ kb.actions) :
    other ∈ kb.cycleThrough (kb.actions.map fun action => (action, kb.dependencies action)) fact ↔
      Relation.TransGen kb.DependsOn fact other ∧ Relation.TransGen kb.DependsOn other fact := by
  simp only [cycleThrough, List.mem_filter, Bool.and_eq_true, decide_eq_true_eq, List.lookup_graph _ hfact,
    Option.getD_some, mem_dependencies]
  constructor
  · rintro ⟨hother, hbelow, habove⟩
    rw [List.lookup_graph _ hother, Option.getD_some, mem_dependencies] at habove
    exact ⟨hbelow, habove⟩
  · rintro ⟨hbelow, habove⟩
    have hother := mem_actions_of_transGen hbelow
    rw [List.lookup_graph _ hother, Option.getD_some, mem_dependencies]
    exact ⟨hother, hbelow, habove⟩

/-- Actions that depend on each other lie on the same cycle. -/
theorem cycleThrough_eq (hfact : fact ∈ kb.actions) (hother : other ∈ kb.actions)
    (hbelow : Relation.TransGen kb.DependsOn fact other)
    (habove : Relation.TransGen kb.DependsOn other fact) :
    let table := kb.actions.map fun action => (action, kb.dependencies action)
    kb.cycleThrough table other = kb.cycleThrough table fact := by
  intro table
  refine List.filter_congr fun action haction => ?_
  have hmem : action ∈ kb.cycleThrough table other ↔ action ∈ kb.cycleThrough table fact := by
    rw [mem_cycleThrough hfact, mem_cycleThrough hother]
    exact and_congr ⟨hbelow.trans, habove.trans⟩ ⟨(·.trans habove), (·.trans hbelow)⟩
  simp only [cycleThrough, List.mem_filter, haction, true_and] at hmem
  exact Bool.eq_iff_iff.mpr hmem

theorem mem_cycles {path : List Fact} :
    path ∈ kb.cycles ↔ ∃ action ∈ kb.actions, path.head? = some action ∧
      path = kb.cycleThrough (kb.actions.map fun action => (action, kb.dependencies action))
        action := by
  simp only [cycles, List.mem_filterMap, Option.ite_none_right_eq_some, Option.some.injEq]
  refine exists_congr fun action => and_congr_right fun _ => ?_
  constructor
  · rintro ⟨hhead, rfl⟩
    exact ⟨hhead, rfl⟩
  · rintro ⟨hhead, rfl⟩
    exact ⟨hhead, rfl⟩

theorem cycle_mem_issues {path : List Fact} : .cycle path ∈ kb.issues ↔ path ∈ kb.cycles := by
  have hduplicate : .cycle path ∉ kb.duplicateActions := by simp [duplicateActions]
  have horphan : .cycle path ∉ kb.orphans := by simp [orphans]
  simp [issues, hduplicate, horphan]

/-- A fact that depends on itself lies on a cycle. The first action of its class, in order of
    declaration, heads the cycle that is reported for the class. -/
theorem exists_mem_cycles (hcycle : Relation.TransGen kb.DependsOn fact fact) :
    ∃ path ∈ kb.cycles, fact ∈ path := by
  have hfact := mem_actions_of_transGen hcycle
  have hself := (mem_cycleThrough hfact).mpr ⟨hcycle, hcycle⟩
  obtain ⟨first, hhead⟩ : ∃ first, (kb.cycleThrough
      (kb.actions.map fun action => (action, kb.dependencies action)) fact).head? = some first :=
    ⟨_, List.head?_eq_some_head (List.ne_nil_of_mem hself)⟩
  obtain ⟨hbelow, habove⟩ := (mem_cycleThrough hfact).mp (List.mem_of_mem_head? hhead)
  have hfirst := mem_actions_of_transGen hbelow
  rw [← cycleThrough_eq hfact hfirst hbelow habove] at hhead hself
  exact ⟨_, mem_cycles.mpr ⟨first, hfirst, hhead, rfl⟩, hself⟩

/-- No cycle is among the issues exactly when no fact depends on itself. -/
theorem acyclic_iff : kb.Acyclic ↔ ∀ path, .cycle path ∉ kb.issues := by
  simp only [cycle_mem_issues]
  constructor
  · rintro hacyclic path hpath
    obtain ⟨action, haction, hhead, rfl⟩ := mem_cycles.mp hpath
    have hmem := List.mem_of_mem_head? hhead
    exact hacyclic action ((mem_cycleThrough haction).mp hmem).1
  · intro hnone fact hcycle
    obtain ⟨path, hpath, -⟩ := exists_mem_cycles hcycle
    exact hnone path hpath

end KnowledgeBase

end Consultation
