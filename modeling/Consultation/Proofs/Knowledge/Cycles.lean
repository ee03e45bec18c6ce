import Consultation.Proofs.Knowledge.Appearance
import Consultation.Proofs.Knowledge.Dependency
import Mathlib.Data.List.Nodup
import Mathlib.Data.Set.Subsingleton

namespace Consultation

/-- The actions on a cycle that is an issue. -/
def Issue.path? : Issue → Option (List Fact)
  | cycle path => some path
  | _ => none

namespace KnowledgeBase

/-- Some rule that concludes the first action is declared before all that conclude the other. -/
def DeclaredBefore (kb : KnowledgeBase) (action other : Fact) : Prop :=
  AppearsBefore (kb.rules.map (·.action)) action other

theorem nodup_actions (kb : KnowledgeBase) : kb.actions.Nodup := nodup_eraseDups _

theorem pairwise_actions (kb : KnowledgeBase) : kb.actions.Pairwise kb.DeclaredBefore :=
  pairwise_eraseDups _

/-- Facts that depend on each other, directly or through others. A fact is counted as
    depending on itself. -/
def Interlocked (kb : KnowledgeBase) (fact other : Fact) : Prop :=
  Relation.ReflTransGen kb.DependsOn fact other ∧ Relation.ReflTransGen kb.DependsOn other fact

/-- A class of two facts or more that depend on each other, with all others that do so too. -/
structure Tangle (kb : KnowledgeBase) (members : Set Fact) : Prop where
  several : members.Nontrivial
  mem_iff : ∀ fact ∈ members, ∀ other, other ∈ members ↔ kb.Interlocked fact other

variable {kb : KnowledgeBase} {fact other : Fact} {path : List Fact}

theorem nontrivial_iff_one_lt_length {α : Type} {items : List α} (h : items.Nodup) :
    {item | item ∈ items}.Nontrivial ↔ 1 < items.length := by
  rcases items with _ | ⟨first, _ | ⟨second, rest⟩⟩
  · simp
  · simp
  · refine iff_of_true ⟨first, by simp, second, by simp, ?_⟩ (by simp)
    rintro rfl
    simp at h

/-- A rule does not have its own action as a condition, so that a cycle leads through another
    action. -/
theorem DependsOn.ne (h : kb.DependsOn fact other) : other ≠ fact := by
  obtain ⟨⟨id, hid, hcondition⟩, -⟩ := h
  rw [← mem_concluding.mp hid]
  exact (kb.wellFormed _ (kb.rule_mem id)).condition_ne_action other hcondition

theorem Interlocked.transGen (h : kb.Interlocked fact other) (hne : fact ≠ other) :
    Relation.TransGen kb.DependsOn fact other ∧ Relation.TransGen kb.DependsOn other fact :=
  ⟨(Relation.reflTransGen_iff_eq_or_transGen.mp h.1).resolve_left hne.symm,
    (Relation.reflTransGen_iff_eq_or_transGen.mp h.2).resolve_left hne⟩

theorem interlocked_iff :
    kb.Interlocked fact other ↔
      other = fact ∨ other ∈ kb.dependencies fact ∧ fact ∈ kb.dependencies other := by
  simp only [mem_dependencies]
  constructor
  · intro h
    by_cases heq : other = fact
    · exact .inl heq
    · exact .inr (h.transGen (Ne.symm heq))
  · rintro (rfl | ⟨hbelow, habove⟩)
    · exact ⟨.refl, .refl⟩
    · exact ⟨hbelow.to_reflTransGen, habove.to_reflTransGen⟩

instance (kb : KnowledgeBase) (fact other : Fact) : Decidable (kb.Interlocked fact other) :=
  decidable_of_iff _ interlocked_iff.symm

theorem exists_interlocked_of_transGen (h : Relation.TransGen kb.DependsOn fact fact) :
    ∃ other, other ≠ fact ∧ kb.Interlocked fact other := by
  obtain ⟨other, hdepends, hback⟩ := Relation.TransGen.head'_iff.mp h
  exact ⟨other, hdepends.ne, .single hdepends, hback⟩

section

variable (hpath : path ∈ kb.cycles)

include hpath

theorem sublist_of_mem_cycles : path.Sublist kb.actions := by
  obtain ⟨action, -, -, rfl⟩ := mem_cycles.mp hpath
  exact List.filter_sublist

theorem transGen_of_mem_cycles (hfact : fact ∈ path) :
    Relation.TransGen kb.DependsOn fact fact := by
  obtain ⟨action, haction, -, rfl⟩ := mem_cycles.mp hpath
  obtain ⟨hbelow, habove⟩ := (mem_cycleThrough haction).mp hfact
  exact habove.trans hbelow

theorem mem_iff_of_mem_cycles (hfact : fact ∈ path) :
    other ∈ path ↔ kb.Interlocked fact other := by
  obtain ⟨action, haction, -, rfl⟩ := mem_cycles.mp hpath
  rw [mem_cycleThrough haction] at hfact ⊢
  obtain ⟨hbelow, habove⟩ := hfact
  constructor
  · rintro ⟨hother, hback⟩
    exact ⟨(habove.trans hother).to_reflTransGen, (hback.trans hbelow).to_reflTransGen⟩
  · rintro ⟨hother, hback⟩
    exact ⟨hbelow.trans_left hother, habove.trans_right hback⟩

/-- The path of a cycle is a class, written down in order of declaration. -/
theorem tangle_of_mem_cycles : kb.Tangle {fact | fact ∈ path} := by
  refine ⟨?_, fun fact hfact other => mem_iff_of_mem_cycles hpath hfact⟩
  obtain ⟨action, -, hhead, -⟩ := mem_cycles.mp hpath
  have haction := List.mem_of_mem_head? hhead
  obtain ⟨other, hne, hinterlocked⟩ :=
    exists_interlocked_of_transGen (transGen_of_mem_cycles hpath haction)
  exact ⟨action, haction, other, (mem_iff_of_mem_cycles hpath haction).mpr hinterlocked, hne.symm⟩

end

theorem eq_of_mem_cycles {later : List Fact} (hpath : path ∈ kb.cycles) (hlater : later ∈ kb.cycles)
    (hfact : fact ∈ path) (hfact' : fact ∈ later) : later = path := by
  obtain ⟨first, hfirst, -, rfl⟩ := mem_cycles.mp hpath
  obtain ⟨second, hsecond, -, rfl⟩ := mem_cycles.mp hlater
  obtain ⟨hbelow, habove⟩ := (mem_cycleThrough hfirst).mp hfact
  obtain ⟨hbelow', habove'⟩ := (mem_cycleThrough hsecond).mp hfact'
  exact cycleThrough_eq hfirst hsecond (hbelow.trans habove') (hbelow'.trans habove)

/-- Of two paths in a list, none has an action of the other, and the first action of the one is
    declared before that of the other. -/
def Parted (kb : KnowledgeBase) (path later : List Fact) : Prop :=
  path.Disjoint later ∧ ∀ first ∈ path.head?, ∀ other ∈ later.head?, kb.DeclaredBefore first other

theorem pairwise_cycles (kb : KnowledgeBase) : kb.cycles.Pairwise kb.Parted := by
  rw [cycles, List.pairwise_filterMap]
  refine kb.pairwise_actions.imp_of_mem fun {first second} hfirst hsecond hbefore => ?_
  intro path hpath later hlater
  obtain ⟨hhead, hpath⟩ := Option.ite_none_right_eq_some.mp hpath
  obtain ⟨hhead', hlater⟩ := Option.ite_none_right_eq_some.mp hlater
  obtain rfl := Option.some.inj hpath
  obtain rfl := Option.some.inj hlater
  refine ⟨fun fact hfact hfact' => ?_, fun action haction other hother => ?_⟩
  · have hsame := eq_of_mem_cycles (mem_cycles.mpr ⟨first, hfirst, hhead, rfl⟩)
      (mem_cycles.mpr ⟨second, hsecond, hhead', rfl⟩) hfact hfact'
    rw [hsame, hhead] at hhead'
    obtain rfl := Option.some.inj hhead'
    exact Nat.lt_irrefl _ hbefore
  · obtain rfl := Option.mem_unique haction hhead
    obtain rfl := Option.mem_unique hother hhead'
    exact hbefore

/-- Every class is written down as the path of a cycle. -/
theorem Tangle.exists_mem_cycles {members : Set Fact} (h : kb.Tangle members) :
    ∃ path ∈ kb.cycles, {fact | fact ∈ path} = members := by
  obtain ⟨fact, hfact, other, hother, hne⟩ := h.several
  obtain ⟨hbelow, habove⟩ := ((h.mem_iff fact hfact other).mp hother).transGen hne
  obtain ⟨path, hpath, hmem⟩ := kb.exists_mem_cycles (hbelow.trans habove)
  refine ⟨path, hpath, Set.ext fun fact' => ?_⟩
  rw [h.mem_iff fact hfact, ← mem_iff_of_mem_cycles hpath hmem]
  rfl

/-- Each class is written down once. -/
theorem tangle_iff_existsUnique {members : Set Fact} :
    kb.Tangle members ↔ ∃! path, path ∈ kb.cycles ∧ {fact | fact ∈ path} = members := by
  constructor
  · intro h
    obtain ⟨path, hpath, rfl⟩ := h.exists_mem_cycles
    refine ⟨path, ⟨hpath, rfl⟩, fun later ⟨hlater, hsame⟩ => ?_⟩
    obtain ⟨fact, hfact, -⟩ := h.several
    exact eq_of_mem_cycles hpath hlater hfact (Set.ext_iff.mp hsame fact |>.mpr hfact)
  · rintro ⟨path, ⟨hpath, rfl⟩, -⟩
    exact tangle_of_mem_cycles hpath

theorem cycles_ne_nil_iff : kb.cycles ≠ [] ↔ ∃ members, kb.Tangle members := by
  constructor
  · intro h
    obtain ⟨path, hpath⟩ := List.exists_mem_of_ne_nil _ h
    exact ⟨_, tangle_of_mem_cycles hpath⟩
  · rintro ⟨members, h⟩
    obtain ⟨path, hpath, -⟩ := h.exists_mem_cycles
    exact List.ne_nil_of_mem hpath

theorem nodup_cycles (kb : KnowledgeBase) : kb.cycles.Nodup := by
  refine kb.pairwise_cycles.imp_of_mem fun {path later} hpath _ hparted heq => ?_
  obtain ⟨action, -, hhead, -⟩ := mem_cycles.mp hpath
  have hmem := List.mem_of_mem_head? hhead
  exact hparted.1 hmem (heq ▸ hmem)

section Components

/-- The strongly connected components of the dependencies among actions: a partition of the
    actions into classes, single ones included. The components come in any order, and so do
    the members of each. -/
structure IsComponents (kb : KnowledgeBase) (components : List (List Fact)) : Prop where
  perm : components.flatten.Perm kb.actions
  ne_nil : [] ∉ components
  mem_iff : ∀ component ∈ components, ∀ fact ∈ component, ∀ other ∈ kb.actions,
    other ∈ component ↔ kb.Interlocked fact other

/-- Puts actions in order of declaration. -/
def inOrder (kb : KnowledgeBase) (component : List Fact) : List Fact :=
  component.mergeSort fun fact other => kb.actions.idxOf fact ≤ kb.actions.idxOf other

/-- The place of the first action on a path. -/
def firstPlace (kb : KnowledgeBase) (path : List Fact) : Nat := path.head?.elim 0 kb.actions.idxOf

/-- Several actions depend on each other, or one on itself. -/
def isCircular (kb : KnowledgeBase) (component : List Fact) : Bool :=
  1 < component.length || component.head?.any fun fact => fact ∈ kb.derivedConditions fact

/-- The cycles among components, each in order of declaration, by their first members. -/
def cyclesAmong (kb : KnowledgeBase) (components : List (List Fact)) : List (List Fact) :=
  ((components.filter kb.isCircular).map kb.inOrder).mergeSort fun path later =>
    kb.firstPlace path ≤ kb.firstPlace later

/-- A class has one order of declaration. -/
theorem inOrder_eq {component : List Fact} (hnodup : component.Nodup) (hpath : path ∈ kb.cycles)
    (hmem : ∀ fact, fact ∈ component ↔ fact ∈ path) : kb.inOrder component = path := by
  have hsublist := sublist_of_mem_cycles hpath
  have hperm : component.Perm path :=
    (List.perm_ext_iff_of_nodup hnodup (hsublist.nodup kb.nodup_actions)).mpr hmem
  exact mergeSort_eq_of_perm kb.actions.idxOf hperm
    ((pairwise_of_nodup kb.nodup_actions).sublist hsublist)

namespace IsComponents

variable {components : List (List Fact)} (h : kb.IsComponents components)

include h

theorem nodup_of_mem {component : List Fact} (hcomponent : component ∈ components) :
    component.Nodup :=
  (List.nodup_flatten.mp (h.perm.nodup_iff.mpr kb.nodup_actions)).1 component hcomponent

/-- Only actions depend on each other. -/
theorem mem_iff_interlocked {component : List Fact} (hcomponent : component ∈ components)
    (hfact : fact ∈ component) : other ∈ component ↔ kb.Interlocked fact other := by
  by_cases hother : other ∈ kb.actions
  · exact h.mem_iff component hcomponent fact hfact other hother
  · have hsubset {action : Fact} (hmem : action ∈ component) : action ∈ kb.actions :=
      h.perm.mem_iff.mp (List.mem_flatten_of_mem hcomponent hmem)
    have hne : fact ≠ other := fun heq => hother (heq ▸ hsubset hfact)
    exact iff_of_false (mt hsubset hother)
      fun hinterlocked => hother (mem_actions_of_transGen (hinterlocked.transGen hne).1)

/-- No action depends on itself directly, so that only a class of several actions is circular. -/
theorem isCircular_iff {component : List Fact} (hcomponent : component ∈ components) :
    kb.isCircular component = true ↔ kb.Tangle {fact | fact ∈ component} := by
  have hself : ¬ (component.head?.any fun fact => fact ∈ kb.derivedConditions fact) = true := by
    rw [Option.any_eq_true]
    rintro ⟨fact, -, hfact⟩
    exact (mem_derivedConditions.mp (of_decide_eq_true hfact)).ne rfl
  rw [isCircular, Bool.or_eq_true, decide_eq_true_eq, or_iff_left hself,
    ← nontrivial_iff_one_lt_length (h.nodup_of_mem hcomponent)]
  exact ⟨fun hseveral => ⟨hseveral, fun _ hfact _ => h.mem_iff_interlocked hcomponent hfact⟩,
    Tangle.several⟩

/-- Up to their order, the circular components are the cycles. -/
theorem perm_cycles : ((components.filter kb.isCircular).map kb.inOrder).Perm kb.cycles := by
  refine (List.perm_ext_iff_of_nodup ?_ kb.nodup_cycles).mpr fun path => ?_
  · have hdisjoint := (List.nodup_flatten.mp (h.perm.nodup_iff.mpr kb.nodup_actions)).2
    refine List.pairwise_map.mpr ((hdisjoint.filter _).imp_of_mem ?_)
    intro component other hcomponent _ hdisjoint heq
    obtain ⟨fact, hfact⟩ := List.exists_mem_of_ne_nil component
      (ne_of_mem_of_not_mem (List.mem_of_mem_filter hcomponent) h.ne_nil)
    refine hdisjoint hfact (List.mem_mergeSort.mp (?_ : fact ∈ kb.inOrder other))
    rw [← heq]
    exact List.mem_mergeSort.mpr hfact
  · simp only [List.mem_map, List.mem_filter]
    constructor
    · rintro ⟨component, ⟨hcomponent, hcircular⟩, rfl⟩
      obtain ⟨path, hpath, hsame⟩ := ((h.isCircular_iff hcomponent).mp hcircular).exists_mem_cycles
      rw [inOrder_eq (h.nodup_of_mem hcomponent) hpath (Set.ext_iff.mp hsame.symm)]
      exact hpath
    · intro hpath
      obtain ⟨action, -, hhead, -⟩ := mem_cycles.mp hpath
      have haction := List.mem_of_mem_head? hhead
      obtain ⟨component, hcomponent, hmem⟩ := List.mem_flatten.mp
        (h.perm.mem_iff.mpr ((sublist_of_mem_cycles hpath).subset haction))
      have hsame (fact : Fact) : fact ∈ component ↔ fact ∈ path := by
        rw [h.mem_iff_interlocked hcomponent hmem, mem_iff_of_mem_cycles hpath haction]
      refine ⟨component, ⟨hcomponent, (h.isCircular_iff hcomponent).mpr ?_⟩,
        inOrder_eq (h.nodup_of_mem hcomponent) hpath hsame⟩
      simpa only [hsame] using tangle_of_mem_cycles hpath

theorem cyclesAmong_eq : kb.cyclesAmong components = kb.cycles := by
  refine mergeSort_eq_of_perm kb.firstPlace h.perm_cycles
    (kb.pairwise_cycles.imp_of_mem fun {path later} hpath hlater hparted => ?_)
  obtain ⟨first, -, hfirst, -⟩ := mem_cycles.mp hpath
  obtain ⟨second, hsecond, hhead, -⟩ := mem_cycles.mp hlater
  rw [firstPlace, firstPlace, hfirst, hhead]
  exact (hparted.2 first hfirst second hhead).eraseDups (List.mem_eraseDups.mp hsecond)

end IsComponents

end Components

/-- An action is concluded by several rules exactly if two rules have it as their action. -/
theorem one_lt_length_concluding_iff {action : Fact} :
    1 < (kb.concluding action).length ↔
      ∃ id other : kb.Id, id ≠ other ∧ (kb.rule id).action = action ∧
        (kb.rule other).action = action := by
  have hnodup : (kb.concluding action).Nodup := (List.nodup_finRange _).filter _
  rw [← nontrivial_iff_one_lt_length hnodup]
  simp only [Set.Nontrivial, Set.mem_ofPred_eq, mem_concluding]
  constructor
  · rintro ⟨id, hid, other, hother, hne⟩
    exact ⟨id, other, hne, hid, hother⟩
  · rintro ⟨id, other, hne, hid, hother⟩
    exact ⟨id, hid, other, hother, hne⟩

theorem mem_duplicateActions {issue : Issue} :
    issue ∈ kb.duplicateActions ↔ ∃ action, 1 < (kb.concluding action).length ∧
      .duplicateAction action (kb.concluding action).length = issue := by
  simp only [duplicateActions, List.mem_filterMap, Option.ite_none_right_eq_some,
    Option.some.injEq]
  refine exists_congr fun action => and_iff_right_of_imp fun hissue => ?_
  obtain ⟨id, _, _, hid, _⟩ := one_lt_length_concluding_iff.mp hissue.1
  exact mem_actions.mpr (isDerived_iff.mpr ⟨id, hid⟩)

theorem filterMap_path?_issues (kb : KnowledgeBase) :
    kb.issues.filterMap Issue.path? = kb.cycles := by
  have hduplicates : kb.duplicateActions.filterMap Issue.path? = [] := by
    refine List.filterMap_eq_nil_iff.mpr fun issue hissue => ?_
    obtain ⟨action, -, rfl⟩ := mem_duplicateActions.mp hissue
    rfl
  have hcycles : (kb.cycles.map Issue.cycle).filterMap Issue.path? = kb.cycles := by
    rw [List.filterMap_map]
    exact List.filterMap_some
  have horphans : kb.orphans.filterMap Issue.path? = [] := by
    simp [orphans, List.filterMap_eq_nil_iff, Issue.path?]
  have hgoals : (if kb.goals.isEmpty && !kb.rules.isEmpty then [Issue.noGoals] else []).filterMap
      Issue.path? = [] := by
    split <;> rfl
  rw [issues, List.filterMap_append, List.filterMap_append, List.filterMap_append, hduplicates,
    hcycles, horphans, hgoals, List.nil_append, List.append_nil, List.append_nil]

theorem hasErrors_iff :
    kb.hasErrors = true ↔ kb.cycles ≠ [] ∨
      ∃ id other : kb.Id, id ≠ other ∧ (kb.rule id).action = (kb.rule other).action := by
  have hduplicates : kb.duplicateActions.any (·.severity = .error) = true ↔
      ∃ id other : kb.Id, id ≠ other ∧ (kb.rule id).action = (kb.rule other).action := by
    simp only [List.any_eq_true, mem_duplicateActions, one_lt_length_concluding_iff]
    constructor
    · rintro ⟨-, ⟨action, ⟨id, other, hne, hid, hother⟩, -⟩, -⟩
      exact ⟨id, other, hne, hid.trans hother.symm⟩
    · rintro ⟨id, other, hne, hsame⟩
      exact ⟨_, ⟨(kb.rule id).action, ⟨id, other, hne, rfl, hsame.symm⟩, rfl⟩, rfl⟩
  have hcycles : (kb.cycles.map Issue.cycle).any (·.severity = .error) = true ↔ kb.cycles ≠ [] := by
    cases kb.cycles <;> simp [Issue.severity]
  have horphans : kb.orphans.any (·.severity = .error) = false := by
    simp [orphans, Issue.severity]
  have hgoals : (if kb.goals.isEmpty && !kb.rules.isEmpty then [Issue.noGoals] else []).any
      (·.severity = .error) = false := by
    split <;> rfl
  rw [hasErrors, issues, List.any_append, List.any_append, List.any_append, horphans, hgoals,
    Bool.or_false, Bool.or_false, Bool.or_eq_true, hcycles, hduplicates, or_comm]

/-- The cycles among the issues are exactly the classes of several actions that depend on each
    other, directly or through others. Each class is reported once, by a path with its actions in
    order of declaration and no other; no action is on two paths, and the paths are ordered by
    their first actions. So there is no cycle among the issues only where no action depends on
    itself, and errors are such classes and actions that several rules conclude. The components
    of the dependencies lead to the same cycles, in whatever order they are found. -/
theorem cycles_exact (kb : KnowledgeBase) :
    let paths := kb.issues.filterMap Issue.path?
    (∀ members : Set Fact, kb.Tangle members ↔
      ∃! path, path ∈ paths ∧ {fact | fact ∈ path} = members) ∧
    (∀ path ∈ paths, path.Pairwise kb.DeclaredBefore ∧ path.Nodup ∧
      ∀ fact ∈ path, kb.isDerived fact = true) ∧
    paths.Pairwise kb.Parted ∧
    (paths = [] ↔ kb.Acyclic) ∧
    (kb.hasErrors = true ↔ (∃ members, kb.Tangle members) ∨
      ∃ id other : kb.Id, id ≠ other ∧ (kb.rule id).action = (kb.rule other).action) ∧
    ∀ components, kb.IsComponents components → kb.cyclesAmong components = paths := by
  intro paths
  obtain hpaths : paths = kb.cycles := kb.filterMap_path?_issues
  rw [hpaths]
  refine ⟨fun _ => tangle_iff_existsUnique, fun path hpath => ?_, kb.pairwise_cycles, ?_, ?_, fun components h =>
    h.cyclesAmong_eq⟩
  · have hsublist := sublist_of_mem_cycles hpath
    exact ⟨kb.pairwise_actions.sublist hsublist, hsublist.nodup kb.nodup_actions,
      fun fact hfact => mem_actions.mp (hsublist.subset hfact)⟩
  · rw [acyclic_iff]
    simp only [cycle_mem_issues]
    exact List.eq_nil_iff_forall_not_mem
  · rw [hasErrors_iff, cycles_ne_nil_iff]

/-- Two classes. The first depends on the second, but not the other way. -/
def entangled : KnowledgeBase where
  rules := [(Rule.needsAll ["b"] "a").asGoal, Rule.needsAll ["a", "d"] "b",
    Rule.needsAny ["d", "x"] "c", Rule.needsAll ["c", "y"] "d", (Rule.needsAll ["a"] "e").asGoal]
  categories := [""]
  wellFormed := by
    simp [Rule.wellFormed_iff, Rule.needsAll, Rule.needsAny, Rule.asGoal, Text.IsBlankText,
      Text.isBlank]
  categories_nodup := List.nodup_singleton _
  category_mem := by decide

theorem entangled_cycles_exact :
    let components := [["e"], ["d", "c"], ["b", "a"]]
    entangled.IsComponents components ∧
      entangled.cyclesAmong components = [["a", "b"], ["c", "d"]] ∧
      entangled.Tangle {fact | fact ∈ ["c", "d"]} ∧ ¬ entangled.Acyclic ∧
      entangled.hasErrors = true := by
  intro components
  have hcomponents : entangled.IsComponents components :=
    ⟨by decide +kernel, by decide, by decide +kernel⟩
  have hpaths : entangled.issues.filterMap Issue.path? = [["a", "b"], ["c", "d"]] := by
    decide +kernel
  obtain ⟨htangle, -, -, hacyclic, herrors, hany⟩ := cycles_exact entangled
  rw [hpaths] at htangle hacyclic hany
  have hclass : entangled.Tangle {fact | fact ∈ ["c", "d"]} := by
    refine (htangle _).mpr ⟨["c", "d"], ⟨by simp, rfl⟩, fun path ⟨hpath, hsame⟩ => ?_⟩
    simp only [List.mem_cons, List.not_mem_nil, or_false] at hpath
    rcases hpath with rfl | rfl
    · simpa using Set.ext_iff.mp hsame "a"
    · rfl
  exact ⟨hcomponents, hany components hcomponents, hclass,
    fun h => List.cons_ne_nil _ _ (hacyclic.mpr h), herrors.mpr (.inl ⟨_, hclass⟩)⟩

end KnowledgeBase

end Consultation
