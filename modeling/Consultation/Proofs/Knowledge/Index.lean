import Consultation.Proofs.Knowledge.Admission
import Consultation.Proofs.Knowledge.Document
import Consultation.RuleTable
import Mathlib.Data.List.Sort

namespace Consultation

/-- Positions that name the rules with a property, each of them once and in declaration
    order. -/
structure Locates (rules : List Rule) (has : Rule → Prop) (positions : List Nat) : Prop where
  increasing : positions.Pairwise (· < ·)
  mem_iff : ∀ position, position ∈ positions ↔ ∃ rule, rules[position]? = some rule ∧ has rule

namespace Locates

variable {rules : List Rule} {rule : Rule} {has : Rule → Prop} {positions : List Nat}

theorem lt_length (h : Locates rules has positions) {position : Nat} (hmem : position ∈ positions) :
    position < rules.length := by
  obtain ⟨_, hrule, -⟩ := (h.mem_iff position).mp hmem
  exact (List.getElem?_eq_some_iff.mp hrule).1

/-- What stands at a position once one more rule is added. -/
theorem exists_append_singleton_iff {position : Nat} :
    (∃ found, (rules ++ [rule])[position]? = some found ∧ has found) ↔
      (∃ found, rules[position]? = some found ∧ has found) ∨
        position = rules.length ∧ has rule := by
  rw [List.getElem?_append]
  rcases Nat.lt_trichotomy position rules.length with hlt | rfl | hlt
  · simp [hlt, Nat.ne_of_lt hlt]
  · simp
  · have houtside : position - rules.length ≠ 0 := Nat.sub_ne_zero_of_lt hlt
    simp [Nat.not_lt_of_gt hlt, Nat.ne_of_gt hlt, houtside]

theorem append (h : Locates rules has positions) (hrule : has rule) :
    Locates (rules ++ [rule]) has (positions ++ [rules.length]) := by
  refine ⟨?_, fun position => ?_⟩
  · refine List.pairwise_append.mpr ⟨h.increasing, List.pairwise_singleton _ _, ?_⟩
    intro position hmem
    rw [List.forall_mem_singleton]
    exact h.lt_length hmem
  · rw [exists_append_singleton_iff, List.mem_append, List.mem_singleton, h.mem_iff,
      and_iff_left hrule]

theorem append_of_not (h : Locates rules has positions) (hrule : ¬ has rule) :
    Locates (rules ++ [rule]) has positions := by
  refine ⟨h.increasing, fun position => ?_⟩
  rw [exists_append_singleton_iff, h.mem_iff, or_iff_left fun hlast => hrule hlast.2]

theorem ne_nil_iff (h : Locates rules has positions) :
    positions ≠ [] ↔ ∃ rule ∈ rules, has rule := by
  simp only [ne_eq, List.eq_nil_iff_forall_not_mem, not_forall, not_not, h.mem_iff,
    List.mem_iff_getElem?]
  constructor
  · rintro ⟨position, rule, hrule, hhas⟩
    exact ⟨rule, ⟨position, hrule⟩, hhas⟩
  · rintro ⟨rule, ⟨position, hrule⟩, hhas⟩
    exact ⟨position, rule, hrule, hhas⟩

/-- Which rules are located decides how. -/
theorem unique {others : List Nat} (h : Locates rules has positions)
    (hothers : Locates rules has others) : positions = others :=
  h.increasing.eq_of_mem_iff hothers.increasing fun position =>
    (h.mem_iff position).trans (hothers.mem_iff position).symm

end Locates

/-- The positions of rules under the facts that they mention. -/
abbrev Entries := Std.HashMap Fact (List Nat)

namespace Entries

/-- Enters a position under a fact, after those that are there. -/
def enter (entries : Entries) (position : Nat) (fact : Fact) : Entries :=
  entries.insert fact (entries.getD fact [] ++ [position])

/-- Enters a position under each of some facts that has not been seen yet. -/
def enterEach (position : Nat) : Std.HashSet Fact → List Fact → Entries → Entries
  | _, [], entries => entries
  | seen, fact :: rest, entries =>
    if fact ∈ seen then enterEach position seen rest entries
    else enterEach position (seen.insert fact) rest (enter entries position fact)

/-- Each fact has the positions of the rules that mention it, and no other has an entry. -/
structure Lists (entries : Entries) (rules : List Rule) (mentions : Fact → Rule → Prop) :
    Prop where
  located : ∀ fact, Locates rules (mentions fact) (entries.getD fact [])
  mem_iff : ∀ fact, fact ∈ entries ↔ ∃ rule ∈ rules, mentions fact rule

variable {entries entered : Entries} {position : Nat} {fact : Fact}

theorem getElem?_enter (other : Fact) :
    (entries.enter position fact)[other]? =
      if fact = other then some (entries.getD other [] ++ [position]) else entries[other]? := by
  rw [enter, Std.HashMap.getElem?_insert]
  by_cases heq : fact = other
  · subst heq
    simp
  · simp [heq]

/-- A fact that is repeated is entered once. -/
theorem getElem?_enterEach {seen : Std.HashSet Fact} {facts : List Fact} (other : Fact) :
    (enterEach position seen facts entries)[other]? =
      if other ∈ facts ∧ other ∉ seen then some (entries.getD other [] ++ [position])
      else entries[other]? := by
  induction facts generalizing seen entries with
  | nil => simp [enterEach]
  | cons fact rest ih =>
    rw [enterEach]
    by_cases hseen : fact ∈ seen
    · rw [if_pos hseen, ih]
      by_cases heq : other = fact
      · subst heq
        simp [hseen]
      · simp [heq]
    · rw [if_neg hseen]
      simp only [ih, Std.HashSet.mem_insert, Std.HashMap.getD_eq_getD_getElem?, getElem?_enter]
      by_cases heq : fact = other
      · subst heq
        simp [hseen]
      · simp [heq, Ne.symm heq]

variable {rules : List Rule} {rule : Rule} {mentions : Fact → Rule → Prop}

/-- What one more rule changes in the entries of the rules before it. -/
theorem Lists.append (h : entries.Lists rules mentions)
    (hentered : ∀ fact, mentions fact rule →
      entered[fact]? = some (entries.getD fact [] ++ [rules.length]))
    (hkept : ∀ fact, ¬ mentions fact rule → entered[fact]? = entries[fact]?) :
    entered.Lists (rules ++ [rule]) mentions := by
  refine ⟨fun fact => ?_, fun fact => ?_⟩
  · rw [Std.HashMap.getD_eq_getD_getElem?]
    by_cases hrule : mentions fact rule
    · rw [hentered fact hrule]
      exact (h.located fact).append hrule
    · rw [hkept fact hrule, ← Std.HashMap.getD_eq_getD_getElem?]
      exact (h.located fact).append_of_not hrule
  · rw [Std.HashMap.mem_iff_isSome_getElem?]
    by_cases hrule : mentions fact rule
    · rw [hentered fact hrule]
      exact iff_of_true rfl ⟨rule, by simp, hrule⟩
    · rw [hkept fact hrule, ← Std.HashMap.mem_iff_isSome_getElem?, h.mem_iff]
      simp [or_and_right, exists_or, hrule]

end Entries

/-- What is looked up about rules: the goals, and under each fact the rules that conclude it
    and the rules that have it among their conditions. -/
structure Index where
  goals : List Nat := []
  concluding : Entries := ∅
  dependents : Entries := ∅

namespace Index

/-- Enters the rule at a position. -/
def add (index : Index) (rule : Rule) (position : Nat) : Index where
  goals := if rule.goal then index.goals ++ [position] else index.goals
  concluding := index.concluding.enter position rule.action
  dependents := Entries.enterEach position ∅ rule.conditions index.dependents

/-- Enters rules one after the other. -/
def ofRules (rules : List Rule) : Index :=
  rules.zipIdx.foldl (fun index entry => index.add entry.1 entry.2) {}

/-- An index has exactly what the rules say. -/
structure Exact (index : Index) (rules : List Rule) : Prop where
  goals : Locates rules (·.goal = true) index.goals
  concluding : index.concluding.Lists rules fun fact rule => rule.action = fact
  dependents : index.dependents.Lists rules fun fact rule => fact ∈ rule.conditions

theorem Exact.add {index : Index} {rules : List Rule} (h : index.Exact rules) (rule : Rule) :
    (index.add rule rules.length).Exact (rules ++ [rule]) := by
  refine ⟨?_, ?_, ?_⟩
  · unfold Index.add
    split
    · next hgoal => exact h.goals.append hgoal
    · next hgoal => exact h.goals.append_of_not hgoal
  · refine h.concluding.append (fun fact haction => ?_) fun fact haction => ?_
    · rw [Index.add, Entries.getElem?_enter, if_pos haction]
    · rw [Index.add, Entries.getElem?_enter, if_neg haction]
  · refine h.dependents.append (fun fact hmem => ?_) fun fact hmem => ?_
    · rw [Index.add, Entries.getElem?_enterEach, if_pos ⟨hmem, Std.HashSet.not_mem_empty⟩]
    · rw [Index.add, Entries.getElem?_enterEach, if_neg fun hentered => hmem hentered.1]

theorem exact_ofRules (rules : List Rule) : (ofRules rules).Exact rules := by
  induction rules using List.reverseRecOn with
  | nil =>
    refine ⟨⟨List.Pairwise.nil, by simp [ofRules]⟩, ?_, ?_⟩
    all_goals
      refine ⟨fun fact => ⟨?_, ?_⟩, ?_⟩ <;> simp [ofRules]
  | append_singleton rules rule ih =>
    have hadd : ofRules (rules ++ [rule]) = (ofRules rules).add rule rules.length := by
      simp [ofRules, List.zipIdx_append]
    rw [hadd]
    exact ih.add rule

end Index

/-- A position that is found in an index. -/
inductive Index.Holds (index : Index) (position : Nat) : Prop where
  | goal (h : position ∈ index.goals)
  | concluding (fact : Fact) (h : position ∈ index.concluding.getD fact [])
  | dependent (fact : Fact) (h : position ∈ index.dependents.getD fact [])

theorem Index.Exact.lt_length {index : Index} {rules : List Rule} (h : index.Exact rules)
    {position : Nat} (hholds : index.Holds position) : position < rules.length := by
  cases hholds with
  | goal hmem => exact h.goals.lt_length hmem
  | concluding fact hmem => exact (h.concluding.located fact).lt_length hmem
  | dependent fact hmem => exact (h.dependents.located fact).lt_length hmem

namespace KnowledgeBase

variable {kb : KnowledgeBase} {fact : Fact}

/-- Rules in increasing order that are picked by a property are located by it. -/
theorem locates_map_val {has : Rule → Prop} {ids : List kb.Id} (hincreasing : ids.Pairwise (· < ·))
    (hmem : ∀ id, id ∈ ids ↔ has (kb.rule id)) : Locates kb.rules has (ids.map Fin.val) := by
  refine ⟨List.pairwise_map.mpr hincreasing, fun position => ?_⟩
  rw [List.mem_map]
  constructor
  · rintro ⟨id, hid, rfl⟩
    exact ⟨kb.rule id, List.getElem?_eq_getElem id.isLt, (hmem id).mp hid⟩
  · rintro ⟨rule, hrule, hhas⟩
    obtain ⟨hlt, rfl⟩ := List.getElem?_eq_some_iff.mp hrule
    exact ⟨⟨position, hlt⟩, (hmem _).mpr hhas, rfl⟩

theorem pairwise_filter_ids (kb : KnowledgeBase) (has : kb.Id → Bool) :
    (kb.ids.filter has).Pairwise (· < ·) :=
  (List.pairwise_lt_finRange kb.size).filter _

theorem locates_goals (kb : KnowledgeBase) :
    Locates kb.rules (·.goal = true) (kb.goals.map Fin.val) :=
  locates_map_val (kb.pairwise_filter_ids _) fun _ => mem_goals

theorem locates_concluding (kb : KnowledgeBase) (fact : Fact) :
    Locates kb.rules (·.action = fact) ((kb.concluding fact).map Fin.val) :=
  locates_map_val (kb.pairwise_filter_ids _) fun _ => mem_concluding

theorem locates_dependents (kb : KnowledgeBase) (fact : Fact) :
    Locates kb.rules (fact ∈ ·.conditions) ((kb.dependents fact).map Fin.val) :=
  locates_map_val (kb.pairwise_filter_ids _) fun _ => mem_dependents

theorem isDerived_iff_concluding_ne_nil : kb.isDerived fact = true ↔ kb.concluding fact ≠ [] := by
  have hlisted := (kb.locates_concluding fact).ne_nil_iff
  rw [ne_eq, List.map_eq_nil_iff] at hlisted
  rw [ne_eq, hlisted]
  simp [isDerived]

theorem isCondition_iff_dependents_ne_nil :
    kb.isCondition fact = true ↔ kb.dependents fact ≠ [] := by
  have hlisted := (kb.locates_dependents fact).ne_nil_iff
  rw [ne_eq, List.map_eq_nil_iff] at hlisted
  rw [ne_eq, hlisted]
  simp [isCondition]

/-- A fact is looked up with the first rule that concludes it. -/
theorem find?_eq_some_iff {id : kb.Id} :
    kb.find? fact = some id ↔
      (kb.rule id).action = fact ∧ ∀ earlier < id, (kb.rule earlier).action ≠ fact := by
  have hincreasing := kb.pairwise_filter_ids fun id => (kb.rule id).action = fact
  rw [find?, concluding, List.head?_eq_some_iff, ← mem_concluding, concluding]
  constructor
  · rintro ⟨rest, hrest⟩
    rw [hrest]
    refine ⟨List.mem_cons_self, fun earlier hlt haction => ?_⟩
    have hmem : earlier ∈ id :: rest := hrest ▸ mem_concluding.mpr haction
    rcases List.mem_cons.mp hmem with rfl | hlater
    · exact lt_irrefl _ hlt
    · exact lt_asymm hlt (List.rel_of_pairwise_cons (hrest ▸ hincreasing) hlater)
  · rintro ⟨hmem, hfirst⟩
    cases hlist : kb.ids.filter fun id => (kb.rule id).action = fact with
    | nil => simp [hlist] at hmem
    | cons first rest =>
      have haction : (kb.rule first).action = fact := by
        refine mem_concluding.mp ?_
        rw [concluding, hlist]
        exact List.mem_cons_self
      rw [hlist] at hmem
      rcases List.mem_cons.mp hmem with rfl | hlater
      · exact ⟨rest, rfl⟩
      · exact absurd haction (hfirst first (List.rel_of_pairwise_cons (hlist ▸ hincreasing) hlater))

theorem mem_baseConditions :
    fact ∈ kb.baseConditions ↔ kb.isCondition fact = true ∧ kb.isDerived fact = false := by
  simp [baseConditions, List.mem_eraseDups, isCondition]

/-- The base conditions come in the order in which the rules first mention them. -/
theorem pairwise_baseConditions :
    kb.baseConditions.Pairwise (AppearsBefore (kb.rules.flatMap (·.conditions))) := by
  rw [baseConditions, eraseDups_filter]
  exact (pairwise_eraseDups _).filter _

/-- Looking a fact up in an index is the same as searching the rules for it. -/
structure IndexedBy (kb : KnowledgeBase) (index : Index) : Prop where
  goals : index.goals = kb.goals.map Fin.val
  concluding : ∀ fact, index.concluding.getD fact [] = (kb.concluding fact).map Fin.val
  dependents : ∀ fact, index.dependents.getD fact [] = (kb.dependents fact).map Fin.val
  isDerived : ∀ fact, index.concluding.contains fact = kb.isDerived fact
  isCondition : ∀ fact, index.dependents.contains fact = kb.isCondition fact

theorem indexedBy_of_exact {index : Index} (h : index.Exact kb.rules) :
    kb.IndexedBy index where
  goals := h.goals.unique kb.locates_goals
  concluding fact := (h.concluding.located fact).unique (kb.locates_concluding fact)
  dependents fact := (h.dependents.located fact).unique (kb.locates_dependents fact)
  isDerived fact := by
    rw [Bool.eq_iff_iff, Std.HashMap.contains_iff_mem, h.concluding.mem_iff]
    simp [KnowledgeBase.isDerived]
  isCondition fact := by
    rw [Bool.eq_iff_iff, Std.HashMap.contains_iff_mem, h.dependents.mem_iff]
    simp [KnowledgeBase.isCondition]

/-- Every position in an index names a rule, and in every table of the knowledge base a rule
    state. -/
theorem exists_id_of_holds {index : Index} (h : index.Exact kb.rules) {position : Nat}
    (hholds : index.Holds position) :
    ∃ id : kb.Id, id.val = position ∧ kb.rules[position]? = some (kb.rule id) ∧
      ∀ table : RuleTable kb.size, table.states[position]? = some (table.get id) := by
  have hlt := h.lt_length hholds
  refine ⟨⟨position, hlt⟩, rfl, List.getElem?_eq_getElem hlt, fun table => ?_⟩
  exact Vector.getElem?_eq_getElem hlt

/-- A document is admitted when every rule has an action and conditions that are more than
    blanks and no rule has its action for a condition. Otherwise it is refused for the first
    defect: rule by rule, the action before the conditions, these from left to right. In one
    pass over the rules of an admitted document it is found out which of them conclude a fact,
    depend on it or are goals; each of these lists is complete, strictly increasing and stays
    within the rules and their states. -/
theorem admission_exact (document : Document) :
    ((∃ kb, ofDocument? document = .ok kb) ↔
      ∀ rule ∈ document.rules, Text.trim rule.action ≠ "" ∧ rule.conditions ≠ [] ∧
        ∀ condition ∈ rule.conditions, Text.trim condition ≠ "" ∧ condition ≠ rule.action) ∧
    (∀ defect, ofDocument? document = .error defect ↔ Rule.FirstDefect document.rules defect) ∧
    ∀ kb, ofDocument? document = .ok kb →
      kb.rules = document.rules ∧ kb.IndexedBy (Index.ofRules document.rules) ∧
      Locates kb.rules (·.goal = true) (kb.goals.map Fin.val) ∧
      (∀ fact,
        Locates kb.rules (·.action = fact) ((kb.concluding fact).map Fin.val) ∧
        Locates kb.rules (fact ∈ ·.conditions) ((kb.dependents fact).map Fin.val) ∧
        (kb.isDerived fact = true ↔ kb.concluding fact ≠ []) ∧
        (kb.isCondition fact = true ↔ kb.dependents fact ≠ []) ∧
        ∀ id, kb.find? fact = some id ↔
          (kb.rule id).action = fact ∧ ∀ earlier < id, (kb.rule earlier).action ≠ fact) ∧
      (kb.baseConditions.Nodup ∧
        kb.baseConditions.Pairwise (AppearsBefore (kb.rules.flatMap (·.conditions))) ∧
        ∀ fact, fact ∈ kb.baseConditions ↔
          kb.isCondition fact = true ∧ kb.isDerived fact = false) ∧
      ∀ position, (Index.ofRules document.rules).Holds position →
        ∃ id : kb.Id, id.val = position ∧ kb.rules[position]? = some (kb.rule id) ∧
          ∀ table : RuleTable kb.size, table.states[position]? = some (table.get id) := by
  refine ⟨?_, fun _ => ofDocument?_eq_error_iff, fun kb h => ?_⟩
  · simp only [exists_ofDocument?_iff, Rule.wellFormed_iff_trim]
  · have hrules : kb.rules = document.rules := (ofDocument?_eq_ok_iff.mp h).1
    have hexact : (Index.ofRules document.rules).Exact kb.rules :=
      hrules ▸ Index.exact_ofRules document.rules
    refine ⟨hrules, indexedBy_of_exact hexact, kb.locates_goals, fun fact => ?_, ?_, ?_⟩
    · exact ⟨kb.locates_concluding fact, kb.locates_dependents fact, isDerived_iff_concluding_ne_nil,
        isCondition_iff_dependents_ne_nil, fun _ => find?_eq_some_iff⟩
    · exact ⟨nodup_eraseDups _, pairwise_baseConditions, fun _ => mem_baseConditions⟩
    · exact fun _ => exists_id_of_holds hexact

/-- Two rules conclude a fact, one of them repeats a condition, and a derived fact is a
    condition before it is concluded. -/
def overlapping : KnowledgeBase where
  rules := [(Rule.needsAll ["resident", "enrolled", "resident"] "visa").asGoal,
    Rule.needsAll ["enrolled", "enrolled"] "student",
    Rule.needsAny ["employed", "student"] "resident",
    Rule.needsAll ["degree", "enrolled"] "student"]
  categories := [""]
  wellFormed := by
    simp [Rule.wellFormed_iff, Rule.needsAll, Rule.needsAny, Rule.asGoal, Text.IsBlankText,
      Text.isBlank]
  categories_nodup := List.nodup_singleton _
  category_mem := by decide

theorem overlapping_admission_exact :
    let index := Index.ofRules overlapping.rules
    ofDocument? overlapping.toDocument = .ok overlapping ∧
    index.goals = [0] ∧ index.dependents.getD "enrolled" [] = [0, 1, 3] ∧
    index.concluding.getD "student" [] = [1, 3] ∧
    index.dependents.contains "resident" = true ∧ index.concluding.contains "degree" = false ∧
    overlapping.baseConditions = ["enrolled", "employed", "degree"] ∧
    overlapping.baseConditions.Pairwise
      (AppearsBefore (overlapping.rules.flatMap (·.conditions))) := by
  intro index
  have hadmitted := ofDocument?_toDocument overlapping
  obtain ⟨-, -, hexact⟩ := admission_exact overlapping.toDocument
  obtain ⟨-, hindexed, -, -, ⟨-, horder, -⟩, -⟩ := hexact overlapping hadmitted
  refine ⟨hadmitted, ?_, ?_, ?_, ?_, ?_, by decide, horder⟩
  · exact hindexed.goals.trans (by decide)
  · exact (hindexed.dependents "enrolled").trans (by decide)
  · exact (hindexed.concluding "student").trans (by decide)
  · exact (hindexed.isCondition "resident").trans (by decide)
  · exact (hindexed.isDerived "degree").trans (by decide)

end KnowledgeBase

end Consultation
