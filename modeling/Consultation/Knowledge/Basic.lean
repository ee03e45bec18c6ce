import Consultation.Knowledge.Admission

namespace Consultation

/-- A rule file as it is written: the categories that come first in displays,
    and the rules in declaration order. -/
structure Document where
  categoryOrder : List String := []
  rules : List Rule
  deriving DecidableEq, Repr, Inhabited

/-- The categories of a document without repetition: those of its category
    order come first, the others follow as the rules bring them up. -/
def Document.rankedCategories (document : Document) : List String :=
  (document.categoryOrder ++ document.rules.map (·.category)).eraseDups

/-- Rules that can be evaluated, with their categories in display order. A
    knowledge base never changes while consultations refer to it. -/
@[ext]
structure KnowledgeBase where
  rules : List Rule
  categories : List String
  wellFormed : ∀ rule ∈ rules, rule.WellFormed
  categories_nodup : categories.Nodup
  category_mem : ∀ rule ∈ rules, rule.category ∈ categories

private theorem eraseDups_nodup : ∀ (size : Nat) (texts : List String),
    texts.length ≤ size → texts.eraseDups.Nodup
  | _, [], _ => by simp
  | 0, _ :: _, h => by simp at h
  | size + 1, text :: rest, h => by
    rw [List.eraseDups_cons, List.nodup_cons]
    refine ⟨fun hmem => ?_, eraseDups_nodup size _ ?_⟩
    · simp [List.mem_eraseDups] at hmem
    · exact Nat.le_trans (List.length_filter_le _ _) (Nat.le_of_succ_le_succ h)

theorem nodup_eraseDups (texts : List String) : texts.eraseDups.Nodup :=
  eraseDups_nodup _ _ (Nat.le_refl _)

theorem Document.rankedCategories_nodup (document : Document) :
    document.rankedCategories.Nodup := nodup_eraseDups _

theorem Document.category_mem_rankedCategories (document : Document) :
    ∀ rule ∈ document.rules, rule.category ∈ document.rankedCategories := by
  intro rule hrule
  rw [rankedCategories, List.mem_eraseDups]
  exact List.mem_append_right _ (List.mem_map_of_mem hrule)

namespace KnowledgeBase

/-- Admits a document, or names the first defect among its rules. -/
def ofDocument? (document : Document) : Except Defect KnowledgeBase :=
  match h : Rule.firstDefect? document.rules with
  | some defect => .error defect
  | none => .ok
    { rules := document.rules
      categories := document.rankedCategories
      wellFormed := Rule.firstDefect?_eq_none_iff.mp h
      categories_nodup := document.rankedCategories_nodup
      category_mem := document.category_mem_rankedCategories }

/-- The document that writes a knowledge base down. Its category order names
    every category. -/
def toDocument (kb : KnowledgeBase) : Document := ⟨kb.categories, kb.rules⟩

def size (kb : KnowledgeBase) : Nat := kb.rules.length

/-- Rules are named by their position in declaration order. -/
abbrev Id (kb : KnowledgeBase) : Type := Fin kb.size

def rule (kb : KnowledgeBase) (id : kb.Id) : Rule := kb.rules.get id

/-- All rules in declaration order. -/
def ids (kb : KnowledgeBase) : List kb.Id := List.finRange kb.size

/-- The goal rules in declaration order. -/
def goals (kb : KnowledgeBase) : List kb.Id := kb.ids.filter fun id => (kb.rule id).goal

/-- The rules that conclude a fact, in declaration order. -/
def concluding (kb : KnowledgeBase) (fact : Fact) : List kb.Id :=
  kb.ids.filter fun id => (kb.rule id).action = fact

/-- The rules that have a fact among their conditions, in declaration order.
    Each comes once, however often it repeats the condition. -/
def dependents (kb : KnowledgeBase) (fact : Fact) : List kb.Id :=
  kb.ids.filter fun id => fact ∈ (kb.rule id).conditions

/-- A fact is derived when some rule concludes it. -/
def isDerived (kb : KnowledgeBase) (fact : Fact) : Bool := kb.rules.any (·.action = fact)

/-- A fact can be asked when some rule has it among its conditions. -/
def isCondition (kb : KnowledgeBase) (fact : Fact) : Bool := kb.rules.any (fact ∈ ·.conditions)

/-- The first rule that concludes a fact. -/
def find? (kb : KnowledgeBase) (action : Fact) : Option kb.Id := (kb.concluding action).head?

/-- The conditions that no rule concludes, each once, by first appearance. -/
def baseConditions (kb : KnowledgeBase) : List Fact :=
  ((kb.rules.flatMap (·.conditions)).filter fun fact => !kb.isDerived fact).eraseDups

/-- The place of a category in displays. Categories that the knowledge base
    does not know share the place after the last. -/
def categoryRank (kb : KnowledgeBase) (category : String) : Nat := kb.categories.idxOf category

/-- The rules of one category in declaration order. -/
def inCategory (kb : KnowledgeBase) (category : String) : List kb.Id :=
  kb.ids.filter fun id => (kb.rule id).category = category

/-- All rules, category by category. -/
def displayOrder (kb : KnowledgeBase) : List kb.Id := kb.categories.flatMap kb.inCategory

@[simp]
theorem mem_ids (kb : KnowledgeBase) (id : kb.Id) : id ∈ kb.ids := List.mem_finRange id

theorem mem_concluding {kb : KnowledgeBase} {fact : Fact} {id : kb.Id} :
    id ∈ kb.concluding fact ↔ (kb.rule id).action = fact := by
  simp [concluding]

theorem mem_dependents {kb : KnowledgeBase} {fact : Fact} {id : kb.Id} :
    id ∈ kb.dependents fact ↔ fact ∈ (kb.rule id).conditions := by
  simp [dependents]

theorem mem_goals {kb : KnowledgeBase} {id : kb.Id} : id ∈ kb.goals ↔ (kb.rule id).goal = true := by
  simp [goals]

theorem rule_mem (kb : KnowledgeBase) (id : kb.Id) : kb.rule id ∈ kb.rules :=
  List.getElem_mem id.isLt

theorem exists_id_of_mem {kb : KnowledgeBase} {rule : Rule} (h : rule ∈ kb.rules) :
    ∃ id : kb.Id, kb.rule id = rule := by
  obtain ⟨index, hindex, hrule⟩ := List.getElem_of_mem h
  exact ⟨⟨index, hindex⟩, hrule⟩

theorem isDerived_iff {kb : KnowledgeBase} {fact : Fact} :
    kb.isDerived fact = true ↔ ∃ id : kb.Id, (kb.rule id).action = fact := by
  simp only [isDerived, List.any_eq_true, decide_eq_true_eq]
  constructor
  · rintro ⟨rule, hrule, haction⟩
    obtain ⟨id, rfl⟩ := exists_id_of_mem hrule
    exact ⟨id, haction⟩
  · rintro ⟨id, haction⟩
    exact ⟨kb.rule id, kb.rule_mem id, haction⟩

theorem isCondition_iff {kb : KnowledgeBase} {fact : Fact} :
    kb.isCondition fact = true ↔ ∃ id : kb.Id, fact ∈ (kb.rule id).conditions := by
  simp only [isCondition, List.any_eq_true, decide_eq_true_eq]
  constructor
  · rintro ⟨rule, hrule, hcondition⟩
    obtain ⟨id, rfl⟩ := exists_id_of_mem hrule
    exact ⟨id, hcondition⟩
  · rintro ⟨id, hcondition⟩
    exact ⟨kb.rule id, kb.rule_mem id, hcondition⟩

end KnowledgeBase

end Consultation
