import Consultation.Knowledge.File
import Consultation.Proofs.Json.RoundTrip
import Consultation.Proofs.Knowledge.Ranking
import Consultation.Proofs.Lookup

namespace Consultation

/-- Items are read one by one, where each of them can be. -/
theorem mapM_eq_some_map {α β : Type} {read : α → Option β} {found : α → β} {items : List α}
    (h : ∀ item ∈ items, read item = some (found item)) :
    items.mapM read = some (items.map found) := by
  induction items with
  | nil => rfl
  | cons item rest ih =>
    obtain ⟨hitem, hrest⟩ := List.forall_mem_cons.mp h
    rw [List.mapM_cons, hitem, ih hrest]
    rfl

/-- Items are read one by one from what was written for each of them. -/
theorem mapM_map_eq_some {α β : Type} {write : α → β} {read : β → Option α} {items : List α}
    (h : ∀ item ∈ items, read (write item) = some item) :
    (items.map write).mapM read = some items := by
  have hread : items.mapM (read ∘ write) = some (items.map id) := mapM_eq_some_map h
  rwa [List.map_id, ← List.mapM_map] at hread

namespace Json

/-- Leaves out the members of an object whose names are not kept. -/
def keeping (kept : String → Bool) : Json String → Json String
  | .object members => .object (members.filter fun member => kept member.1)
  | json => json

theorem keeping_true (json : Json String) : json.keeping (fun _ => true) = json := by
  cases json <;> simp [keeping]

/-- Where no name comes twice, the one member of a name is the one that is found. -/
theorem filter_eq_lookup {α : Type} {members : List (String × α)}
    (h : (members.map (·.1)).Nodup) (name : String) :
    members.filter (·.1 = name) = ((members.lookup name).map (name, ·)).toList := by
  induction members with
  | nil => rfl
  | cons member rest ih =>
    obtain ⟨other, value⟩ := member
    obtain ⟨hmissing, hrest⟩ := List.nodup_cons.mp h
    by_cases heq : other = name
    · subst heq
      have hnone : rest.filter (·.1 = other) = [] := by
        refine List.filter_eq_nil_iff.mpr fun member hmember hsame => hmissing ?_
        exact List.mem_map.mpr ⟨member, hmember, of_decide_eq_true hsame⟩
      simp [hnone]
    · have hne : (name == other) = false := beq_eq_false_iff_ne.mpr (Ne.symm heq)
      simp [List.lookup_cons, heq, hne, ih hrest]

/-- An object gives each field of a record its member of that name. -/
theorem record?_object {members : List (String × Json Literal)}
    (h : (members.map (·.1)).Nodup) (names : List String) :
    (object (members.map fun member => (some member.1, member.2))).record? names =
      some (names.map fun name => members.lookup name) := by
  have hnamed : (members.map fun member => (some member.1, member.2)).mapM
      (fun member => (·, member.2) <$> member.1) = some members :=
    mapM_map_eq_some fun member _ => rfl
  rw [record?, hnamed]
  refine mapM_eq_some_map fun name _ => ?_
  rw [filter_eq_lookup h]
  cases members.lookup name <;> rfl

/-- A field of a record has its member where the name is kept. -/
theorem record?_keeping {members : List (String × Json String)}
    (h : (members.map (·.1)).Nodup) (kept : String → Bool) (names : List String) :
    ((object members).keeping kept).denoted.record? names = some (names.map fun name =>
      if kept name then (members.map fun member => (member.1, member.2.denoted)).lookup name
      else none) := by
  have hkept : (members.filter fun member => kept member.1).map
        (fun member => (member.1, member.2.denoted)) =
      (members.map fun member => (member.1, member.2.denoted)).filter fun member =>
        kept member.1 := by rw [List.filter_map]; rfl
  have hdenoted : ((object members).keeping kept).denoted =
      .object (((members.map fun member => (member.1, member.2.denoted)).filter fun member =>
        kept member.1).map fun member => (some member.1, member.2)) := by
    rw [keeping, denoted, denotedMembers_eq_map, ← hkept, List.map_map]
    rfl
  rw [hdenoted, record?_object]
  · simp only [lookup_filter]
  · refine List.Nodup.sublist (List.filter_sublist.map _) ?_
    rwa [List.map_map]

theorem texts?_ofStrings (texts : List String) : (ofStrings texts).denoted.texts? = some texts := by
  have htexts : ((texts.map string).map denoted).mapM text? = some texts := by
    rw [List.map_map]
    exact mapM_map_eq_some fun text _ => rfl
  rwa [← denotedItems_eq_map] at htexts

/-- A field that is left out takes its default, and one that is not is read. -/
theorem optionally_ite {α : Type} {read : Json Literal → Option α} {json : Json Literal}
    {value : α} (h : read json = some value) (kept : Bool) (absent : α) :
    optionally read absent (if kept then some json else none) =
      some (if kept then value else absent) := by
  cases kept
  · rfl
  · exact h

end Json

theorem Combinator.ofJson?_keyword (combinator : Combinator) :
    Combinator.ofJson? (.string (some combinator.keyword)) = some combinator := by
  cases combinator <;> rfl

/-- A rule with the defaults for those of its fields that are not kept. -/
def Rule.keeping (kept : String → Bool) (rule : Rule) : Rule where
  conditions := rule.conditions
  action := rule.action
  combinator := if kept "combinator" then rule.combinator else .all
  goal := if kept "goal" then rule.goal else false
  category := if kept "category" then rule.category else ""

/-- A rule is read from the members that are written, as long as its conditions and its action
    are among them. -/
theorem Rule.ofJson?_keeping {kept : String → Bool} (hconditions : kept "conditions" = true)
    (haction : kept "action" = true) (rule : Rule) :
    Rule.ofJson? (rule.toJson.keeping kept).denoted = some (rule.keeping kept) := by
  have hcategory : Json.text? (.string (some rule.category)) = some rule.category := rfl
  have hgoal : Json.bool? (.bool rule.goal) = some rule.goal := rfl
  rw [toJson, ofJson?, Json.record?_keeping (by simp)]
  simp only [List.map_cons, List.map_nil, List.lookup_cons, String.reduceBEq, hconditions, haction,
    if_true, Option.bind_eq_bind, Option.bind_some, Json.texts?_ofStrings, Json.denoted, Json.text?,
    Json.optionally_ite (Combinator.ofJson?_keyword rule.combinator),
    Json.optionally_ite hcategory, Json.optionally_ite hgoal]
  rfl

namespace Document

/-- Writes a document without the members that are left out of it and of its rules. -/
def toJsonKeeping (document : Document) (kept : String → Bool) (keptOf : Rule → String → Bool) :
    Json String :=
  (Json.object [
    ("category_order", .ofStrings document.categoryOrder),
    ("rules", .array (document.rules.map fun rule => rule.toJson.keeping (keptOf rule)))]).keeping
      kept

/-- A document with the defaults for what is not kept of it and of its rules. -/
def keeping (document : Document) (kept : String → Bool) (keptOf : Rule → String → Bool) :
    Document where
  categoryOrder := if kept "category_order" then document.categoryOrder else []
  rules := document.rules.map fun rule => rule.keeping (keptOf rule)

theorem ofJson?_toJsonKeeping {kept : String → Bool} {keptOf : Rule → String → Bool}
    (hrules : kept "rules" = true) (hconditions : ∀ rule, keptOf rule "conditions" = true)
    (haction : ∀ rule, keptOf rule "action" = true) (document : Document) :
    ofJson? (document.toJsonKeeping kept keptOf).denoted = some (document.keeping kept keptOf) := by
  have hread : (document.rules.map fun rule => (rule.toJson.keeping (keptOf rule)).denoted).mapM
      Rule.ofJson? = some (document.rules.map fun rule => rule.keeping (keptOf rule)) := by
    rw [List.mapM_map]
    exact mapM_eq_some_map fun rule _ =>
      Rule.ofJson?_keeping (hconditions rule) (haction rule) rule
  rw [toJsonKeeping, ofJson?, Json.record?_keeping (by simp)]
  simp only [List.map_cons, List.map_nil, List.lookup_cons, String.reduceBEq, hrules, if_true,
    Option.bind_eq_bind, Option.bind_some, Json.denoted, Json.denotedItems_eq_map, List.map_map,
    Function.comp_def, Json.optionally_ite (Json.texts?_ofStrings document.categoryOrder), hread]
  rfl

/-- Nothing is left out where a document is written with all its members. -/
theorem ofJson?_toJson (document : Document) :
    ofJson? document.toJson.denoted = some document := by
  have hwritten : document.toJsonKeeping (fun _ => true) (fun _ _ => true) = document.toJson := by
    simp [toJsonKeeping, toJson, Json.keeping_true]
  have hread : document.keeping (fun _ => true) (fun _ _ => true) = document := by
    simp [keeping, Rule.keeping]
  rw [← hwritten, ofJson?_toJsonKeeping rfl (fun _ => rfl) (fun _ => rfl), hread]

end Document

theorem Json.numberFree_ofStrings (texts : List String) : (ofStrings texts).NumberFree :=
  .array (List.forall_mem_map.mpr fun text _ => .string text)

theorem Rule.numberFree_toJson (rule : Rule) : rule.toJson.NumberFree := by
  refine .object ?_
  simp only [List.forall_mem_cons]
  exact ⟨Json.numberFree_ofStrings _, .string _, .string _, .bool _, .string _, by simp⟩

namespace Document

theorem numberFree_toJson (document : Document) : document.toJson.NumberFree := by
  refine .object ?_
  simp only [List.forall_mem_cons]
  exact ⟨Json.numberFree_ofStrings _,
    .array (List.forall_mem_map.mpr fun rule _ => rule.numberFree_toJson), by simp⟩

/-- The text of a document is read as the document. -/
theorem ofText?_compact {path : String} (h : Path.isToml path = false) (document : Document) :
    ofText? path document.toJson.compact = some document := by
  rw [ofText?, h, if_neg Bool.false_ne_true, Json.read?_compact document.numberFree_toJson]
  exact document.ofJson?_toJson

end Document

namespace KnowledgeBase

theorem ofDocument?_toDocument (kb : KnowledgeBase) : ofDocument? kb.toDocument = .ok kb := by
  refine ofDocument?_eq_ok_iff.mpr ⟨rfl, ?_⟩
  have hnone : (kb.rules.map (·.category)).removeAll kb.categories = [] := by
    simpa [List.removeAll] using kb.category_mem
  rw [toDocument, Document.rankedCategories, List.eraseDups_append, hnone,
    eraseDups_of_nodup kb.categories_nodup]
  exact (List.append_nil _).symm

/-- An admitted document is exported with its rules and with its categories by their ranks, in
    whatever order the entries of the ranks are listed. The export is admitted as the same
    knowledge base, and so with the same goals, the same rules for every fact and the same
    display. Both documents hand out the same ranks, also to a category that neither knows. The
    export is read back from its JSON, and a file that holds it is loaded as the knowledge
    base. In the JSON of any document, what can be left out takes its default. -/
theorem export_restores {document : Document} {kb : KnowledgeBase}
    (h : ofDocument? document = .ok kb) :
    (kb.toDocument.rules = document.rules ∧
      ∀ entries : List (String × Nat), entries.Perm document.ranks.toList →
        kb.toDocument.categoryOrder =
          (entries.mergeSort fun entry other => entry.2 ≤ other.2).map (·.1)) ∧
    ofDocument? kb.toDocument = .ok kb ∧
    (∀ category, kb.toDocument.ranks.getD category kb.toDocument.ranks.size =
      document.ranks.getD category document.ranks.size) ∧
    (Document.ofJson? kb.toDocument.toJson.denoted = some kb.toDocument ∧
      ∀ path, Path.isToml path = false →
        load path (.ofText kb.toDocument.toJson.compact) = .ok kb) ∧
    ∀ (kept : String → Bool) (keptOf : Rule → String → Bool), kept "rules" = true →
      (∀ rule, keptOf rule "conditions" = true) → (∀ rule, keptOf rule "action" = true) →
      ∀ other : Document, Document.ofJson? (other.toJsonKeeping kept keptOf).denoted =
        some (other.keeping kept keptOf) := by
  have hrebuilt := kb.ofDocument?_toDocument
  refine ⟨⟨(ofDocument?_eq_ok_iff.mp h).1, fun entries => categories_eq h⟩, hrebuilt,
    fun category => ?_, ⟨kb.toDocument.ofJson?_toJson, fun path hpath => ?_⟩,
    fun kept keptOf => Document.ofJson?_toJsonKeeping⟩
  · rw [← categoryRank_eq hrebuilt, categoryRank_eq h]
  · rw [load, Contents.text?_ofText]
    simp only [Document.ofText?_compact hpath, hrebuilt]

/-- The categories are exported without the repetition, the one that no rule has included. -/
theorem unsorted_export_restores :
    ofDocument? .unsorted = .ok unsorted ∧
      unsorted.toDocument = ⟨["work", "unused", "study", ""], Document.unsorted.rules⟩ ∧
      ofDocument? unsorted.toDocument = .ok unsorted ∧
      load "rules.json" (.ofText unsorted.toDocument.toJson.compact) = .ok unsorted ∧
      Document.ofJson? (Document.unsorted.toJsonKeeping (· = "rules")
        fun _ name => name = "conditions" || name = "action").denoted =
          some ⟨[], [Rule.needsAll ["enrolled"] "student",
            Rule.needsAll ["employed", "student"] "resident", Rule.needsAll ["offer"] "employed",
            Rule.needsAll ["resident"] "visa"]⟩ := by
  obtain ⟨-, hrebuilt, -, ⟨-, hload⟩, hkept⟩ := export_restores ofDocument?_unsorted
  exact ⟨ofDocument?_unsorted, rfl, hrebuilt, hload _ (by decide +kernel),
    hkept _ _ rfl (fun _ => rfl) (fun _ => rfl) .unsorted⟩

end KnowledgeBase

end Consultation
