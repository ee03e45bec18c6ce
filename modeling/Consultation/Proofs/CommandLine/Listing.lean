import Consultation.CommandLine.Run
import Consultation.Proofs.Knowledge.Document

namespace Consultation

namespace CommandLine

/-- The command that lists rules prints the listing of the file that it is given. -/
theorem run_list {files : String → Contents} {arguments : List String} {limitsPath : Option String}
    {path : String} {limits : Limits} {kb : KnowledgeBase}
    (harguments : Invocation.ofArguments? arguments = some ⟨limitsPath, .list path⟩)
    (hlimits : Invocation.limits ⟨limitsPath, .list path⟩ files = .ok limits)
    (hload : KnowledgeBase.load path (files path) = .ok kb) (input : ByteArray) :
    run files arguments input = ⟨0, kb.listing, []⟩ := by
  rw [run, launch, harguments]
  simp only [hlimits, hload]

end CommandLine

namespace KnowledgeBase

theorem load_eq_ok {path text : String} {contents : Contents} {document : Document}
    {kb : KnowledgeBase} (htext : contents.text? = some text)
    (hdocument : Document.ofText? path text = some document) (h : ofDocument? document = .ok kb) :
    load path contents = .ok kb := by
  rw [load, htext]
  simp only [hdocument, h]

variable (kb : KnowledgeBase)

/-- The line above the rules of a category. -/
def heading (category : String) : String :=
  (if category.isEmpty then "(uncategorized)" else category) ++ ":"

/-- The line of a rule. Rules are counted from one. -/
def ruleLine (id : kb.Id) : String := "  " ++ toString (id.val + 1) ++ ". " ++ (kb.rule id).text

/-- The lines for rules that are listed one after the other. A heading stands before each rule
    whose category is not the one that is being shown. At first none is. -/
def linesAfter (shown : Option String) : List kb.Id → List String
  | [] => []
  | id :: rest =>
    let category := (kb.rule id).category
    let lines := kb.ruleLine id :: linesAfter (some category) rest
    if shown = some category then lines else heading category :: lines

variable {kb}

theorem linesAfter_append {category : String} {ids : List kb.Id}
    (h : ∀ id ∈ ids, (kb.rule id).category = category) (rest : List kb.Id) :
    kb.linesAfter (some category) (ids ++ rest) =
      ids.map kb.ruleLine ++ kb.linesAfter (some category) rest := by
  induction ids with
  | nil => rfl
  | cons id ids ih =>
    obtain ⟨hid, hids⟩ := List.forall_mem_cons.mp h
    rw [List.cons_append, linesAfter, if_pos (congrArg some hid.symm), hid, ih hids]
    rfl

/-- A category that is not being shown brings its heading, if it has rules. -/
theorem linesAfter_inCategory {shown : Option String} {category : String}
    (h : shown ≠ some category) (rest : List kb.Id) :
    kb.linesAfter shown (kb.inCategory category ++ rest) =
      if kb.inCategory category = [] then kb.linesAfter shown rest
      else kb.categoryListing category ++ kb.linesAfter (some category) rest := by
  have hcategory : ∀ id ∈ kb.inCategory category, (kb.rule id).category = category :=
    fun id => mem_inCategory.mp
  rw [categoryListing]
  cases hids : kb.inCategory category with
  | nil => rfl
  | cons id ids =>
    rw [hids] at hcategory
    obtain ⟨hid, hids⟩ := List.forall_mem_cons.mp hcategory
    rw [List.cons_append, linesAfter, hid, if_neg h, linesAfter_append hids]
    rfl

/-- No category is shown twice, so that the headings separate the categories. -/
theorem linesAfter_flatMap {categories : List String} (hnodup : categories.Nodup)
    {shown : Option String} (hshown : ∀ category ∈ categories, shown ≠ some category) :
    kb.linesAfter shown (categories.flatMap kb.inCategory) =
      categories.flatMap kb.categoryListing := by
  induction categories generalizing shown with
  | nil => rfl
  | cons category rest ih =>
    obtain ⟨hnew, hrest⟩ := List.nodup_cons.mp hnodup
    obtain ⟨hcategory, hothers⟩ := List.forall_mem_cons.mp hshown
    rw [List.flatMap_cons, List.flatMap_cons, linesAfter_inCategory hcategory]
    split
    · next hempty =>
      rw [ih hrest hothers, categoryListing, hempty]
      rfl
    · refine congrArg _ (ih hrest fun other hother heq => hnew ?_)
      rwa [Option.some.inj heq]

/-- A category has a group in the listing where it has a rule. -/
def groups (kb : KnowledgeBase) : List String :=
  kb.categories.filter fun category => kb.inCategory category ≠ []

theorem mem_groups {category : String} :
    category ∈ kb.groups ↔ ∃ rule ∈ kb.rules, rule.category = category := by
  rw [groups, List.mem_filter, decide_eq_true_eq]
  constructor
  · rintro ⟨-, hids⟩
    obtain ⟨id, hid⟩ := List.exists_mem_of_ne_nil _ hids
    exact ⟨kb.rule id, kb.rule_mem id, mem_inCategory.mp hid⟩
  · rintro ⟨rule, hrule, rfl⟩
    obtain ⟨id, rfl⟩ := exists_id_of_mem hrule
    exact ⟨kb.category_mem _ hrule, List.ne_nil_of_mem (mem_inCategory.mpr rfl)⟩

/-- The lines of a category are its heading and its rules. -/
def groupLines (kb : KnowledgeBase) (category : String) : List String :=
  heading category :: (kb.inCategory category).map kb.ruleLine

theorem flatMap_categoryListing (categories : List String) :
    categories.flatMap kb.categoryListing =
      (categories.filter fun category => kb.inCategory category ≠ []).flatMap kb.groupLines := by
  induction categories with
  | nil => rfl
  | cons category rest ih =>
    rw [List.flatMap_cons, ih, categoryListing]
    by_cases hids : kb.inCategory category = []
    · simp [hids]
    · simp [hids, groupLines, heading, ruleLine]

section

variable {document : Document} (h : ofDocument? document = .ok kb)

include h

theorem pairwise_categories : kb.categories.Pairwise document.Precedes := by
  rw [(ofDocument?_eq_ok_iff.mp h).2]
  exact document.pairwise_rankedCategories

/-- The rules of a category stand together in the display, after those of the categories that
    precede it and before the others. -/
theorem exists_displayOrder_eq {category : String} (hcategory : category ∈ kb.categories) :
    ∃ before after, kb.displayOrder = before ++ kb.inCategory category ++ after ∧
      (∀ id ∈ before, document.Precedes (kb.rule id).category category) ∧
      ∀ id ∈ after, document.Precedes category (kb.rule id).category := by
  obtain ⟨front, back, hsplit⟩ := List.append_of_mem hcategory
  have hpairwise := pairwise_categories h
  rw [hsplit, List.pairwise_append, List.pairwise_cons] at hpairwise
  obtain ⟨-, ⟨hback, -⟩, hfront⟩ := hpairwise
  refine ⟨front.flatMap kb.inCategory, back.flatMap kb.inCategory, ?_, fun id hid => ?_,
    fun id hid => ?_⟩
  · rw [displayOrder, hsplit, List.flatMap_append, List.flatMap_cons, List.append_assoc]
  · obtain ⟨other, hother, hid⟩ := List.mem_flatMap.mp hid
    rw [mem_inCategory.mp hid]
    exact hfront other hother category List.mem_cons_self
  · obtain ⟨other, hother, hid⟩ := List.mem_flatMap.mp hid
    rw [mem_inCategory.mp hid]
    exact hback other hother

end

/-- The display takes every rule once, as sorting by rank and declaration does. It takes the
    rules of each category together and as they are declared: the categories of the category
    order come in the order in which it names them first, then the others as the rules bring
    them up. The listing has one group for each category that has a rule, in the same order,
    with its heading and its rules, which is what comes of watching for changes of the category.
    The command that lists rules prints this for every file, and the rows that are shown with a
    consultation come in the order of the display. -/
theorem listing_by_category {document : Document} (h : ofDocument? document = .ok kb) :
    (kb.displayOrder.Perm kb.ids ∧
      (∀ category ∈ kb.categories, ∃ before after,
        kb.displayOrder = before ++ kb.inCategory category ++ after ∧
        (∀ id ∈ before, document.Precedes (kb.rule id).category category) ∧
        ∀ id ∈ after, document.Precedes category (kb.rule id).category) ∧
      ∀ category, (kb.inCategory category).Pairwise (· < ·) ∧
        ∀ id, id ∈ kb.inCategory category ↔ (kb.rule id).category = category) ∧
    (kb.displayOrder = kb.ids.mergeSort (fun id later => kb.displayKey id ≤ kb.displayKey later) ∧
      ∀ category, kb.categoryRank category = document.ranks.getD category document.ranks.size) ∧
    (∃ groups : List String, groups.Nodup ∧ groups.Pairwise document.Precedes ∧
      (∀ category, category ∈ groups ↔ ∃ rule ∈ document.rules, rule.category = category) ∧
      kb.listing = Text.joinLines (groups.flatMap kb.groupLines) ∧
      kb.listing = Text.joinLines (kb.linesAfter none kb.displayOrder)) ∧
    (∀ (files : String → Contents) (arguments : List String) (input : ByteArray)
      (limitsPath : Option String) (limits : Limits) (path text : String),
      CommandLine.Invocation.ofArguments? arguments = some ⟨limitsPath, .list path⟩ →
      CommandLine.Invocation.limits ⟨limitsPath, .list path⟩ files = .ok limits →
      (files path).text? = some text → Document.ofText? path text = some document →
      CommandLine.run files arguments input = ⟨0, kb.listing, []⟩) ∧
    ∀ table, (kb.ruleRows table).map (fun row => (row.position, row.conclusion, row.category)) =
      kb.displayOrder.map fun id => (id.val, (kb.rule id).action, (kb.rule id).category) := by
  have hcategories := pairwise_categories h
  refine ⟨⟨kb.displayOrder_perm, fun category => exists_displayOrder_eq h,
      fun category => ⟨kb.pairwise_inCategory category, fun id => mem_inCategory⟩⟩,
    ⟨kb.displayOrder_eq, categoryRank_eq h⟩,
    ⟨kb.groups, kb.categories_nodup.filter _, hcategories.filter _, fun category => ?_, ?_, ?_⟩,
    fun files arguments input limitsPath limits path text harguments hlimits htext hdocument =>
      CommandLine.run_list harguments hlimits (load_eq_ok htext hdocument h) input, fun table => ?_⟩
  · rw [← (ofDocument?_eq_ok_iff.mp h).1]
    exact mem_groups
  · rw [listing, flatMap_categoryListing, groups]
  · have hunshown : ∀ category ∈ kb.categories, none ≠ some category := fun _ _ => nofun
    rw [listing, displayOrder, linesAfter_flatMap kb.categories_nodup hunshown]
  · rw [ruleRows, List.map_map]
    rfl

/-- The rules without a category come last, since the category order names others before. -/
theorem unsorted_listing_by_category :
    ofDocument? .unsorted = .ok unsorted ∧
      unsorted.displayOrder = [(2 : Fin 4), (0 : Fin 4), (3 : Fin 4), (1 : Fin 4)] ∧
      CommandLine.run (fun _ => .ofText Document.unsorted.toJson.compact)
        ["rules", "--rules", "rules.json"] .empty =
        ⟨0, Text.joinLines ["work:", "  3. IF offer THEN employed", "study:",
          "  1. IF enrolled THEN student", "  4. IF resident THEN visa [goal]",
          "(uncategorized):", "  2. IF employed OR student THEN resident"], []⟩ := by
  obtain ⟨-, -, ⟨_, -, -, -, -, hlisting⟩, hrun, -⟩ := listing_by_category ofDocument?_unsorted
  have horder : unsorted.displayOrder = [(2 : Fin 4), (0 : Fin 4), (3 : Fin 4), (1 : Fin 4)] := by
    rfl
  have hprinted := hrun (fun _ => .ofText Document.unsorted.toJson.compact)
    ["rules", "--rules", "rules.json"] .empty none {} "rules.json" _ (by decide +kernel) rfl
    (Contents.text?_ofText _) (Document.unsorted.ofText?_compact (by decide +kernel))
  refine ⟨ofDocument?_unsorted, horder, hprinted.trans ?_⟩
  rw [hlisting, horder]
  rfl

end KnowledgeBase

end Consultation
