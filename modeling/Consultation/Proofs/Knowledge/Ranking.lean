import Consultation.Proofs.Knowledge.Appearance
import Mathlib.Data.List.Basic
import Mathlib.Data.Prod.Lex

namespace Consultation

/-- The ranks of categories as they are handed out one after the other. A category that has
    none yet takes the next. -/
def ranksOf (categories : List String) : Std.HashMap String Nat :=
  categories.foldl (fun ranks category => ranks.insertIfNew category ranks.size) ∅

theorem ranksOf_append_singleton (categories : List String) (category : String) :
    ranksOf (categories ++ [category]) =
      (ranksOf categories).insertIfNew category (ranksOf categories).size := by
  rw [ranksOf, List.foldl_append]
  rfl

/-- The rank of a category is its place among those that are handed out ranks. -/
theorem ranksOf_spec (categories : List String) :
    (∀ category, (ranksOf categories)[category]? =
      if category ∈ categories then some (categories.eraseDups.idxOf category) else none) ∧
    (ranksOf categories).size = categories.eraseDups.length := by
  induction categories using List.reverseRecOn with
  | nil => simp [ranksOf]
  | append_singleton categories last ih =>
    obtain ⟨hranks, hsize⟩ := ih
    have hmem : last ∈ ranksOf categories ↔ last ∈ categories := by
      rw [Std.HashMap.mem_iff_isSome_getElem?, hranks]
      split <;> simp_all
    rw [ranksOf_append_singleton, eraseDups_append_singleton]
    simp only [Std.HashMap.getElem?_insertIfNew, Std.HashMap.size_insertIfNew, hmem, hranks, hsize,
      List.mem_append, List.mem_singleton, beq_iff_eq]
    by_cases hlast : last ∈ categories
    · have hsame (category : String) : category ∈ categories ∨ category = last ↔
          category ∈ categories := or_iff_left_of_imp fun heq => heq ▸ hlast
      simp [hlast, hsame]
    · refine ⟨fun category => ?_, by simp [hlast]⟩
      by_cases heq : last = category
      · subst heq
        simp [hlast, List.idxOf_append_of_notMem, List.mem_eraseDups]
      · by_cases hcategory : category ∈ categories
        · simp [hlast, heq, hcategory, List.idxOf_append_of_mem, List.mem_eraseDups]
        · simp [hlast, heq, hcategory, Ne.symm heq]

/-- Reading the ranks in their order gives back the categories, whatever the order is in which
    the entries of the map are listed. -/
theorem mergeSort_entries {categories : List String} {entries : List (String × Nat)}
    (h : entries.Perm (ranksOf categories).toList) :
    (entries.mergeSort fun entry other => entry.2 ≤ other.2).map (·.1) = categories.eraseDups := by
  obtain ⟨hranks, -⟩ := ranksOf_spec categories
  have hsorted : categories.eraseDups.zipIdx.Pairwise fun entry other => entry.2 < other.2 := by
    refine List.pairwise_map.mp ?_
    rw [List.zipIdx_map_snd]
    exact List.pairwise_lt_range'
  have hperm : (ranksOf categories).toList.Perm categories.eraseDups.zipIdx := by
    refine (List.perm_ext_iff_of_nodup ?_ ?_).mpr fun ⟨category, rank⟩ => ?_
    · refine Std.HashMap.distinct_keys_toList.imp fun hne heq => ?_
      rw [heq, beq_self_eq_true] at hne
      cases hne
    · exact hsorted.imp fun hlt heq => Nat.ne_of_lt hlt (congrArg Prod.snd heq)
    · rw [Std.HashMap.mem_toList_iff_getElem?_eq_some, hranks, List.mem_zipIdx_iff_getElem?,
        List.getElem?_eq_some_iff, Option.ite_none_right_eq_some, Option.some.injEq,
        ← List.mem_eraseDups, ← List.idxOf_lt_length_iff]
      constructor
      · rintro ⟨hlt, rfl⟩
        exact ⟨hlt, List.getElem_idxOf hlt⟩
      · rintro ⟨hlt, heq⟩
        have hplace := (nodup_eraseDups categories).idxOf_getElem rank hlt
        rw [show categories.eraseDups[rank] = category from heq] at hplace
        exact ⟨by rw [hplace]; exact hlt, hplace⟩
  rw [mergeSort_eq_of_perm (·.2) (h.trans hperm) hsorted, List.zipIdx_map_fst]

/-- The ranks of the categories of a document: those of its category order come first. -/
def Document.ranks (document : Document) : Std.HashMap String Nat :=
  ranksOf (document.categoryOrder ++ document.rules.map (·.category))

/-- Of two categories the one that the category order names first precedes the other, and
    one that it names precedes those that it does not. Among these the rules decide. -/
inductive Document.Precedes (document : Document) (category other : String) : Prop where
  | listed (h : AppearsBefore document.categoryOrder category other)
  | unlisted (hcategory : category ∉ document.categoryOrder)
    (hother : other ∉ document.categoryOrder)
    (h : AppearsBefore (document.rules.map (·.category)) category other)

theorem Document.precedes_iff {document : Document} {category other : String} :
    document.Precedes category other ↔
      AppearsBefore (document.categoryOrder ++ document.rules.map (·.category)) category other := by
  constructor
  · rintro (h | ⟨hcategory, hother, h⟩)
    · have hcategory := List.idxOf_lt_length_iff.mp (Nat.lt_of_lt_of_le h List.idxOf_le_length)
      rw [AppearsBefore, List.idxOf_append_of_mem hcategory, List.idxOf_append]
      split
      · exact h
      · exact Nat.lt_of_lt_of_le (List.idxOf_lt_length_iff.mpr hcategory) (Nat.le_add_left _ _)
    · rw [AppearsBefore, List.idxOf_append_of_notMem hcategory, List.idxOf_append_of_notMem hother]
      exact Nat.add_lt_add_left h _
  · intro h
    by_cases hcategory : category ∈ document.categoryOrder
    · refine .listed ?_
      by_cases hother : other ∈ document.categoryOrder
      · rwa [AppearsBefore, List.idxOf_append_of_mem hcategory,
          List.idxOf_append_of_mem hother] at h
      · rw [AppearsBefore, List.idxOf_eq_length_iff.mpr hother]
        exact List.idxOf_lt_length_iff.mpr hcategory
    · rw [AppearsBefore, List.idxOf_append_of_notMem hcategory] at h
      by_cases hother : other ∈ document.categoryOrder
      · rw [List.idxOf_append_of_mem hother] at h
        have hplace := List.idxOf_lt_length_iff.mpr hother
        omega
      · rw [List.idxOf_append_of_notMem hother] at h
        exact .unlisted hcategory hother (Nat.lt_of_add_lt_add_left h)

theorem Document.pairwise_rankedCategories (document : Document) :
    document.rankedCategories.Pairwise document.Precedes :=
  (pairwise_eraseDups _).imp precedes_iff.mpr

namespace KnowledgeBase

/-- A document is admitted as the knowledge base that has its rules and its categories. -/
theorem ofDocument?_eq_ok_iff {document : Document} {kb : KnowledgeBase} :
    ofDocument? document = .ok kb ↔
      kb.rules = document.rules ∧ kb.categories = document.rankedCategories := by
  unfold ofDocument?
  split
  · next defect hdefect =>
    refine iff_of_false nofun fun ⟨hrules, _⟩ => ?_
    rw [Rule.firstDefect?_eq_none_iff.mpr (hrules ▸ kb.wellFormed)] at hdefect
    cases hdefect
  · rw [Except.ok.injEq, KnowledgeBase.ext_iff]
    exact and_congr eq_comm eq_comm

section

variable {document : Document} {kb : KnowledgeBase} (h : ofDocument? document = .ok kb)

include h

/-- A category that was handed no rank comes after all that were. -/
theorem categoryRank_eq (category : String) :
    kb.categoryRank category = document.ranks.getD category document.ranks.size := by
  obtain ⟨hranks, hsize⟩ :=
    ranksOf_spec (document.categoryOrder ++ document.rules.map (·.category))
  rw [categoryRank, (ofDocument?_eq_ok_iff.mp h).2, Std.HashMap.getD_eq_getD_getElem?,
    Document.ranks, hranks, hsize]
  split
  · rfl
  · next hmissing =>
    exact List.idxOf_eq_length_iff.mpr (mt List.mem_eraseDups.mp hmissing)

/-- The categories come in the order of their ranks. -/
theorem categories_eq {entries : List (String × Nat)}
    (hentries : entries.Perm document.ranks.toList) :
    kb.categories = (entries.mergeSort fun entry other => entry.2 ≤ other.2).map (·.1) := by
  rw [(ofDocument?_eq_ok_iff.mp h).2, mergeSort_entries hentries]
  rfl

end

variable (kb : KnowledgeBase)

theorem mem_inCategory {kb : KnowledgeBase} {category : String} {id : kb.Id} :
    id ∈ kb.inCategory category ↔ (kb.rule id).category = category := by
  simp [inCategory]

theorem pairwise_inCategory (category : String) : (kb.inCategory category).Pairwise (· < ·) :=
  (List.pairwise_lt_finRange kb.size).filter _

/-- The place of a rule in displays: its category decides, then its declaration. -/
def displayKey (id : kb.Id) : Nat ×ₗ Nat := toLex (kb.categoryRank (kb.rule id).category, id)

theorem pairwise_displayOrder :
    kb.displayOrder.Pairwise fun id later => kb.displayKey id < kb.displayKey later := by
  refine List.pairwise_flatMap.mpr ⟨fun category _ => ?_, ?_⟩
  · refine (kb.pairwise_inCategory category).imp_of_mem fun hid hlater hlt => ?_
    refine Prod.Lex.toLex_lt_toLex.mpr (.inr ⟨?_, hlt⟩)
    rw [mem_inCategory.mp hid, mem_inCategory.mp hlater]
  · refine (pairwise_of_nodup kb.categories_nodup).imp fun hbefore id hid later hlater => ?_
    refine Prod.Lex.toLex_lt_toLex.mpr (.inl ?_)
    rw [mem_inCategory.mp hid, mem_inCategory.mp hlater]
    exact hbefore

theorem mem_displayOrder (id : kb.Id) : id ∈ kb.displayOrder :=
  List.mem_flatMap.mpr ⟨_, kb.category_mem _ (kb.rule_mem id), mem_inCategory.mpr rfl⟩

/-- No rule is lost or shown twice. -/
theorem displayOrder_perm : kb.displayOrder.Perm kb.ids :=
  have hnodup : kb.displayOrder.Nodup :=
    kb.pairwise_displayOrder.imp fun hlt heq => ne_of_lt hlt (congrArg kb.displayKey heq)
  (List.perm_ext_iff_of_nodup hnodup (List.nodup_finRange _)).mpr fun id =>
    iff_of_true (kb.mem_displayOrder id) (kb.mem_ids id)

/-- Category by category is the same as by rank and then by declaration. -/
theorem displayOrder_eq :
    kb.displayOrder = kb.ids.mergeSort fun id later => kb.displayKey id ≤ kb.displayKey later :=
  (mergeSort_eq_of_perm kb.displayKey kb.displayOrder_perm.symm kb.pairwise_displayOrder).symm

end KnowledgeBase

/-- The order names a category twice and one that no rule has, and leaves out two. -/
def Document.unsorted : Document where
  categoryOrder := ["work", "unused", "work"]
  rules := [(Rule.needsAll ["enrolled"] "student").inCategory "study",
    Rule.needsAny ["employed", "student"] "resident",
    (Rule.needsAll ["offer"] "employed").inCategory "work",
    (Rule.needsAll ["resident"] "visa").asGoal.inCategory "study"]

namespace KnowledgeBase

def unsorted : KnowledgeBase where
  rules := Document.unsorted.rules
  categories := ["work", "unused", "study", ""]
  wellFormed := by
    simp [Document.unsorted, Rule.wellFormed_iff, Rule.needsAll, Rule.needsAny, Rule.asGoal,
      Rule.inCategory, Text.IsBlankText, Text.isBlank]
  categories_nodup := by decide
  category_mem := by decide

theorem ofDocument?_unsorted : ofDocument? .unsorted = .ok unsorted :=
  ofDocument?_eq_ok_iff.mpr ⟨rfl, by decide⟩

end KnowledgeBase

end Consultation
