import Consultation.Knowledge.Basic
import Mathlib.Data.List.Basic
import Mathlib.Data.List.Induction
import Mathlib.Data.List.Nodup
import Mathlib.Order.Lattice

namespace Consultation

/-- Sorting by a key that tells all items apart has one outcome. -/
theorem mergeSort_eq_of_perm {α β : Type} [LinearOrder β] (key : α → β) {items sorted : List α}
    (hperm : items.Perm sorted)
    (hsorted : sorted.Pairwise fun first second => key first < key second) :
    items.mergeSort (fun first second => key first ≤ key second) = sorted := by
  have hsame : ∀ first ∈ items.mergeSort fun first second => key first ≤ key second,
      ∀ second ∈ sorted, key first = key second → first = second := by
    intro first hfirst second hsecond
    have hnodup : (sorted.map key).Nodup := List.pairwise_map.mpr (hsorted.imp ne_of_lt)
    rw [List.mem_mergeSort, hperm.mem_iff] at hfirst
    exact fun heq => List.inj_on_of_nodup_map hnodup hfirst hsecond heq
  have hpairwise : (items.mergeSort fun first second => key first ≤ key second).Pairwise
      fun first second => key first ≤ key second := by
    have htrans (first second third : α) (hle : decide (key first ≤ key second) = true)
        (hnext : decide (key second ≤ key third) = true) : decide (key first ≤ key third) = true :=
      decide_eq_true (le_trans (of_decide_eq_true hle) (of_decide_eq_true hnext))
    have htotal (first second : α) :
        (decide (key first ≤ key second) || decide (key second ≤ key first)) = true := by
      simpa using le_total (key first) (key second)
    exact (List.pairwise_mergeSort htrans htotal items).imp of_decide_eq_true
  refine List.Perm.eq_of_pairwise ?_ hpairwise (hsorted.imp le_of_lt)
    ((List.mergeSort_perm _ _).trans hperm)
  exact fun first second hfirst hsecond hle hge =>
    hsame first hfirst second hsecond (le_antisymm hle hge)

/-- The first appearance of one text in a list is before the first of another. A text that
    is not in the list has its place after the last. -/
def AppearsBefore (texts : List String) (text other : String) : Prop :=
  texts.idxOf text < texts.idxOf other

theorem eraseDups_append_singleton (texts : List String) (last : String) :
    (texts ++ [last]).eraseDups =
      if last ∈ texts then texts.eraseDups else texts.eraseDups ++ [last] := by
  rw [List.eraseDups_append]
  by_cases hlast : last ∈ texts <;> simp [List.removeAll, hlast, List.eraseDups_cons]

/-- A list without repetitions loses nothing. -/
theorem eraseDups_of_nodup {texts : List String} (h : texts.Nodup) : texts.eraseDups = texts := by
  induction texts using List.reverseRecOn with
  | nil => rfl
  | append_singleton texts last ih =>
    obtain ⟨htexts, -, hdisjoint⟩ := List.nodup_append.mp h
    have hlast : last ∉ texts := fun hmem => hdisjoint last hmem last (by simp) rfl
    rw [eraseDups_append_singleton, if_neg hlast, ih htexts]

/-- Without its repetitions, a list keeps the order of first appearance. -/
theorem pairwise_eraseDups (texts : List String) :
    texts.eraseDups.Pairwise (AppearsBefore texts) := by
  induction texts using List.reverseRecOn with
  | nil => simp
  | append_singleton texts last ih =>
    have hkept := ih.imp_of_mem (S := AppearsBefore (texts ++ [last])) fun htext hother hbefore => by
      rw [List.mem_eraseDups] at htext hother
      rwa [AppearsBefore, List.idxOf_append_of_mem htext, List.idxOf_append_of_mem hother]
    rw [eraseDups_append_singleton]
    split
    · exact hkept
    · next hnew =>
      refine List.pairwise_append.mpr ⟨hkept, List.pairwise_singleton _ _, fun text htext => ?_⟩
      rw [List.mem_eraseDups] at htext
      rw [List.forall_mem_singleton, AppearsBefore, List.idxOf_append_of_mem htext,
        List.idxOf_append_of_notMem hnew]
      exact Nat.lt_of_lt_of_le (List.idxOf_lt_length_iff.mpr htext) (Nat.le_add_right _ _)

/-- Items can be picked before or after their repetitions are taken out. -/
theorem eraseDups_filter (keep : String → Bool) (texts : List String) :
    (texts.filter keep).eraseDups = texts.eraseDups.filter keep := by
  induction texts using List.reverseRecOn with
  | nil => rfl
  | append_singleton texts last ih =>
    rw [List.filter_append, eraseDups_append_singleton]
    cases hkeep : keep last
    · rw [List.filter_cons_of_neg (by simp [hkeep]), List.filter_nil, List.append_nil, ih]
      by_cases hlast : last ∈ texts <;> simp [hlast, hkeep]
    · rw [List.filter_cons_of_pos hkeep, List.filter_nil, eraseDups_append_singleton, ih]
      by_cases hlast : last ∈ texts <;> simp [hlast, hkeep]

theorem pairwise_of_nodup {texts : List String} (h : texts.Nodup) :
    texts.Pairwise (AppearsBefore texts) := by
  refine List.pairwise_iff_getElem.mpr fun first second hfirst hsecond hlt => ?_
  rw [AppearsBefore, h.idxOf_getElem, h.idxOf_getElem]
  exact hlt

theorem AppearsBefore.eraseDups {texts : List String} {text other : String}
    (h : AppearsBefore texts text other) (hother : other ∈ texts) :
    AppearsBefore texts.eraseDups text other := by
  have htext : text ∈ texts :=
    List.idxOf_lt_length_iff.mp (Nat.lt_of_lt_of_le h List.idxOf_le_length)
  rw [← List.mem_eraseDups] at htext hother
  by_contra hnot
  rcases Nat.lt_or_eq_of_le (Nat.le_of_not_lt hnot) with hlt | heq
  · have hbefore := List.pairwise_iff_getElem.mp (pairwise_eraseDups texts) _ _
      (List.idxOf_lt_length_iff.mpr hother) (List.idxOf_lt_length_iff.mpr htext) hlt
    rw [List.getElem_idxOf, List.getElem_idxOf] at hbefore
    exact Nat.lt_asymm h hbefore
  · obtain rfl := (List.idxOf_inj hother).mp heq
    exact Nat.lt_irrefl _ h

end Consultation
