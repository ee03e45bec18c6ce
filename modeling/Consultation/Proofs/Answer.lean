import Consultation.Answer
import Mathlib

namespace Consultation

namespace Text

theorem isBlank_toLower (c : Char) : isBlank c.toLower = isBlank c := by
  by_cases hupper : c.isUpper = true
  · -- Neither case of a letter is blank.
    rw [Char.toLower_eq_of_isUpper hupper]
    simp only [Char.isUpper, UInt32.le_iff_toNat_le, decide_eq_true_eq] at hupper
    have hrange : 65 ≤ c.toNat ∧ c.toNat ≤ 90 := hupper
    have hvalid : (c.toNat + 32).isValidChar := by left; omega
    have hlower : (Char.ofNat (c.toNat + 32)).toNat = c.toNat + 32 := by
      rw [Char.toNat_ofNat, if_pos hvalid]
    rw [Bool.eq_iff_iff]
    simp only [isBlank, hlower, Bool.or_eq_true, Bool.and_eq_true, decide_eq_true_eq, beq_iff_eq]
    omega
  · rw [Char.toLower_eq_of_not_isUpper hupper]

theorem trimChars_map_toLower (chars : List Char) :
    trimChars (chars.map Char.toLower) = (trimChars chars).map Char.toLower := by
  have hblank : isBlank ∘ Char.toLower = isBlank := funext isBlank_toLower
  rw [trimChars, trimChars, List.dropWhile_map, ← List.map_reverse, List.dropWhile_map,
    ← List.map_reverse, hblank]

/-- Blanks at the ends do not survive trimming, wherever the blanks of the text begin. -/
theorem trimChars_append {front chars back : List Char} (hfront : ∀ c ∈ front, isBlank c = true)
    (hback : ∀ c ∈ back, isBlank c = true) :
    trimChars (front ++ chars ++ back) = trimChars chars := by
  have hreverse : ∀ c ∈ back.reverse, isBlank c = true := fun c hc =>
    hback c (List.mem_reverse.mp hc)
  rw [trimChars, List.append_assoc, List.dropWhile_append_of_pos hfront, List.dropWhile_append]
  split
  · next hempty =>
    -- A text of blanks alone leaves nothing, with or without more of them.
    rw [List.isEmpty_iff] at hempty
    rw [trimChars, hempty, ← trimChars]
    exact trimChars_eq_nil_iff.mpr hback
  · rw [List.reverse_append, List.dropWhile_append_of_pos hreverse, trimChars]

/-- A text with the case of some letters of ASCII changed. -/
def Respells (text respelled : String) : Prop :=
  List.Forall₂ (fun c d => d = c ∨ d = c.toLower ∨ d = c.toUpper) text.toList respelled.toList

instance (text respelled : String) : Decidable (Respells text respelled) :=
  inferInstanceAs (Decidable (List.Forall₂ _ _ _))

theorem Respells.map_toLower {text respelled : String} (h : Respells text respelled) :
    respelled.toList.map Char.toLower = text.toList.map Char.toLower := by
  unfold Respells at h
  generalize text.toList = chars at h ⊢
  generalize respelled.toList = others at h ⊢
  induction h with
  | nil => rfl
  | cons hchar _ ih =>
    rw [List.map_cons, List.map_cons, ih]
    rcases hchar with rfl | rfl | rfl
    · rfl
    · rw [Char.toLower_toLower_eq_toLower]
    · rw [Char.toLower_toUpper_eq_toLower]

end Text

namespace Answer

/-- A token is looked up without the blanks around it and in one case. -/
theorem lookupForm_respelled {token respelled front back : String}
    (h : Text.Respells token respelled) (hfront : Text.IsBlankText front)
    (hback : Text.IsBlankText back) :
    lookupForm (front ++ respelled ++ back) = lookupForm token := by
  simp only [lookupForm, Text.trim, Text.foldCase, String.toList_append, String.toList_ofList]
  rw [Text.trimChars_append hfront hback, ← Text.trimChars_map_toLower, h.map_toLower,
    Text.trimChars_map_toLower]

theorem read_respelled {token respelled front back : String} (h : Text.Respells token respelled)
    (hfront : Text.IsBlankText front) (hback : Text.IsBlankText back) :
    read (front ++ respelled ++ back) = read token := by
  rw [read, lookupForm_respelled h hfront hback, read]

/-- A token is normalized exactly when its form is not among the words that are understood. -/
theorem normalized_iff {token : String} :
    (read token).normalized = true ↔ lookupForm token ∉ vocabulary.map (·.1) := by
  unfold read
  split
  · next value hlookup =>
    refine iff_of_false nofun (not_not.mpr ?_)
    obtain ⟨entry, hentry, heq⟩ := List.lookup_isSome_iff.mp (Option.isSome_of_eq_some hlookup)
    rw [beq_iff_eq.mp heq]
    exact List.mem_map_of_mem hentry
  · next hlookup =>
    refine iff_of_true rfl fun hmem => ?_
    obtain ⟨entry, hentry, heq⟩ := List.mem_map.mp hmem
    have hne := List.lookup_eq_none_iff.mp hlookup entry hentry
    rw [heq, bne_self_eq_false] at hne
    cases hne

end Answer

end Consultation
