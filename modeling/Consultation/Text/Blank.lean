namespace Consultation.Text

/-- The blank characters are the code points that carry the Unicode property
    White_Space. The joiners and marks without that property, such as U+200B
    and U+FEFF, are not blank. -/
def isBlank (c : Char) : Bool :=
  let code := c.toNat
  (0x09 ≤ code && code ≤ 0x0D) || code == 0x20 || code == 0x85 || code == 0xA0 || code == 0x1680 ||
    (0x2000 ≤ code && code ≤ 0x200A) || code == 0x2028 || code == 0x2029 || code == 0x202F ||
    code == 0x205F || code == 0x3000

/-- A text is blank when it holds no character besides blanks. The empty text
    is blank. -/
def IsBlankText (text : String) : Prop := ∀ c ∈ text.toList, isBlank c = true

instance (text : String) : Decidable (IsBlankText text) :=
  inferInstanceAs (Decidable (∀ c ∈ text.toList, isBlank c = true))

/-- Removes the blanks at both ends of a list of characters. -/
def trimChars (chars : List Char) : List Char :=
  ((chars.dropWhile isBlank).reverse.dropWhile isBlank).reverse

/-- Removes the blanks at both ends. -/
def trim (text : String) : String := String.ofList (trimChars text.toList)

/-- Lower-cases the letters of ASCII and leaves every other character alone. -/
def foldCase (text : String) : String := String.ofList (text.toList.map Char.toLower)

/-- The maximal runs of characters that are not blank, in order. -/
def words (text : String) : List String :=
  ((text.toList.splitOnP isBlank).filter (!·.isEmpty)).map String.ofList

private theorem dropWhile_eq_nil {p : Char → Bool} {chars : List Char} :
    chars.dropWhile p = [] ↔ ∀ c ∈ chars, p c = true := by
  induction chars with
  | nil => simp
  | cons c rest ih => by_cases h : p c = true <;> simp [h, ih]

/-- A kept character survives at the head of what is dropped, so trimming is
    empty only where nothing but blanks was written. -/
theorem trimChars_eq_nil_iff {chars : List Char} :
    trimChars chars = [] ↔ ∀ c ∈ chars, isBlank c = true := by
  constructor
  · intro h
    rw [trimChars, List.reverse_eq_nil_iff, dropWhile_eq_nil] at h
    cases hrest : chars.dropWhile isBlank with
    | nil => exact dropWhile_eq_nil.mp hrest
    | cons c rest =>
      have hc : isBlank c = true := h c (by simp [hrest])
      have hfails := List.head?_dropWhile_not isBlank chars
      simp [hrest, hc] at hfails
  · intro h
    rw [trimChars, dropWhile_eq_nil.mpr h]
    rfl

/-- Blank texts are those that trimming empties. -/
theorem trim_eq_empty_iff {text : String} : trim text = "" ↔ IsBlankText text := by
  rw [trim, IsBlankText, ← trimChars_eq_nil_iff, ← String.toList_inj, String.toList_ofList]
  rfl

end Consultation.Text
