import Consultation.Toml.Reader
import Mathlib.Algebra.BigOperators.Group.List.Basic

namespace Consultation.Toml

/-- The line that gives a name an integer. -/
def integerLine (field : String × Nat) : List Char :=
  field.1.toList ++ ' ' :: '=' :: ' ' :: Nat.toDigits 10 field.2 ++ ['\n']

namespace Scalar

variable {n : Nat}

theorem isDigit_toDigits (n : Nat) : ∀ c ∈ Nat.toDigits 10 n, c.isDigit = true := fun _ h =>
  Nat.isDigit_of_mem_toDigits (by decide) (by decide) h

theorem isLexemeChar_of_isDigit {c : Char} (h : c.isDigit = true) : isLexemeChar c = true := by
  simp [isLexemeChar, Char.isAlphanum, h]

theorem ungroup_of_isDigit {chars : List Char} (hne : chars ≠ [])
    (h : ∀ c ∈ chars, c.isDigit = true) : ungroup Char.isDigit chars = some chars := by
  induction chars with
  | nil => exact absurd rfl hne
  | cons c rest ih =>
    obtain ⟨hc, hrest⟩ := List.forall_mem_cons.mp h
    cases rest with
    | nil => simp [ungroup, hc]
    | cons next rest =>
      have hnext : next ≠ '_' := by
        rintro rfl
        exact absurd (hrest '_' List.mem_cons_self) (by decide)
      rw [ungroup, if_pos hc, ih (List.cons_ne_nil _ _) hrest]
      · rfl
      · exact List.cons_ne_nil _ _
      · exact fun _ hsplit => hnext (List.cons.inj hsplit).1

/-- Only the number zero is written with a zero at the front. -/
theorem toDigits_head_ne_zero {c : Char} {rest : List Char} (hpos : 0 < n)
    (h : Nat.toDigits 10 n = c :: rest) : c ≠ '0' := by
  induction n using Nat.strongRecOn generalizing rest with
  | ind n ih =>
    rw [Nat.toDigits_eq_if (by decide)] at h
    split at h
    · next hlt =>
      obtain ⟨rfl, -⟩ := List.cons.inj h
      intro hzero
      have hcode := Nat.toNat_digitChar_of_lt_ten hlt
      rw [hzero] at hcode
      have : '0'.toNat = 48 := rfl
      omega
    · next hge =>
      cases hhigh : Nat.toDigits 10 (n / 10) with
      | nil => exact absurd hhigh Nat.toDigits_ne_nil
      | cons first following =>
        rw [hhigh, List.cons_append] at h
        obtain ⟨rfl, -⟩ := List.cons.inj h
        exact ih (n / 10) (by omega) (by omega) hhigh

theorem decimal?_toDigits (n : Nat) : decimal? (Nat.toDigits 10 n) = some (Nat.toDigits 10 n) := by
  have hungroup := ungroup_of_isDigit Nat.toDigits_ne_nil (isDigit_toDigits n)
  rw [decimal?, hungroup]
  simp only [Option.bind_eq_bind, Option.bind_some]
  split
  · next next rest hzero =>
    rcases Nat.eq_zero_or_pos n with rfl | hpos
    · simp at hzero
    · exact absurd rfl (toDigits_head_ne_zero hpos hzero)
  · rfl

theorem ofDigits?_eq {chars : List Char} (h : ∀ c ∈ chars, c.isDigit = true) :
    Text.ofDigits? 10 chars = some (Nat.ofDigitChars 10 chars 0) := by
  unfold Text.ofDigits? Nat.ofDigitChars
  generalize 0 = value
  induction chars generalizing value with
  | nil => rfl
  | cons c rest ih =>
    obtain ⟨hc, hrest⟩ := List.forall_mem_cons.mp h
    have hvalue : c.toNat - '0'.toNat < 10 := by
      obtain ⟨hlow, hhigh⟩ := Char.isDigit_iff_toNat.mp hc
      have : '0'.toNat = 48 := rfl
      have : '9'.toNat = 57 := rfl
      omega
    rw [List.foldlM_cons, Text.hexValue?, if_pos hc, List.foldl_cons, ← ih hrest]
    simp only [Option.bind_eq_bind, Option.bind_some, if_pos hvalue]

theorem inRange_natCast (h : n < integerBound) : inRange (n : Int) = true := by
  unfold inRange
  -- The bound as a literal is too large to compute with.
  generalize integerBound = bound at h ⊢
  simp only [Bool.and_eq_true, decide_eq_true_eq]
  omega

theorem signed_of_isDigit {chars : List Char} (h : ∀ c ∈ chars, c.isDigit = true) :
    signed chars = (false, chars) := by
  unfold signed
  split
  · exact absurd (h '+' List.mem_cons_self) (by decide)
  · exact absurd (h '-' List.mem_cons_self) (by decide)
  · rfl

theorem integer?_toDigits (h : n < integerBound) :
    integer? (Nat.toDigits 10 n) = some (n : Int) := by
  have hdigit := isDigit_toDigits n
  have hvalue : Text.ofDigits? 10 (Nat.toDigits 10 n) = some n := by
    rw [ofDigits?_eq hdigit, Nat.ofDigitChars_ten_toDigits]
  unfold integer?
  split
  · next hbase => exact absurd (hdigit 'x' (by simp [hbase])) (by decide)
  · next hbase => exact absurd (hdigit 'o' (by simp [hbase])) (by decide)
  · next hbase => exact absurd (hdigit 'b' (by simp [hbase])) (by decide)
  · rw [signed_of_isDigit hdigit]
    refine Option.bind_eq_some_iff.mpr ⟨Nat.toDigits 10 n, decimal?_toDigits n, ?_⟩
    refine Option.bind_eq_some_iff.mpr ⟨n, hvalue, ?_⟩
    rw [if_neg Bool.false_ne_true]
    exact if_pos (inRange_natCast h)

/-- A number is read from its digits. -/
theorem value?_toDigits (h : n < integerBound) :
    value? (Nat.toDigits 10 n) = some (.integer n) := by
  have hdigit := isDigit_toDigits n
  have htrue : Nat.toDigits 10 n ≠ "true".toList := fun heq =>
    absurd (hdigit 't' (heq ▸ by decide)) (by decide)
  have hfalse : Nat.toDigits 10 n ≠ "false".toList := fun heq =>
    absurd (hdigit 'f' (heq ▸ by decide)) (by decide)
  rw [value?, if_neg htrue, if_neg hfalse, integer?_toDigits h]

end Scalar

/-- A name that needs no quotation marks. -/
structure IsBareName (name : String) : Prop where
  ne_nil : name.toList ≠ []
  all_bare : name.toList.all Reader.isBareKeyChar = true

theorem IsBareName.isBareKeyChar {name : String} (h : IsBareName name) :
    ∀ c ∈ name.toList, Reader.isBareKeyChar c = true := List.all_eq_true.mp h.all_bare

/-- The assignment that a line of an integer makes. -/
def integerAssignment (field : String × Nat) : Assignment := ⟨⟨[], field.1⟩, .integer field.2⟩

namespace Reader

variable {c : Char} {rest : List Char}

theorem ne_of_isLexemeChar {other : Char} (h : Scalar.isLexemeChar c = true)
    (hother : Scalar.isLexemeChar other = false) : c ≠ other := by
  rintro rfl
  rw [h] at hother
  cases hother

theorem isLexemeChar_of_isBareKeyChar (h : isBareKeyChar c = true) :
    Scalar.isLexemeChar c = true := by
  simp only [isBareKeyChar, Bool.or_eq_true] at h
  rcases h with (h | h) | h <;> simp [Scalar.isLexemeChar, h]

theorem isBlank_of_isLexemeChar (h : Scalar.isLexemeChar c = true) : Quoted.isBlank c = false := by
  have hspace : c ≠ ' ' := ne_of_isLexemeChar h (by decide)
  have htab : c ≠ '\t' := ne_of_isLexemeChar h (by decide)
  simp [Quoted.isBlank, hspace, htab]

theorem skipBlanks_cons (h : Scalar.isLexemeChar c = true) :
    skipBlanks (c :: rest) = c :: rest := by
  rw [skipBlanks, List.dropWhile_cons_of_neg (by simp [isBlank_of_isLexemeChar h])]

theorem skipFiller_cons (h : Scalar.isLexemeChar c = true) :
    skipFiller false (c :: rest) = some (c :: rest) := by
  have hline : c ≠ '\n' := ne_of_isLexemeChar h (by decide)
  have hreturn : c ≠ '\r' := ne_of_isLexemeChar h (by decide)
  have hcomment : c ≠ '#' := ne_of_isLexemeChar h (by decide)
  rw [skipFiller]
  · simp [isBlank_of_isLexemeChar h, hcomment]
  · exact hline
  · exact fun _ heq _ => hreturn heq

/-- A lexeme is read up to where it ends, when something can be made of it. -/
theorem scalar_append {lexeme : List Char} {found : Value} (hne : lexeme ≠ [])
    (hlexeme : ∀ c ∈ lexeme, Scalar.isLexemeChar c = true)
    (hfound : Scalar.value? lexeme = some found) (hc : Scalar.isLexemeChar c = false) :
    scalar (lexeme ++ c :: rest) = some (found, c :: rest) := by
  have htaken : (lexeme ++ c :: rest).takeWhile Scalar.isLexemeChar = lexeme := by
    rw [List.takeWhile_append_of_pos hlexeme, List.takeWhile_cons_of_neg (by simp [hc]),
      List.append_nil]
  have hleft : (lexeme ++ c :: rest).dropWhile Scalar.isLexemeChar = c :: rest := by
    rw [List.dropWhile_append_of_pos hlexeme, List.dropWhile_cons_of_neg (by simp [hc])]
  cases lexeme with
  | nil => exact absurd rfl hne
  | cons first following =>
    have hfirst := hlexeme first List.mem_cons_self
    have hdouble : first ≠ '"' := ne_of_isLexemeChar hfirst (by decide)
    have hsingle : first ≠ '\'' := ne_of_isLexemeChar hfirst (by decide)
    rw [List.cons_append] at htaken hleft ⊢
    rw [scalar, htaken, hleft, hfound]
    simp [hdouble, hsingle]

theorem value_eq_scalar (h : Scalar.isLexemeChar c = true) (fuel room : Nat) :
    value (fuel + 1) room (c :: rest) = scalar (c :: rest) := by
  have harray : c ≠ '[' := ne_of_isLexemeChar h (by decide)
  have htable : c ≠ '\x7b' := ne_of_isLexemeChar h (by decide)
  rw [value]
  · exact fun _ heq => harray (List.cons.inj heq).1
  · exact fun _ heq => htable (List.cons.inj heq).1

theorem name_append {text : String} (h : IsBareName text) (hc : isBareKeyChar c = false) :
    name (text.toList ++ c :: rest) = some (text, c :: rest) := by
  have hbare := h.isBareKeyChar
  have htaken : (text.toList ++ c :: rest).takeWhile isBareKeyChar = text.toList := by
    rw [List.takeWhile_append_of_pos hbare, List.takeWhile_cons_of_neg (by simp [hc]),
      List.append_nil]
  have hleft : (text.toList ++ c :: rest).dropWhile isBareKeyChar = c :: rest := by
    rw [List.dropWhile_append_of_pos hbare, List.dropWhile_cons_of_neg (by simp [hc])]
  obtain ⟨first, following, hfirst⟩ := List.exists_cons_of_ne_nil h.ne_nil
  have hhead : Scalar.isLexemeChar first = true :=
    isLexemeChar_of_isBareKeyChar (hbare first (hfirst ▸ List.mem_cons_self))
  rw [name, htaken, hleft, if_neg (by simpa using h.ne_nil), String.ofList_toList]
  · rw [hfirst]
    exact fun _ heq => ne_of_isLexemeChar hhead (by decide) (List.cons.inj heq).1
  · rw [hfirst]
    exact fun _ heq => ne_of_isLexemeChar hhead (by decide) (List.cons.inj heq).1

theorem key_bare {text : String} (h : IsBareName text) (names : Nat) :
    key (names + 1) (text.toList ++ ' ' :: '=' :: rest) = some (⟨[], text⟩, '=' :: rest) := by
  have hblank : skipBlanks (' ' :: '=' :: rest) = '=' :: rest := rfl
  have hskipped : skipBlanks (text.toList ++ ' ' :: '=' :: rest) =
      text.toList ++ ' ' :: '=' :: rest := by
    obtain ⟨first, following, hfirst⟩ := List.exists_cons_of_ne_nil h.ne_nil
    rw [hfirst, List.cons_append, skipBlanks_cons]
    exact isLexemeChar_of_isBareKeyChar (h.isBareKeyChar first (hfirst ▸ List.mem_cons_self))
  rw [key, hskipped, name_append h (by decide)]
  simp [hblank]

/-- A line is read as the assignment that it was written for. -/
theorem assignment_integerLine {field : String × Nat} (hname : IsBareName field.1)
    (hvalue : field.2 < Scalar.integerBound) (rest : List Char) :
    assignment (integerLine field ++ rest) = some (integerAssignment field, rest) := by
  obtain ⟨name, n⟩ := field
  have hlexeme : ∀ c ∈ Nat.toDigits 10 n, Scalar.isLexemeChar c = true := fun c hc =>
    Scalar.isLexemeChar_of_isDigit (Scalar.isDigit_toDigits n c hc)
  have hscalar : scalar (Nat.toDigits 10 n ++ '\n' :: rest) = some (.integer n, '\n' :: rest) :=
    scalar_append Nat.toDigits_ne_nil hlexeme (Scalar.value?_toDigits hvalue) (by decide)
  have hfinished : finishLine ('\n' :: rest) = some rest := rfl
  have hline : integerLine (name, n) ++ rest =
      name.toList ++ ' ' :: '=' :: ' ' :: (Nat.toDigits 10 n ++ '\n' :: rest) := by
    simp [integerLine]
  obtain ⟨first, following, hfirst⟩ := List.exists_cons_of_ne_nil
    Nat.toDigits_ne_nil
  have hhead := hlexeme first (hfirst ▸ List.mem_cons_self)
  have hskipped : skipBlanks (' ' :: (Nat.toDigits 10 n ++ '\n' :: rest)) =
      Nat.toDigits 10 n ++ '\n' :: rest := by
    rw [hfirst, List.cons_append]
    exact skipBlanks_cons hhead
  have hread (fuel : Nat) : value (fuel + 1) maxNesting (Nat.toDigits 10 n ++ '\n' :: rest) =
      some (.integer n, '\n' :: rest) := by
    rw [← hscalar, hfirst, List.cons_append, value_eq_scalar hhead]
  have hkey : key maxNesting (integerLine (name, n) ++ rest) =
      some (⟨[], name⟩, '=' :: ' ' :: (Nat.toDigits 10 n ++ '\n' :: rest)) := by
    rw [hline]
    exact key_bare hname 78
  rw [assignment, hkey]
  simp [hskipped, hread, hfinished, integerAssignment]

theorem exists_integerLine_eq_cons {field : String × Nat} (h : IsBareName field.1) :
    ∃ first following, integerLine field = first :: following ∧ isBareKeyChar first = true := by
  obtain ⟨first, following, hfirst⟩ := List.exists_cons_of_ne_nil h.ne_nil
  refine ⟨first, following ++ ' ' :: '=' :: ' ' :: Nat.toDigits 10 field.2 ++ ['\n'], ?_,
    h.isBareKeyChar first (hfirst ▸ List.mem_cons_self)⟩
  rw [integerLine, hfirst]
  rfl

theorem script_integerLines {fields : List (String × Nat)}
    (h : ∀ field ∈ fields, IsBareName field.1 ∧ field.2 < Scalar.integerBound) {fuel : Nat}
    (hfuel : fields.length < fuel) :
    script fuel (fields.flatMap integerLine) = some ⟨fields.map integerAssignment, []⟩ := by
  induction fields generalizing fuel with
  | nil =>
    cases fuel with
    | zero => cases hfuel
    | succ fuel => rfl
  | cons field fields ih =>
    cases fuel with
    | zero => cases hfuel
    | succ fuel =>
      obtain ⟨⟨hname, hvalue⟩, hrest⟩ := List.forall_mem_cons.mp h
      have hfollowing := ih hrest (Nat.lt_of_succ_lt_succ hfuel)
      have hassignment := assignment_integerLine hname hvalue (fields.flatMap integerLine)
      obtain ⟨first, following, hline, hbare⟩ := exists_integerLine_eq_cons hname
      have hhead := isLexemeChar_of_isBareKeyChar hbare
      have hheader : first ≠ '[' := ne_of_isLexemeChar hhead (by decide)
      rw [List.flatMap_cons, hline, List.cons_append, script, skipFiller_cons hhead]
      rw [hline, List.cons_append] at hassignment
      simp [hheader, hassignment, hfollowing]

end Reader

namespace Entries

/-- A name that is new comes last. -/
theorem alter_of_notMem {entries : Entries} {name : String} (h : name ∉ entries.map (·.1))
    (change : Option Value → Option Value) :
    entries.alter name change = (change none).map fun value => entries ++ [(name, value)] := by
  induction entries with
  | nil => cases hnew : change none <;> simp [alter, hnew]
  | cons entry rest ih =>
    obtain ⟨hne, hrest⟩ := not_or.mp (mt List.mem_cons.mpr h)
    rw [alter, if_neg (Ne.symm hne), ih hrest]
    cases change none <;> rfl

theorem assign_of_notMem {entries : Entries} {name : String} {value : Value}
    (h : name ∉ entries.map (·.1)) :
    entries.assign ⟨⟨[], name⟩, value⟩ = some (entries ++ [(name, value)]) :=
  alter_of_notMem h _

theorem assignAll_of_nodup {fields : List (String × Nat)} (entries : Entries)
    (h : (entries.map (·.1) ++ fields.map (·.1)).Nodup) :
    entries.assignAll (fields.map integerAssignment) =
      some (entries ++ fields.map fun field => (field.1, .integer field.2)) := by
  induction fields generalizing entries with
  | nil => simp [assignAll]
  | cons field fields ih =>
    rw [List.map_cons, assignAll, List.foldlM_cons, integerAssignment, assign_of_notMem]
    · refine (ih (entries ++ [(field.1, .integer field.2)]) (by simpa using h)).trans ?_
      simp
    · exact fun hmem => (List.nodup_append.mp h).2.2 _ hmem _ List.mem_cons_self rfl

end Entries

/-- A text of lines that give different names an integer each is read as those integers under
    their names. -/
theorem read?_integerLines {fields : List (String × Nat)} {text : String}
    (htext : text.toList = fields.flatMap integerLine)
    (h : ∀ field ∈ fields, IsBareName field.1 ∧ field.2 < Scalar.integerBound)
    (hnodup : (fields.map (·.1)).Nodup) :
    read? text = some (fields.map fun field => (field.1, .integer field.2)) := by
  have hmark : Reader.dropByteOrderMark text.toList = text.toList := by
    rw [htext]
    cases fields with
    | nil => rfl
    | cons field fields =>
      have hname := (h field List.mem_cons_self).1
      obtain ⟨first, following, hline, hbare⟩ := Reader.exists_integerLine_eq_cons hname
      have hhead := Reader.isLexemeChar_of_isBareKeyChar hbare
      rw [List.flatMap_cons, hline, List.cons_append, Reader.dropByteOrderMark]
      exact fun _ heq => Reader.ne_of_isLexemeChar hhead (by decide) (List.cons.inj heq).1
  have hlength : fields.length ≤ (fields.flatMap integerLine).length := by
    have hline : ∀ length ∈ fields.map fun field => (integerLine field).length, 1 ≤ length := by
      intro length hmem
      obtain ⟨field, -, rfl⟩ := List.mem_map.mp hmem
      rw [integerLine, List.length_append]
      exact Nat.le_add_left _ _
    have hsum := List.length_le_sum_of_one_le _ hline
    rwa [List.length_map, ← List.length_flatMap] at hsum
  have hscript := Reader.script_integerLines h (Nat.lt_succ_of_le hlength)
  have hassigned := Entries.assignAll_of_nodup [] hnodup
  rw [read?]
  simp only [hmark]
  rw [htext, hscript]
  simp [Entries.ofScript?, hassigned]

end Consultation.Toml
