import Consultation.Text.Hex

namespace Consultation.Toml.Quoted

/-- The characters that stand for themselves in comments and strings, line
    ends apart: tabs, and all that are not control characters. -/
def isTextChar (c : Char) : Bool := c == '\t' || (0x20 ≤ c.toNat && c.toNat != 0x7F)

def isBlank (c : Char) : Bool := c == ' ' || c == '\t'

/-- The character that a letter stands for after a backslash. -/
def escaped? : Char → Option Char
  | '"' => some '"'
  | '\\' => some '\\'
  | 'b' => some '\x08'
  | 'f' => some '\x0c'
  | 'n' => some '\n'
  | 'r' => some '\r'
  | 't' => some '\t'
  | _ => none

/-- The character whose number hexadecimal digits write. -/
def scalar? (digits : List Char) : Option Char := do
  let code ← Text.ofDigits? 16 digits
  if code.isValidChar then some (Char.ofNat code) else none

/-- The character that an escape denotes, and what follows the escape. The
    backslash has been read. -/
def escape? : List Char → Option (Char × List Char)
  | 'u' :: a :: b :: c :: d :: rest => do return (← scalar? [a, b, c, d], rest)
  | 'U' :: a :: b :: c :: d :: e :: f :: g :: h :: rest => do
    return (← scalar? [a, b, c, d, e, f, g, h], rest)
  | letter :: rest => do return (← escaped? letter, rest)
  | [] => none

theorem escape?_length {chars rest : List Char} {c : Char} (h : escape? chars = some (c, rest)) :
    rest.length < chars.length := by
  unfold escape? at h
  split at h <;> simp [Option.bind_eq_some_iff] at h <;> obtain ⟨_, -, -, rfl⟩ := h <;>
    simp only [List.length_cons] <;> omega

/-- The text of a string on one line, up to its closing quotation mark. Only
    some strings have escapes. -/
def line (quote : Char) (escapes : Bool) (chars : List Char) : Option (List Char × List Char) :=
  match chars with
  | [] => none
  | c :: rest =>
    if c == quote then some ([], rest)
    else if escapes && c == '\\' then
      match hescape : escape? rest with
      | some (c, rest') => do
        have := escape?_length hescape
        let (text, final) ← line quote escapes rest'
        return (c :: text, final)
      | none => none
    else if isTextChar c then do
      let (text, final) ← line quote escapes rest
      return (c :: text, final)
    else none
termination_by chars.length

/-- Whether a line ends here, after blanks. -/
def endsLine (chars : List Char) : Bool :=
  match chars.dropWhile isBlank with
  | '\n' :: _ | '\r' :: '\n' :: _ => true
  | _ => false

/-- The text of a string over several lines, up to its closing marks. Up to two
    quotation marks may stand right before the three that close it. A backslash
    at the end of a line takes away the blanks and line ends up to the next
    other character, which is what `skipping` stands for. -/
def lines (quote : Char) (escapes skipping : Bool) (chars : List Char) :
    Option (List Char × List Char) :=
  match chars with
  | [] => none
  | '\r' :: '\n' :: rest => do
    let (text, final) ← lines quote escapes skipping rest
    return (if skipping then text else '\n' :: text, final)
  | '\n' :: rest => do
    let (text, final) ← lines quote escapes skipping rest
    return (if skipping then text else '\n' :: text, final)
  | c :: rest =>
    if skipping && isBlank c then lines quote escapes true rest
    else if c == quote then
      let marks := ((c :: rest).takeWhile (· == quote)).length
      if marks < 3 then do
        let (text, final) ← lines quote escapes false rest
        return (c :: text, final)
      else
        let closing := min marks 5
        some (List.replicate (closing - 3) quote, rest.drop (closing - 1))
    else if escapes && c == '\\' then
      if endsLine rest then lines quote escapes true rest
      else
        match hescape : escape? rest with
        | some (c, rest') => do
          have := escape?_length hescape
          let (text, final) ← lines quote escapes false rest'
          return (c :: text, final)
        | none => none
    else if isTextChar c then do
      let (text, final) ← lines quote escapes false rest
      return (c :: text, final)
    else none
termination_by chars.length

/-- Leaves out a line end at the front. -/
def dropLineEnd : List Char → List Char
  | '\r' :: '\n' :: rest => rest
  | '\n' :: rest => rest
  | chars => chars

/-- A string, one line or several, basic or literal. -/
def read? : List Char → Option (String × List Char)
  | '"' :: '"' :: '"' :: rest => do
    let (text, rest) ← lines '"' true false (dropLineEnd rest)
    return (String.ofList text, rest)
  | '\'' :: '\'' :: '\'' :: rest => do
    let (text, rest) ← lines '\'' false false (dropLineEnd rest)
    return (String.ofList text, rest)
  | '"' :: rest => do
    let (text, rest) ← line '"' true rest
    return (String.ofList text, rest)
  | '\'' :: rest => do
    let (text, rest) ← line '\'' false rest
    return (String.ofList text, rest)
  | _ => none

end Consultation.Toml.Quoted
