import Consultation.Toml.Quoted
import Consultation.Toml.Scalar
import Consultation.Toml.Table

namespace Consultation.Toml

namespace Reader

def skipBlanks (chars : List Char) : List Char := chars.dropWhile Quoted.isBlank

/-- Skips blanks, line ends and comments. A comment goes on to the end of its
    line, and holds no control characters besides tabs. -/
def skipFiller (inComment : Bool) : List Char → Option (List Char)
  | [] => some []
  | '\n' :: rest => skipFiller false rest
  | '\r' :: '\n' :: rest => skipFiller false rest
  | c :: rest =>
    if inComment then
      if Quoted.isTextChar c then skipFiller true rest else none
    else if Quoted.isBlank c then skipFiller false rest
    else if c == '#' then skipFiller true rest
    else some (c :: rest)

/-- Goes on to the next line, past blanks and a comment. -/
def finishLine (chars : List Char) : Option (List Char) :=
  match skipBlanks chars with
  | [] => some []
  | '\n' :: rest => some rest
  | '\r' :: '\n' :: rest => some rest
  | '#' :: rest => skipFiller true rest
  | _ => none

/-- How deep arrays and tables that are written as values may be nested, and
    how many names a key may have. -/
def maxNesting : Nat := 79

def isBareKeyChar (c : Char) : Bool := c.isAlphanum || c == '_' || c == '-'

/-- One name of a key, bare or quoted on one line. -/
def name (chars : List Char) : Option (String × List Char) :=
  match chars with
  | '"' :: rest => do
    let (text, rest) ← Quoted.line '"' true rest
    return (String.ofList text, rest)
  | '\'' :: rest => do
    let (text, rest) ← Quoted.line '\'' false rest
    return (String.ofList text, rest)
  | chars =>
    if (chars.takeWhile isBareKeyChar).isEmpty then none
    else some (String.ofList (chars.takeWhile isBareKeyChar), chars.dropWhile isBareKeyChar)

/-- A key of at most so many names, which dots separate. Blanks may stand
    around each name. -/
def key : (names : Nat) → List Char → Option (Key × List Char)
  | 0, _ => none
  | names + 1, chars => do
    let (first, rest) ← name (skipBlanks chars)
    match skipBlanks rest with
    | '.' :: rest => do
      let (following, rest) ← key names rest
      return ({ following with tables := first :: following.tables }, rest)
    | rest => return (⟨[], first⟩, rest)

/-- A value that is neither an array nor a table. -/
def scalar (chars : List Char) : Option (Value × List Char) :=
  match chars with
  | [] => none
  | c :: _ =>
    if c == '"' || c == '\'' then do
      let (text, rest) ← Quoted.read? chars
      return (.string text, rest)
    else do
      let value ← Scalar.value? (chars.takeWhile Scalar.isLexemeChar)
      return (value, chars.dropWhile Scalar.isLexemeChar)

mutual

/-- A value. `fuel` bounds the number of steps, and `room` how many more levels
    may be nested. -/
def value : (fuel room : Nat) → List Char → Option (Value × List Char)
  | 0, _, _ => none
  | fuel + 1, room, chars =>
    match chars with
    | '[' :: rest =>
      match room with
      | 0 => none
      | room + 1 => do
        match ← skipFiller false rest with
        | ']' :: rest => return (.array [], rest)
        | rest => do
          let (items, rest) ← items fuel room rest
          return (.array items, rest)
    | '\x7b' :: rest =>
      match room with
      | 0 => none
      | room + 1 =>
        match skipBlanks rest with
        | '\x7d' :: rest => some (.table .inline [], rest)
        | rest => do
          let (assignments, rest) ← members fuel room rest
          let entries ← Entries.assignAll [] assignments
          return (.table .inline entries, rest)
    | chars => scalar chars

/-- The items of an array up to its closing bracket. A comma may stand after
    the last one. -/
def items : (fuel room : Nat) → List Char → Option (List Value × List Char)
  | 0, _, _ => none
  | fuel + 1, room, chars => do
    let (item, rest) ← value fuel room chars
    match ← skipFiller false rest with
    | ']' :: rest => return ([item], rest)
    | ',' :: rest => do
      match ← skipFiller false rest with
      | ']' :: rest => return ([item], rest)
      | rest => do
        let (following, rest) ← items fuel room rest
        return (item :: following, rest)
    | _ => none

/-- The assignments of a table on one line up to its closing brace. -/
def members : (fuel room : Nat) → List Char → Option (List Assignment × List Char)
  | 0, _, _ => none
  | fuel + 1, room, chars => do
    let (key, rest) ← key maxNesting chars
    match rest with
    | '=' :: rest => do
      let (item, rest) ← value fuel room (skipBlanks rest)
      match skipBlanks rest with
      | '\x7d' :: rest => return ([⟨key, item⟩], rest)
      | ',' :: rest => do
        let (following, rest) ← members fuel room rest
        return (⟨key, item⟩ :: following, rest)
      | _ => none
    | _ => none

end

/-- The line of an assignment. Every two steps of a value read a character, so
    its fuel lasts. -/
def assignment (chars : List Char) : Option (Assignment × List Char) := do
  let (key, rest) ← key maxNesting chars
  match rest with
  | '=' :: rest => do
    let (item, rest) ← value (2 * rest.length + 2) maxNesting (skipBlanks rest)
    return (⟨key, item⟩, ← finishLine rest)
  | _ => none

/-- The line of a header, after its opening bracket. -/
def header (chars : List Char) : Option (HeaderKind × Key × List Char) :=
  match chars with
  | '[' :: rest => do
    let (key, rest) ← key maxNesting rest
    match rest with
    | ']' :: ']' :: rest => return (.element, key, ← finishLine rest)
    | _ => none
  | rest => do
    let (key, rest) ← key maxNesting rest
    match rest with
    | ']' :: rest => return (.table, key, ← finishLine rest)
    | _ => none

/-- The lines of a text. Each holds a character, which bounds their number. -/
def script : (fuel : Nat) → List Char → Option Script
  | 0, _ => none
  | fuel + 1, chars => do
    match ← skipFiller false chars with
    | [] => return ⟨[], []⟩
    | '[' :: rest => do
      let (kind, key, rest) ← header rest
      let following ← script fuel rest
      return ⟨[], ⟨kind, key, following.top⟩ :: following.sections⟩
    | rest => do
      let (first, rest) ← assignment rest
      let following ← script fuel rest
      return { following with top := first :: following.top }

/-- Leaves out the mark that some editors put at the start of a file. -/
def dropByteOrderMark : List Char → List Char
  | '\uFEFF' :: rest => rest
  | chars => chars

end Reader

/-- Reads a text as a table. -/
def read? (text : String) : Option Entries :=
  let chars := Reader.dropByteOrderMark text.toList
  Reader.script (chars.length + 1) chars >>= Entries.ofScript?

end Consultation.Toml
