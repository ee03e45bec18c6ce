import Consultation.Json.Basic
import Consultation.Text.Hex

namespace Consultation.Json

/-- What a string literal denotes: a text, or nothing where its escapes leave
    a surrogate unpaired. -/
abbrev Literal := Option String

namespace Reader

def isSpace (c : Char) : Bool := c == ' ' || c == '\t' || c == '\n' || c == '\r'

def skipSpace (chars : List Char) : List Char := chars.dropWhile isSpace

/-- A piece of a string literal: a character that stands for itself or is
    escaped by a letter, or the number of a `\u` escape. -/
inductive Piece where
  | char (c : Char)
  | unit (code : Nat)

/-- The character that a letter stands for after a backslash. -/
def escaped? : Char → Option Char
  | '"' => some '"'
  | '\\' => some '\\'
  | '/' => some '/'
  | 'b' => some '\x08'
  | 'f' => some '\x0c'
  | 'n' => some '\n'
  | 'r' => some '\r'
  | 't' => some '\t'
  | _ => none

/-- The pieces of a string literal up to its closing quotation mark. Control
    characters must be escaped. -/
def pieces : List Char → Option (List Piece × List Char)
  | [] => none
  | '"' :: rest => some ([], rest)
  | '\\' :: 'u' :: a :: b :: c :: d :: rest => do
    let code ← Text.ofDigits? 16 [a, b, c, d]
    let (following, rest) ← pieces rest
    return (.unit code :: following, rest)
  | '\\' :: letter :: rest => do
    let c ← escaped? letter
    let (following, rest) ← pieces rest
    return (.char c :: following, rest)
  | c :: rest =>
    if c.toNat < 0x20 then none
    else do
      let (following, rest) ← pieces rest
      return (.char c :: following, rest)

/-- The text that the pieces of a literal denote. A high surrogate and the low
    one right after it denote one character. -/
def denote : List Piece → Option (List Char)
  | [] => some []
  | .char c :: rest => (c :: ·) <$> denote rest
  | .unit high :: .unit low :: rest =>
    if 0xD800 ≤ high && high < 0xDC00 then
      if 0xDC00 ≤ low && low < 0xE000 then
        (Char.ofNat (0x10000 + (high - 0xD800) * 0x400 + (low - 0xDC00)) :: ·) <$> denote rest
      else none
    else if 0xDC00 ≤ high && high < 0xE000 then none
    else (Char.ofNat high :: ·) <$> denote (.unit low :: rest)
  | .unit code :: rest =>
    if 0xD800 ≤ code && code < 0xE000 then none else (Char.ofNat code :: ·) <$> denote rest

/-- A string literal whose opening quotation mark has been read. -/
def literal (chars : List Char) : Option (Literal × List Char) := do
  let (parts, rest) ← pieces chars
  return ((denote parts).map String.ofList, rest)

/-- One digit or more. -/
def digits (chars : List Char) : Option (List Char × List Char) :=
  match chars.span Char.isDigit with
  | ([], _) => none
  | (found, rest) => some (found, rest)

/-- The whole part of a number, which has no leading zero. -/
def wholePart : List Char → Option (List Char × List Char)
  | '0' :: rest =>
    if rest.head?.any Char.isDigit then none else some (['0'], rest)
  | chars => digits chars

/-- The fraction of a number, if it has one. -/
def fraction : List Char → Option (List Char × List Char)
  | '.' :: rest => do
    let (found, rest) ← digits rest
    return ('.' :: found, rest)
  | chars => some ([], chars)

/-- The exponent of a number, if it has one. -/
def exponent : List Char → Option (List Char × List Char)
  | mark :: rest =>
    if mark == 'e' || mark == 'E' then do
      let (sign, rest) := match rest with
        | '+' :: rest => (['+'], rest)
        | '-' :: rest => (['-'], rest)
        | rest => ([], rest)
      let (found, rest) ← digits rest
      return (mark :: sign ++ found, rest)
    else some ([], mark :: rest)
  | [] => some ([], [])

def number (chars : List Char) : Option (String × List Char) := do
  let (sign, chars) := match chars with
    | '-' :: rest => (['-'], rest)
    | rest => ([], rest)
  let (whole, chars) ← wholePart chars
  let (fractional, chars) ← fraction chars
  let (scale, chars) ← exponent chars
  return (String.ofList (sign ++ whole ++ fractional ++ scale), chars)

mutual

/-- A value at the front of the characters. `fuel` bounds the number of steps. -/
def value : (fuel : Nat) → List Char → Option (Json Literal × List Char)
  | 0, _ => none
  | fuel + 1, chars =>
    match chars with
    | 'n' :: 'u' :: 'l' :: 'l' :: rest => some (.null, rest)
    | 't' :: 'r' :: 'u' :: 'e' :: rest => some (.bool true, rest)
    | 'f' :: 'a' :: 'l' :: 's' :: 'e' :: rest => some (.bool false, rest)
    | '"' :: rest => do
      let (text, rest) ← literal rest
      return (.string text, rest)
    | '[' :: rest =>
      match skipSpace rest with
      | ']' :: rest => some (.array [], rest)
      | rest => do
        let (items, rest) ← items fuel rest
        return (.array items, rest)
    | '\x7b' :: rest =>
      match skipSpace rest with
      | '\x7d' :: rest => some (.object [], rest)
      | rest => do
        let (members, rest) ← members fuel rest
        return (.object members, rest)
    | chars => do
      let (text, rest) ← number chars
      return (.number text, rest)

/-- The items of an array up to its closing bracket. -/
def items : (fuel : Nat) → List Char → Option (List (Json Literal) × List Char)
  | 0, _ => none
  | fuel + 1, chars => do
    let (item, rest) ← value fuel chars
    match skipSpace rest with
    | ']' :: rest => return ([item], rest)
    | ',' :: rest => do
      let (following, rest) ← items fuel (skipSpace rest)
      return (item :: following, rest)
    | _ => none

/-- The members of an object up to its closing brace. -/
def members : (fuel : Nat) → List Char → Option (List (Literal × Json Literal) × List Char)
  | 0, _ => none
  | fuel + 1, chars =>
    match chars with
    | '"' :: rest => do
      let (name, rest) ← literal rest
      match skipSpace rest with
      | ':' :: rest => do
        let (item, rest) ← value fuel (skipSpace rest)
        match skipSpace rest with
        | '\x7d' :: rest => return ([(name, item)], rest)
        | ',' :: rest => do
          let (following, rest) ← members fuel (skipSpace rest)
          return ((name, item) :: following, rest)
        | _ => none
      | _ => none
    | _ => none

end

end Reader

/-- Reads a text that holds one JSON value and nothing else but white space.
    Every two steps read a character, so the fuel lasts. -/
def read? (text : String) : Option (Json Literal) :=
  let chars := Reader.skipSpace text.toList
  match Reader.value (2 * chars.length + 2) chars with
  | some (json, rest) => if (Reader.skipSpace rest).isEmpty then some json else none
  | none => none

/-- The fields of a record, by position in `names`. A record is written as an
    object, whose members may come in any order and beside others, or as the
    array of its fields. Each field is written at most once. A field that is
    left out gives nothing, and in an array only the last fields can be. -/
def record? (names : List String) : Json Literal → Option (List (Option (Json Literal)))
  | .object members => do
    let named ← members.mapM fun member => (·, member.2) <$> member.1
    names.mapM fun name =>
      match named.filter (·.1 = name) with
      | [] => some none
      | [member] => some (some member.2)
      | _ => none
  | .array items =>
    if names.length < items.length then none
    else some (items.map some ++ List.replicate (names.length - items.length) none)
  | _ => none

end Consultation.Json
