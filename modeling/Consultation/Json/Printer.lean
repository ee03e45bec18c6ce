import Consultation.Json.Basic
import Consultation.Text.Hex

namespace Consultation.Json

/-- A character as it stands in a string literal. Quotation marks, backslashes
    and the control characters below U+0020 are escaped, nothing else. -/
def escapeChar (c : Char) : List Char :=
  match c with
  | '"' => ['\\', '"']
  | '\\' => ['\\', '\\']
  | '\x08' => ['\\', 'b']
  | '\x0c' => ['\\', 'f']
  | '\n' => ['\\', 'n']
  | '\r' => ['\\', 'r']
  | '\t' => ['\\', 't']
  | _ =>
    if c.toNat < 0x20 then
      ['\\', 'u', '0', '0', Text.hexDigit (c.toNat / 16), Text.hexDigit (c.toNat % 16)]
    else [c]

/-- A string literal. -/
def quote (text : String) : String := "\"" ++ String.ofList (text.toList.flatMap escapeChar) ++ "\""

mutual

/-- A value on one line, without blanks. -/
def compact : Json String → String
  | .null => "null"
  | .bool true => "true"
  | .bool false => "false"
  | .number literal => literal
  | .string text => quote text
  | .array [] => "[]"
  | .array (item :: rest) => "[" ++ compact item ++ compactItems rest ++ "]"
  | .object [] => "\x7b\x7d"
  | .object ((name, value) :: rest) =>
    "\x7b" ++ quote name ++ ":" ++ compact value ++ compactMembers rest ++ "\x7d"

def compactItems : List (Json String) → String
  | [] => ""
  | item :: rest => "," ++ compact item ++ compactItems rest

def compactMembers : List (String × Json String) → String
  | [] => ""
  | (name, value) :: rest => "," ++ quote name ++ ":" ++ compact value ++ compactMembers rest

end

/-- The start of a line at a depth, two spaces for each level. -/
def newline (depth : Nat) : String := "\n" ++ String.ofList (List.replicate (2 * depth) ' ')

mutual

/-- A value over several lines. Each item and each member stands on a line of
    its own, and empty arrays and objects stay closed up. -/
def pretty (depth : Nat) : Json String → String
  | .null => "null"
  | .bool true => "true"
  | .bool false => "false"
  | .number literal => literal
  | .string text => quote text
  | .array [] => "[]"
  | .array (item :: rest) =>
    "[" ++ newline (depth + 1) ++ pretty (depth + 1) item ++ prettyItems (depth + 1) rest ++
      newline depth ++ "]"
  | .object [] => "\x7b\x7d"
  | .object ((name, value) :: rest) =>
    "\x7b" ++ newline (depth + 1) ++ quote name ++ ": " ++ pretty (depth + 1) value ++
      prettyMembers (depth + 1) rest ++ newline depth ++ "\x7d"

def prettyItems (depth : Nat) : List (Json String) → String
  | [] => ""
  | item :: rest => "," ++ newline depth ++ pretty depth item ++ prettyItems depth rest

def prettyMembers (depth : Nat) : List (String × Json String) → String
  | [] => ""
  | (name, value) :: rest =>
    "," ++ newline depth ++ quote name ++ ": " ++ pretty depth value ++ prettyMembers depth rest

end

end Consultation.Json
