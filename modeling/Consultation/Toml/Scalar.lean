import Consultation.Text.Hex
import Consultation.Toml.Basic

namespace Consultation.Toml.Scalar

/-- The characters that numbers and the words for truth values are made of.
    Such a value ends where they end. -/
def isLexemeChar (c : Char) : Bool := c.isAlphanum || c == '_' || c == '+' || c == '-' || c == '.'

/-- Takes out the underscores of a run of digits. Each must stand between two
    digits. -/
def ungroup (isDigit : Char → Bool) : List Char → Option (List Char)
  | [] => none
  | [c] => if isDigit c then some [c] else none
  | c :: '_' :: rest => if isDigit c then (c :: ·) <$> ungroup isDigit rest else none
  | c :: rest => if isDigit c then (c :: ·) <$> ungroup isDigit rest else none

/-- Takes a sign off the front. Tells whether it is a minus. -/
def signed : List Char → Bool × List Char
  | '+' :: rest => (false, rest)
  | '-' :: rest => (true, rest)
  | chars => (false, chars)

/-- The digits of a decimal number, without leading zeros. -/
def decimal? (chars : List Char) : Option (List Char) := do
  let digits ← ungroup Char.isDigit chars
  match digits with
  | '0' :: _ :: _ => none
  | _ => return digits

/-- The smallest power of two that 64 bits with a sign do not hold. -/
def integerBound : Nat := 0x8000000000000000

/-- Integers are those of 64 bits with a sign. -/
def inRange (value : Int) : Bool :=
  -(integerBound : Int) ≤ value && value < (integerBound : Int)

/-- An integer in a base that its first two characters name. It has no sign. -/
def based? (base : Nat) (chars : List Char) : Option Int := do
  let digits ← ungroup (fun c => (Text.hexValue? c).any (· < base)) chars
  let value ← Text.ofDigits? base digits
  if inRange value then some value else none

def integer? : List Char → Option Int
  | '0' :: 'x' :: rest => based? 16 rest
  | '0' :: 'o' :: rest => based? 8 rest
  | '0' :: 'b' :: rest => based? 2 rest
  | chars => do
    let (negative, chars) := signed chars
    let digits ← decimal? chars
    let magnitude ← Text.ofDigits? 10 digits
    let value : Int := if negative then -magnitude else magnitude
    if inRange value then some value else none

/-- The exponent that ends a float, with its mark. -/
def exponent? : List Char → Option Int
  | mark :: rest => do
    guard (mark == 'e' || mark == 'E')
    let (negative, chars) := signed rest
    let digits ← ungroup Char.isDigit chars
    let magnitude ← Text.ofDigits? 10 digits
    return if negative then -magnitude else magnitude
  | [] => none

/-- Whether digits times a power of ten are too large for a double: at least
    half way from the largest one to the next power of two. -/
def overflows (digits : List Char) (scale : Int) : Bool :=
  let digits := digits.dropWhile (· == '0')
  let places : Int := digits.length + scale
  if digits.isEmpty || places < 309 then false
  else if 309 < places then true
  else
    let mantissa := (Text.ofDigits? 10 digits).getD 0
    (Nat.pow 2 1024 - Nat.pow 2 970) * Nat.pow 10 (-scale).toNat ≤
      mantissa * Nat.pow 10 scale.toNat

/-- Whether a float without its sign is well written: a decimal number with a
    fraction, an exponent or both, or one of the words `inf` and `nan`. A
    positive float must not be too large. -/
def isFloat (negative : Bool) (chars : List Char) : Bool :=
  if chars = "inf".toList || chars = "nan".toList then true
  else
    let isMark (c : Char) : Bool := c == 'e' || c == 'E'
    let mantissa := chars.takeWhile (!isMark ·)
    let tail := chars.dropWhile (!isMark ·)
    let whole := decimal? (mantissa.takeWhile (· != '.'))
    let fraction := match mantissa.dropWhile (· != '.') with
      | [] => some []
      | _ :: rest => ungroup Char.isDigit rest
    let scale := if tail.isEmpty then some 0 else exponent? tail
    let plain := tail.isEmpty && mantissa.all (· != '.')
    match whole, fraction, scale with
    | some whole, some fraction, some scale =>
      !plain && (negative || !overflows (whole ++ fraction) (scale - fraction.length))
    | _, _, _ => false

/-- The value that a whole lexeme writes. -/
def value? (chars : List Char) : Option Value :=
  if chars = "true".toList then some (.boolean true)
  else if chars = "false".toList then some (.boolean false)
  else
    match integer? chars with
    | some value => some (.integer value)
    | none =>
      let (negative, unsigned) := signed chars
      if isFloat negative unsigned then some (.float (String.ofList chars)) else none

end Consultation.Toml.Scalar
