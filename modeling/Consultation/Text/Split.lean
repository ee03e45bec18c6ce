namespace Consultation.Text

/-- Splits a text at the first place where a character stands, which is left
    out of both parts. -/
def splitAtFirst? (separator : Char) (text : String) : Option (String × String) :=
  let chars := text.toList
  match chars.dropWhile (· != separator) with
  | [] => none
  | _ :: rest => some (String.ofList (chars.takeWhile (· != separator)), String.ofList rest)

end Consultation.Text
