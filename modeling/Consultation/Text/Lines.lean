namespace Consultation.Text

/-- A text as a line of its own. -/
def line (text : String) : String := text ++ "\n"

/-- Texts as lines of their own. -/
def joinLines (texts : List String) : String := String.join (texts.map line)

/-- The lines of a file. What follows the last line end is a line too, unless
    it is empty. A line that is not UTF-8 cannot be read. -/
def lines (bytes : ByteArray) : List (Option String) :=
  let parts := bytes.data.toList.splitOn '\n'.toUInt8
  let kept := if parts.getLast? = some [] then parts.dropLast else parts
  kept.map fun line => String.fromUTF8? ⟨line.toArray⟩

end Consultation.Text
