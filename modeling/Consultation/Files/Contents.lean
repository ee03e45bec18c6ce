namespace Consultation

/-- What is found at a path. -/
inductive Contents where
  | absent
  | directory
  | file (bytes : ByteArray)

namespace Contents

/-- The text of a file, if its bytes are UTF-8. -/
def text? : Contents → Option String
  | file bytes => String.fromUTF8? bytes
  | _ => none

/-- A file that holds a text. -/
def ofText (text : String) : Contents := file text.toUTF8

@[simp]
theorem text?_ofText (text : String) : (ofText text).text? = some text := by
  simp [text?, ofText, String.fromUTF8?, String.isValidUTF8, String.fromUTF8]

end Contents

end Consultation
