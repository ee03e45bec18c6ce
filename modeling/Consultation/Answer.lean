import Consultation.Text.Blank
import Consultation.Truth

namespace Consultation

/-- What can be said about a fact when it is asked. -/
inductive Answer where
  | yes
  | no
  | unknown
  deriving DecidableEq, Repr, Inhabited

namespace Answer

def ofBool : Bool → Answer
  | true => yes
  | false => no

/-- The value that an answer records. -/
def truth : Answer → Truth
  | yes => .holds
  | no => .fails
  | unknown => .unknown

def text : Answer → String
  | yes => "yes"
  | no => "no"
  | unknown => "unknown"

/-- The tokens that are understood, in lower case, three for each answer. -/
def vocabulary : List (String × Answer) :=
  [("yes", yes), ("y", yes), ("true", yes),
   ("no", no), ("n", no), ("false", no),
   ("unknown", unknown), ("?", unknown), ("dont-know", unknown)]

/-- How a token was understood. It is normalized when it lies outside the
    vocabulary, and such a token counts as `unknown`. -/
structure Reading where
  value : Answer
  normalized : Bool
  deriving DecidableEq, Repr

/-- The form in which a token is looked up: without the blanks around it and
    in lower case. -/
def lookupForm (token : String) : String := Text.foldCase (Text.trim token)

/-- Reads a free-form token. Blanks around it and the case of its letters do
    not matter. -/
def read (token : String) : Reading :=
  match vocabulary.lookup (lookupForm token) with
  | some value => ⟨value, false⟩
  | none => ⟨unknown, true⟩

end Answer

end Consultation
