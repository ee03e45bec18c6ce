namespace Consultation

/-- A JSON value. `Text` is what its strings and the names of its members
    denote. Numbers keep their literal, and objects keep the order in which
    their members are written, repeated names included. -/
inductive Json (Text : Type) where
  | null
  | bool (value : Bool)
  | number (literal : String)
  | string (text : Text)
  | array (items : List (Json Text))
  | object (members : List (Text × Json Text))

namespace Json

instance (Text : Type) : Inhabited (Json Text) := ⟨.null⟩

def ofNat {Text : Type} (value : Nat) : Json Text := .number (toString value)

def ofStrings (texts : List String) : Json String := .array (texts.map .string)

/-- A string, or `null` where there is none. -/
def ofString? : Option String → Json String
  | some text => .string text
  | none => .null

end Json

end Consultation
