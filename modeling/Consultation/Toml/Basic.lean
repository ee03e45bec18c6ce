namespace Consultation.Toml

/-- How a table came to be: under a header of its own, as a parent that a
    header names, by a dotted key, or written out as a value. Later lines may
    add to a table only as far as its origin allows. -/
inductive Origin where
  | header
  | parent
  | dotted
  | inline
  deriving DecidableEq, Repr

/-- A TOML value. The entries of a table are in the order of their first
    mention. `tables` is an array whose elements were each begun by a header. -/
inductive Value where
  | string (text : String)
  | integer (value : Int)
  | float (literal : String)
  | boolean (value : Bool)
  | array (items : List Value)
  | table (origin : Origin) (entries : List (String × Value))
  | tables (elements : List Value)

instance : Inhabited Value := ⟨.boolean false⟩

/-- The entries of a table. -/
abbrev Entries := List (String × Value)

namespace Value

def text? : Value → Option String
  | string text => some text
  | _ => none

def bool? : Value → Option Bool
  | boolean value => some value
  | _ => none

/-- The items of an array, however it was written. -/
def items? : Value → Option (List Value)
  | array items => some items
  | tables elements => some elements
  | _ => none

def texts? (value : Value) : Option (List String) := value.items? >>= (·.mapM text?)

/-- A table or an array without anything in it. -/
def isEmpty : Value → Bool
  | array items => items.isEmpty
  | table _ entries => entries.isEmpty
  | tables elements => elements.isEmpty
  | _ => false

/-- The fields of a record, by position in `names`. A record is written as a
    table, beside other entries, or as the array of its fields, where the last
    ones can be left out and what follows them does not count. -/
def record? (names : List String) : Value → Option (List (Option Value))
  | table _ entries => some (names.map fun name => entries.lookup name)
  | value => do
    let items ← value.items?
    return (items.take names.length).map some ++
      List.replicate (names.length - items.length) none

/-- Reads a field that may be left out. -/
def optionally {α : Type} (read : Value → Option α) (absent : α) : Option Value → Option α
  | none => some absent
  | some value => read value

end Value

end Consultation.Toml
