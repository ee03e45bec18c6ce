import Consultation.Toml.Basic

namespace Consultation.Toml

/-- A key names a value within a table: the tables on the way, and its own
    name in the last of them. -/
structure Key where
  tables : List String
  name : String
  deriving DecidableEq, Repr

/-- A line that gives a key its value. -/
structure Assignment where
  key : Key
  value : Value

/-- What a header begins: a table, or one more element of an array of tables. -/
inductive HeaderKind where
  | table
  | element
  deriving DecidableEq, Repr

/-- A header with the assignments below it. -/
structure Section where
  kind : HeaderKind
  key : Key
  assignments : List Assignment

/-- A text line by line: the assignments above the first header, and the
    sections. -/
structure Script where
  top : List Assignment
  sections : List Section

namespace Entries

/-- Gives a name the value that `change` makes of its present one. A new name
    comes last. -/
def alter (name : String) (change : Option Value → Option Value) : Entries → Option Entries
  | [] => do return [(name, ← change none)]
  | entry :: rest =>
    if entry.1 = name then do return (name, ← change (some entry.2)) :: rest
    else do return entry :: (← alter name change rest)

/-- Changes the table that a path of names leads to, and makes the tables on
    the way that are missing. A name for an array of tables leads to its last
    element. A dotted key leads into no table that has a header of its own,
    and nothing leads into a table written as a value. -/
def descend (dotted : Bool) (change : Origin → Entries → Option Entries) :
    List String → Origin → Entries → Option Entries
  | [], origin, entries => change origin entries
  | name :: path, _, entries =>
    entries.alter name fun
      | none =>
        let origin := if dotted then .dotted else .parent
        (.table origin ·) <$> descend dotted change path origin []
      | some (.table origin inner) =>
        if origin = .inline || (dotted && origin = .header) then none
        else (.table origin ·) <$> descend dotted change path origin inner
      | some (.tables elements) =>
        match elements.getLast? with
        | some (.table origin inner) =>
          (fun inner => .tables (elements.dropLast ++ [.table origin inner])) <$>
            descend dotted change path origin inner
        | _ => none
      | some _ => none

/-- Adds an assignment to a table. A name is assigned once. A dotted key only
    adds to tables that came to be by dotted keys. -/
def assign (entries : Entries) (assignment : Assignment) : Option Entries :=
  let key := assignment.key
  let enter (origin : Origin) (inner : Entries) : Option Entries :=
    if (origin == .dotted) == key.tables.isEmpty then none
    else
      inner.alter key.name fun
        | none => some assignment.value
        | some _ => none
  entries.descend true enter key.tables .header

/-- Adds assignments one after the other. -/
def assignAll (entries : Entries) (assignments : List Assignment) : Option Entries :=
  assignments.foldlM assign entries

/-- What a header makes of the present value of its name. A table gets one
    header, and it may have come to be before as a parent only. -/
def begin (assignments : List Assignment) : HeaderKind → Option Value → Option Value
  | .table, none => (.table .header ·) <$> assignAll [] assignments
  | .table, some (.table .parent inner) => (.table .header ·) <$> assignAll inner assignments
  | .element, none => (fun inner => .tables [.table .header inner]) <$> assignAll [] assignments
  | .element, some (.tables elements) =>
    (fun inner => .tables (elements ++ [.table .header inner])) <$> assignAll [] assignments
  | _, some _ => none

/-- Adds a section. -/
def place (entries : Entries) (part : Section) : Option Entries :=
  entries.descend false
    (fun _ inner => inner.alter part.key.name (begin part.assignments part.kind))
    part.key.tables .header

/-- The table that a whole text describes, if no line contradicts the lines
    above it. -/
def ofScript? (script : Script) : Option Entries := do
  let top ← assignAll [] script.top
  script.sections.foldlM place top

end Entries

end Consultation.Toml
