import Consultation.Diagnostic
import Consultation.Files.Tree
import Consultation.Limits.Basic
import Consultation.Toml.Reader

namespace Consultation

/-- Why limits are not loaded or saved. -/
inductive LimitsError where
  | unreadable (path : String)
  | malformed (path : String)
  | unwritable (path : String)
  deriving DecidableEq, Repr

def LimitsError.diagnostic : LimitsError → Diagnostic
  | unreadable path =>
    { message := "failed to read engine config: " ++ path
      code := "visa::config::read"
      help := "Ensure the config file exists and is valid TOML." }
  | malformed path =>
    { message := "failed to parse engine config " ++ path
      code := "visa::config::parse"
      help := "Check the TOML syntax in the config file." }
  | unwritable path =>
    { message := "failed to write engine config: " ++ path
      code := "visa::config::write"
      help := "Ensure you have write permissions to the target directory." }

namespace Limits

/-- A natural number under a name, or a default where the name is missing. -/
def field? (entries : Toml.Entries) (name : String) (absent : Nat) : Option Nat :=
  match entries.lookup name with
  | none => some absent
  | some (.integer value) => if 0 ≤ value then some value.toNat else none
  | some _ => none

/-- Reads limits from a table. Other entries do not matter. -/
def ofToml? (entries : Toml.Entries) : Option Limits := do
  let defaults : Limits := {}
  return {
    maxEvaluationPasses := ← field? entries "max_evaluation_passes" defaults.maxEvaluationPasses
    maxPropagationIterations :=
      ← field? entries "max_propagation_iterations" defaults.maxPropagationIterations
    maxQuestionDepth := ← field? entries "max_question_depth" defaults.maxQuestionDepth }

/-- The names and values of the limits, in the order in which they are written. -/
def fields (limits : Limits) : List (String × Nat) :=
  [("max_evaluation_passes", limits.maxEvaluationPasses),
   ("max_propagation_iterations", limits.maxPropagationIterations),
   ("max_question_depth", limits.maxQuestionDepth)]

/-- Whether every limit can be written as an integer of 64 bits with a sign. -/
def isWritable (limits : Limits) : Bool :=
  limits.fields.all (·.2 < Toml.Scalar.integerBound)

/-- The line that writes one limit. -/
def fieldLine (field : String × Nat) : String := field.1 ++ " = " ++ toString field.2 ++ "\n"

/-- The text of a limits file. -/
def text (limits : Limits) : String := String.join (limits.fields.map fieldLine)

/-- Loads limits from what was found at a path. -/
def load (path : String) (contents : Contents) : Except LimitsError Limits :=
  match contents.text? with
  | none => .error (.unreadable path)
  | some text =>
    match Toml.read? text >>= ofToml? with
    | none => .error (.malformed path)
    | some limits => .ok limits

/-- Saves limits at a path, and makes the directory it lies in. Limits that
    cannot be written leave the files alone. -/
def save (limits : Limits) (tree : FileTree) (path : String) : Except LimitsError FileTree :=
  if !limits.isWritable then .error (.malformed path)
  else do
    let prepared ← match Path.parent? path with
      | none => .ok tree
      | some parent =>
        match tree.makeDirectories? parent with
        | some prepared => .ok prepared
        | none => .error (.unwritable parent)
    match prepared.write? path limits.text.toUTF8 with
    | some written => .ok written
    | none => .error (.unwritable path)

end Limits

end Consultation
