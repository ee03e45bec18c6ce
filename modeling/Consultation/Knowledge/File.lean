import Consultation.Files.Contents
import Consultation.Files.Path
import Consultation.Knowledge.Json
import Consultation.Toml.Reader

namespace Consultation

/-- A combinator is written as its keyword, or as a table whose only entry has
    the keyword for a name and nothing for a value. -/
def Combinator.ofToml? : Toml.Value → Option Combinator
  | .string keyword => ofKeyword? keyword
  | .table _ [(keyword, value)] => if value.isEmpty then ofKeyword? keyword else none
  | _ => none

/-- Reads a rule. What is left out is taken as its default, except for the
    conditions and the action. -/
def Rule.ofToml? (value : Toml.Value) : Option Rule := do
  let fields ← value.record? ["conditions", "action", "combinator", "goal", "category"]
  match fields with
  | [some conditions, some action, combinator, goal, category] => do
    let conditions ← conditions.texts?
    let action ← action.text?
    let combinator ← Toml.Value.optionally Combinator.ofToml? .all combinator
    let goal ← Toml.Value.optionally Toml.Value.bool? false goal
    let category ← Toml.Value.optionally Toml.Value.text? "" category
    return { conditions, action, combinator, goal, category }
  | _ => none

/-- Reads a document. Only the category order may be left out. -/
def Document.ofToml? (entries : Toml.Entries) : Option Document := do
  let categoryOrder ← Toml.Value.optionally Toml.Value.texts? [] (entries.lookup "category_order")
  let rules ← entries.lookup "rules"
  let rules ← rules.items?
  let rules ← rules.mapM Rule.ofToml?
  return { categoryOrder, rules }

/-- Why a rule file is not loaded. -/
inductive LoadError where
  | unreadable (path : String)
  | malformed (path : String)
  | refused (defect : Defect)
  deriving DecidableEq, Repr

def LoadError.diagnostic : LoadError → Diagnostic
  | unreadable path =>
    { message := "failed to read rule file: " ++ path
      code := "visa::knowledge::read"
      help := "Ensure the rule file exists and is readable." }
  | malformed path =>
    { message := "failed to parse rule file " ++ path
      code := "visa::knowledge::parse"
      help := "Rule files are JSON (or TOML with a `.toml` extension) with a top-level " ++
        "`rules` array of \x7bconditions, action, combinator, goal, category\x7d." }
  | refused defect => defect.diagnostic

/-- Rule files whose extension is `toml` are written in TOML, all others in
    JSON. -/
def Path.isToml (path : String) : Bool :=
  (extension? path).any fun extension => Text.foldCase extension = "toml"

/-- Reads the text of a rule file. -/
def Document.ofText? (path text : String) : Option Document :=
  if Path.isToml path then Toml.read? text >>= Document.ofToml?
  else Json.read? text >>= Document.ofJson?

/-- Loads a knowledge base from what was found at a path. -/
def KnowledgeBase.load (path : String) (contents : Contents) : Except LoadError KnowledgeBase :=
  match contents.text? with
  | none => .error (.unreadable path)
  | some text =>
    match Document.ofText? path text with
    | none => .error (.malformed path)
    | some document =>
      match KnowledgeBase.ofDocument? document with
      | .error defect => .error (.refused defect)
      | .ok kb => .ok kb

end Consultation
