import Consultation.Json.Reader
import Consultation.Knowledge.Basic

namespace Consultation

/-- The word for a combinator in a rule file. -/
def Combinator.keyword : Combinator → String
  | all => "and"
  | any => "or"

def Combinator.ofKeyword? : String → Option Combinator
  | "and" => some all
  | "or" => some any
  | _ => none

/-- A combinator is written as its keyword, or as an object whose only member
    has the keyword for a name and no value. -/
def Combinator.ofJson? : Json Json.Literal → Option Combinator
  | .string (some keyword) => ofKeyword? keyword
  | .object [(some keyword, .null)] => ofKeyword? keyword
  | _ => none

namespace Json

def text? : Json Literal → Option String
  | .string text => text
  | _ => none

def bool? : Json Literal → Option Bool
  | .bool value => some value
  | _ => none

def texts? : Json Literal → Option (List String)
  | .array items => items.mapM text?
  | _ => none

/-- Reads a field that may be left out. -/
def optionally {α : Type} (read : Json Literal → Option α) (absent : α) :
    Option (Json Literal) → Option α
  | none => some absent
  | some json => read json

end Json

/-- Reads a rule. What is left out is taken as its default, except for the
    conditions and the action. -/
def Rule.ofJson? (json : Json Json.Literal) : Option Rule := do
  let fields ← json.record? ["conditions", "action", "combinator", "goal", "category"]
  match fields with
  | [some conditions, some action, combinator, goal, category] => do
    let conditions ← conditions.texts?
    let action ← action.text?
    let combinator ← Json.optionally Combinator.ofJson? .all combinator
    let goal ← Json.optionally Json.bool? false goal
    let category ← Json.optionally Json.text? "" category
    return { conditions, action, combinator, goal, category }
  | _ => none

/-- Reads a document. Only the category order may be left out. -/
def Document.ofJson? (json : Json Json.Literal) : Option Document := do
  let fields ← json.record? ["category_order", "rules"]
  match fields with
  | [categoryOrder, some (.array rules)] => do
    let categoryOrder ← Json.optionally Json.texts? [] categoryOrder
    let rules ← rules.mapM Rule.ofJson?
    return { categoryOrder, rules }
  | _ => none

/-- Writes a rule with all its fields. -/
def Rule.toJson (rule : Rule) : Json String :=
  .object [
    ("conditions", .ofStrings rule.conditions),
    ("action", .string rule.action),
    ("combinator", .string rule.combinator.keyword),
    ("goal", .bool rule.goal),
    ("category", .string rule.category)]

def Document.toJson (document : Document) : Json String :=
  .object [
    ("category_order", .ofStrings document.categoryOrder),
    ("rules", .array (document.rules.map Rule.toJson))]

end Consultation
