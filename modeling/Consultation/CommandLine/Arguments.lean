import Consultation.Answer
import Consultation.Text.Split

namespace Consultation.CommandLine

/-- What a command line asks for. -/
inductive Task where
  /-- Lists the issues of a rule file. -/
  | check (rules : String)
  /-- Lists the rules of a file in display order. -/
  | list (rules : String)
  /-- Holds a consultation, with the facts known at the start. Lines are read
      from a script or from the standard input. -/
  | consult (rules : String) (facts : List (Fact × Bool)) (script : Option String)
      (asJson force : Bool)
  deriving DecidableEq, Repr

/-- A command line that was understood. -/
structure Invocation where
  limitsPath : Option String
  task : Task
  deriving DecidableEq, Repr

/-- An option either takes a value or is a flag. -/
inductive OptionKind where
  | value
  | flag
  deriving DecidableEq, Repr

/-- An option as it was given. A flag has no value. -/
structure Given where
  name : String
  value : Option String
  deriving DecidableEq, Repr

/-- Whether an argument is written like an option. A lone hyphen is not, and
    two of them end the options. -/
def looksLikeOption (argument : String) : Bool :=
  argument.toList.head? == some '-' && argument != "-" && argument != "--"

/-- Whether an argument can be the value of the option before it. -/
def canBeValue (argument : String) : Bool :=
  argument.toList.head? != some '-' || argument == "-"

/-- Reads options up to the first argument that is none. A value follows its
    option, or is joined to it by an equals sign. -/
def options? (kind? : String → Option OptionKind) :
    List String → Option (List Given × List String)
  | [] => some ([], [])
  | argument :: rest =>
    if !looksLikeOption argument then some ([], argument :: rest)
    else
      let given? (name : String) (value : Option String) (rest : Option (List Given × List String)) :
          Option (List Given × List String) := do
        let (following, rest) ← rest
        return (⟨name, value⟩ :: following, rest)
      match Text.splitAtFirst? '=' argument with
      | some (name, value) =>
        if kind? name = some .value then given? name (some value) (options? kind? rest) else none
      | none =>
        match kind? argument with
        | none => none
        | some .flag => given? argument none (options? kind? rest)
        | some .value =>
          match rest with
          | value :: rest =>
            if canBeValue value then given? argument (some value) (options? kind? rest) else none
          | [] => none

/-- The values that were given for an option, in order. -/
def valuesOf (name : String) (given : List Given) : List String :=
  (given.filter (·.name = name)).filterMap (·.value)

/-- The path given for an option, if any. A path is given at most once, and is
    not empty. -/
def path? (name : String) (given : List Given) : Option (Option String) :=
  match valuesOf name given with
  | [] => some none
  | [path] => if path.isEmpty then none else some (some path)
  | _ => none

/-- Whether a flag was given, which happens at most once. -/
def flag? (name : String) (given : List Given) : Option Bool :=
  match given.filter (·.name = name) with
  | [] => some false
  | [_] => some true
  | _ => none

/-- A fact known at the start, written as the fact, an equals sign and a token
    for yes or no. Blanks around the fact do not belong to it. -/
def fact? (text : String) : Option (Fact × Bool) := do
  let (fact, token) ← Text.splitAtFirst? '=' text
  match Answer.read token with
  | ⟨.yes, false⟩ => return (Text.trim fact, true)
  | ⟨.no, false⟩ => return (Text.trim fact, false)
  | _ => none

def limitsOption (name : String) : Option OptionKind :=
  if name = "--config" then some .value else none

def rulesOption (name : String) : Option OptionKind :=
  if name = "--rules" then some .value else limitsOption name

def consultOption (name : String) : Option OptionKind :=
  if name = "--fact" || name = "--script" then some .value
  else if name = "--json" || name = "--force" then some .flag
  else rulesOption name

/-- The options of a task, which are all that its arguments hold. Two hyphens
    may stand at the end. -/
def onlyOptions? (kind? : String → Option OptionKind) (arguments : List String) :
    Option (List Given) := do
  match ← options? kind? arguments with
  | (given, []) | (given, ["--"]) => return given
  | _ => none

/-- The options of the task that a command names. -/
def taskOptions? (command : String) (arguments : List String) : Option (List Given) :=
  if command = "check" || command = "rules" then onlyOptions? rulesOption arguments
  else if command = "consult" then onlyOptions? consultOption arguments
  else none

/-- The task that a command names. -/
def task? (command : String) (given : List Given) : Option Task := do
  let rules ← path? "--rules" given
  let rules ← rules
  if command = "check" then return .check rules
  else if command = "rules" then return .list rules
  else
    let facts ← (valuesOf "--fact" given).mapM fact?
    let script ← path? "--script" given
    let asJson ← flag? "--json" given
    let force ← flag? "--force" given
    return .consult rules facts script asJson force

/-- Reads the arguments of a command line. The limits may be named before the
    command or after it, and after it they count. -/
def Invocation.ofArguments? (arguments : List String) : Option Invocation := do
  let (before, rest) ← options? limitsOption arguments
  match rest with
  | [] => none
  | command :: rest => do
    let given ← taskOptions? command rest
    let early ← path? "--config" before
    let late ← path? "--config" given
    let task ← task? command given
    return { limitsPath := late <|> early, task }

end Consultation.CommandLine
