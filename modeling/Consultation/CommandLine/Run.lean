import Consultation.CommandLine.Arguments
import Consultation.CommandLine.Dialogue
import Consultation.Knowledge.File
import Consultation.Knowledge.Integrity
import Consultation.Limits.File

namespace Consultation.CommandLine

/-- How a run of the program ended: its exit code, what it printed, and what
    was wrong. -/
structure Outcome where
  exitCode : Nat
  output : String
  complaints : List String

/-- A dialogue that is about to be held. Its lines are those of a script, or
    are still to be typed. -/
structure Opening where
  kb : KnowledgeBase
  limits : Limits
  asJson : Bool
  dialogue : Dialogue kb
  script : Option (List (Option String))
  complaints : List String

/-- What a command line comes to: a run that is over, or a dialogue. -/
inductive Launch where
  | finished (outcome : Outcome)
  | dialogue (opening : Opening)

/-- A run that fails for a cause. -/
def failure (output complaint : String) : Launch := .finished ⟨1, output, [complaint]⟩

/-- The limits of an invocation, loaded from its file if it names one. -/
def Invocation.limits (invocation : Invocation) (files : String → Contents) :
    Except LimitsError Limits :=
  match invocation.limitsPath with
  | none => .ok {}
  | some path => Limits.load path (files path)

/-- The lines of a script. A directory gives one line that cannot be read. -/
def scriptLines? : Contents → Option (List (Option String))
  | .absent => none
  | .directory => some [none]
  | .file bytes => some (Text.lines bytes)

/-- Checks a rule file. The run fails where an issue is an error. -/
def check (path : String) (kb : KnowledgeBase) : Launch :=
  let output :=
    if kb.issues.isEmpty then
      Text.line (path ++ ": " ++ toString kb.size ++ " rule(s), no issues.")
    else Text.joinLines (kb.issues.map Issue.text)
  if kb.hasErrors then failure output ("rule file " ++ path ++ " has integrity errors")
  else .finished ⟨0, output, []⟩

/-- Records the facts known at the start, up to the first that is refused. -/
def seedAll (kb : KnowledgeBase) (facts : List (Fact × Bool)) :
    Except SessionError (Session kb) :=
  facts.foldlM (fun session entry => session.seed entry.1 entry.2) (Session.idle kb)

/-- Begins a consultation. Issues of the rules are complained of, and those
    that are errors keep it from beginning unless it is forced. -/
def consult (limits : Limits) (path : String) (kb : KnowledgeBase) (facts : List (Fact × Bool))
    (script : Option Contents) (asJson force : Bool) : Launch :=
  let issues := kb.issues.map Issue.text
  let refusal (complaint : String) : Launch := .finished ⟨1, "", issues ++ [complaint]⟩
  if kb.hasErrors && !force then
    refusal ("refusing to consult: " ++ path ++ " has integrity errors (use --force to override)")
  else
    match seedAll kb facts with
    | .error reason => refusal reason.diagnostic.message
    | .ok seeded =>
      match script.map scriptLines? with
      | some none => refusal "the script cannot be opened"
      | lines =>
        match seeded.start limits with
        | .error reason => refusal reason.diagnostic.message
        | .ok session => .dialogue ⟨kb, limits, asJson, ⟨session, false⟩, lines.join, issues⟩

/-- Carries out a command line as far as it goes without further lines, given
    what is found at each path. -/
def launch (files : String → Contents) (arguments : List String) : Launch :=
  match Invocation.ofArguments? arguments with
  | none => .finished ⟨2, "", ["the command line is not understood"]⟩
  | some invocation =>
    match invocation.limits files with
    | .error reason => failure "" reason.diagnostic.message
    | .ok limits =>
      let withRules (path : String) (next : KnowledgeBase → Launch) : Launch :=
        match KnowledgeBase.load path (files path) with
        | .error reason => failure "" reason.diagnostic.message
        | .ok kb => next kb
      match invocation.task with
      | .check rules => withRules rules (check rules)
      | .list rules => withRules rules fun kb => .finished ⟨0, kb.listing, []⟩
      | .consult rules facts script asJson force =>
        withRules rules fun kb =>
          consult limits rules kb facts (script.map files) asJson force

/-- Holds a dialogue whose lines are known beforehand. A line that cannot be
    read makes the run fail. -/
def Opening.run (opening : Opening) (lines : List (Option String)) : Outcome :=
  let transcript := opening.dialogue.run opening.limits lines
  let unread := if transcript.readable then [] else ["the input cannot be read"]
  { exitCode := if transcript.readable then 0 else 1
    output := Utterance.joinTexts opening.asJson transcript.said
    complaints :=
      opening.complaints ++ transcript.complaints.map (·.diagnostic.message) ++ unread }

/-- Carries out a command line whose input is known beforehand. -/
def run (files : String → Contents) (arguments : List String) (input : ByteArray) : Outcome :=
  match launch files arguments with
  | .finished outcome => outcome
  | .dialogue opening => opening.run (opening.script.getD (Text.lines input))

/-- The paths that a command line names. -/
def paths (arguments : List String) : List String :=
  match Invocation.ofArguments? arguments with
  | none => []
  | some invocation =>
    invocation.limitsPath.toList ++ match invocation.task with
      | .check rules | .list rules => [rules]
      | .consult rules _ script _ _ => rules :: script.toList

end Consultation.CommandLine
