import Consultation.CommandLine.Report
import Consultation.Json.Printer
import Consultation.Session.Operation
import Consultation.Text.Split

namespace Consultation.CommandLine

/-- What a line of a dialogue asks for. -/
inductive Request where
  /-- Answers the question. -/
  | answer (token : String)
  /-- Answers a fact by name. -/
  | answerFact (fact : Fact) (token : String)
  | back (steps : Nat)
  | restart
  | state
  | quit
  deriving DecidableEq, Repr

namespace Request

/-- The smallest number that 64 bits do not hold. -/
def stepsBound : Nat := 0x10000000000000000

/-- A number of steps: digits, after a plus sign or not, for a number that 64
    bits hold. -/
def steps? (word : String) : Option Nat := do
  let digits := match word.toList with
    | '+' :: rest => rest
    | chars => chars
  if digits.isEmpty || !digits.all Char.isDigit then none
  else
    let steps := Nat.ofDigitChars 10 digits 0
    if steps < stepsBound then some steps else none

/-- Reads a line, or says what is wrong with it. The first word decides, and
    its case does not matter where it is a command. Words that are not needed
    are passed over. -/
def ofLine (line : String) : Except String Request :=
  match Text.words line with
  | [] => .error "empty input"
  | head :: rest =>
    match Text.foldCase head with
    | "back" =>
      match rest with
      | [] => .ok (.back 1)
      | word :: _ =>
        match steps? word with
        | some steps => .ok (.back steps)
        | none => .error ("\"" ++ word ++ "\" is not a number of steps")
    | "restart" => .ok .restart
    | "state" => .ok .state
    | "quit" | "exit" => .ok .quit
    | _ =>
      match Text.splitAtFirst? '=' head with
      | some (fact, token) => .ok (.answerFact fact token)
      | none => .ok (.answer head)

end Request

/-- What a dialogue says. -/
inductive Utterance where
  /-- The result of a completed consultation. -/
  | result (summary : Summary)
  /-- The request for a line: for an answer while there is a question, else for
      a command. -/
  | prompt (question : Option Fact)
  | state (snapshot : Snapshot)
  /-- The notice that a token was read as `unknown` for lying outside the
      vocabulary. -/
  | normalized (token : String)
  | remark (text : String)
  /-- The end of the line on which the last prompt stands. -/
  | farewell

namespace Utterance

/-- Results and states are written for a reader or as JSON. -/
def text (asJson : Bool) : Utterance → String
  | result summary => if asJson then Text.line (summary.toJson.pretty 0) else summary.text
  | prompt (some question) => "? " ++ question ++ " [yes/no/unknown] > "
  | prompt none => "done [back N/restart/state/quit] > "
  | state snapshot => if asJson then Text.line (snapshot.toJson.pretty 0) else snapshot.text
  | normalized token => Text.line ("(\"" ++ token ++ "\" is not yes/no/unknown; recorded as unknown)")
  | remark text => Text.line text
  | farewell => Text.line ""

/-- What is said one after the other. -/
def joinTexts (asJson : Bool) (utterances : List Utterance) : String :=
  String.join (utterances.map (text asJson))

end Utterance

/-- A consultation held line by line. It keeps whether the result of the
    present completion has been reported. -/
structure Dialogue (kb : KnowledgeBase) where
  session : Session kb
  reported : Bool

/-- What a line leads to: the dialogue afterwards, whether the line ends it,
    what is said, and what is wrong with the line. -/
structure Turn (kb : KnowledgeBase) where
  dialogue : Dialogue kb
  ended : Bool
  said : List Utterance
  complaint : Option SessionError

/-- A whole dialogue: what was said, what was wrong with its lines, and whether
    every line could be read. -/
structure Transcript where
  said : List Utterance
  complaints : List SessionError
  readable : Bool

namespace Dialogue

variable {kb : KnowledgeBase}

/-- The result, if it is still to be reported. -/
def report (dialogue : Dialogue kb) : List Utterance :=
  if dialogue.session.isComplete && !dialogue.reported then [.result dialogue.session.summary]
  else []

/-- The dialogue once there is no result to report. -/
def withReport (dialogue : Dialogue kb) : Dialogue kb :=
  { dialogue with reported := dialogue.reported || dialogue.session.isComplete }

/-- What is said before a line is read. -/
def announcement (dialogue : Dialogue kb) : List Utterance :=
  dialogue.report ++ [.prompt dialogue.session.question]

/-- A turn that leaves the dialogue as it is. -/
def tell (dialogue : Dialogue kb) (utterance : Utterance) : Turn kb :=
  ⟨dialogue, false, [utterance], none⟩

/-- A turn that carries out an operation on the consultation. A refused one
    leaves the dialogue as it is. -/
def carryOut (limits : Limits) (dialogue : Dialogue kb) (operation : Operation) (reported : Bool)
    (say : Reply → List Utterance) : Turn kb :=
  match dialogue.session.perform limits operation with
  | .ok (session, reply) => ⟨⟨session, reported⟩, false, say reply, none⟩
  | .error reason => ⟨dialogue, false, [], some reason⟩

/-- The notice about a token outside the vocabulary, where there is need. -/
def normalizationNotice : Reply → List Utterance
  | .answered outcome => outcome.normalizedFrom.toList.map .normalized
  | _ => []

/-- Does what a line asks for. Going back and starting afresh open the
    consultation again, so that its next result is reported too. -/
def obey (limits : Limits) (dialogue : Dialogue kb) : Request → Turn kb
  | .quit => ⟨dialogue, true, [], none⟩
  | .state => dialogue.tell (.state dialogue.session.snapshot)
  | .restart => dialogue.carryOut limits .restart false fun _ => []
  | .back steps => dialogue.carryOut limits (.goBack steps) false fun _ => []
  | .answer token =>
    match dialogue.session.question with
    | some question =>
      dialogue.carryOut limits (.answerToken question token) dialogue.reported normalizationNotice
    | none => dialogue.tell (.remark "No question is pending.")
  | .answerFact fact token =>
    dialogue.carryOut limits (.answerToken fact token) dialogue.reported fun _ => []

/-- Takes a line, after what stands before it has been said. -/
def take (limits : Limits) (dialogue : Dialogue kb) (line : String) : Turn kb :=
  match Request.ofLine line with
  | .ok request => dialogue.withReport.obey limits request
  | .error message => dialogue.withReport.tell (.remark message)

/-- What is said after the last line was read. -/
def ending (dialogue : Dialogue kb) : List Utterance := .farewell :: dialogue.withReport.report

/-- Holds a dialogue over lines that are known beforehand. A line that cannot
    be read breaks it off. -/
def run (limits : Limits) (dialogue : Dialogue kb) : List (Option String) → Transcript
  | [] => ⟨dialogue.announcement ++ dialogue.ending, [], true⟩
  | none :: _ => ⟨dialogue.announcement, [], false⟩
  | some line :: rest =>
    let turn := dialogue.take limits line
    let following : Transcript :=
      if turn.ended then ⟨turn.dialogue.report, [], true⟩ else turn.dialogue.run limits rest
    { following with
      said := dialogue.announcement ++ turn.said ++ following.said
      complaints := turn.complaint.toList ++ following.complaints }

end Dialogue

end Consultation.CommandLine
