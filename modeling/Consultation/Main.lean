import Consultation.CommandLine.Run

open Consultation CommandLine

namespace Consultation.CommandLine

/-- What an open file holds. What opens and cannot be read is a directory. -/
def contentsOf (handle : IO.FS.Handle) : IO Contents := do
  try
    return .file (← handle.readBinToEnd)
  catch _ =>
    return .directory

/-- What is found at a path on disk. -/
def contentsAt (path : String) : IO Contents := do
  try
    contentsOf (← IO.FS.Handle.mk path .read)
  catch _ =>
    return .absent

/-- Prints what a run is complained of. -/
def complain (complaints : List String) : IO Unit := complaints.forM IO.eprintln

/-- Ends a run whose lines were known beforehand. -/
def finish (outcome : Outcome) : IO UInt32 := do
  IO.print outcome.output
  complain outcome.complaints
  return outcome.exitCode.toUInt32

/-- Holds a dialogue over lines as they are typed. -/
partial def converse (input output : IO.FS.Stream) (opening : Opening) : IO UInt32 := do
  let say (utterances : List Utterance) : IO Unit := do
    output.putStr (Utterance.joinTexts opening.asJson utterances)
    output.flush
  say opening.dialogue.announcement
  let line? ← try some <$> input.getLine catch _ => pure none
  match line? with
  | none =>
    complain ["the input cannot be read"]
    return 1
  | some "" =>
    say opening.dialogue.ending
    return 0
  | some line =>
    let turn := opening.dialogue.take opening.limits line
    say turn.said
    complain (turn.complaint.toList.map (·.diagnostic.message))
    if turn.ended then
      say turn.dialogue.report
      return 0
    else converse input output { opening with dialogue := turn.dialogue }

/-- Runs a command line. -/
def start (arguments : List String) : IO UInt32 := do
  let found ← (paths arguments).mapM fun path => do return (path, ← contentsAt path)
  let files (path : String) : Contents := (found.lookup path).getD .absent
  match launch files arguments with
  | .finished outcome => finish outcome
  | .dialogue opening =>
    match opening.script with
    | some lines => finish (opening.run lines)
    | none => do
      complain opening.complaints
      converse (← IO.getStdin) (← IO.getStdout) opening

end Consultation.CommandLine

/-- The command line of the program. -/
def main (arguments : List String) : IO UInt32 := CommandLine.start arguments
