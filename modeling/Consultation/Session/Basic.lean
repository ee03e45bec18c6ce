import Consultation.Answer
import Consultation.Inference.Question
import Consultation.Limits.Basic
import Consultation.Report
import Consultation.Session.Error

namespace Consultation

/-- Where a consultation stands. It is `processing` only while an operation is
    being carried out. -/
inductive Phase where
  | idle
  | awaitingAnswer
  | processing
  | complete
  deriving DecidableEq, Repr, Inhabited

/-- One consultation over a knowledge base. -/
@[ext]
structure Session (kb : KnowledgeBase) where
  board : Board kb.size
  question : Option Fact
  phase : Phase

/-- How far evaluation and propagation went in turn: the passes they took, and
    whether the last one changed nothing. -/
structure Convergence where
  passes : Nat
  settled : Bool
  deriving DecidableEq, Repr

/-- What an accepted answer leads to. The token is given where it was read as
    `unknown` for lying outside the vocabulary. -/
structure AnswerOutcome where
  nextQuestion : Option Fact
  isComplete : Bool
  derivedFacts : FactMap
  rules : List RuleRow
  result : Option Summary
  normalizedFrom : Option String

/-- What going back leads to. -/
structure RollbackOutcome where
  question : Option Fact
  history : List (Fact × Truth)
  rules : List RuleRow

/-- A consultation as it is shown. The result is there once it is complete. -/
structure Snapshot where
  phase : Phase
  question : Option Fact
  history : List (Fact × Truth)
  derivedFacts : FactMap
  rules : List RuleRow
  isComplete : Bool
  result : Option Summary

namespace KnowledgeBase

variable (kb : KnowledgeBase)

/-- One pass: evaluates every rule, then propagates. Tells whether the pass
    changed anything. -/
def convergeOnce (iterations : Nat) (board : Board kb.size) : Board kb.size × Bool :=
  let (table, reclassified) := kb.evaluateAll board.memory board.table
  let (final, outcome) := kb.propagate iterations { board with table }
  (final, reclassified ≠ 0 || outcome.changed)

/-- Runs passes until one changes nothing, and at most as many as the cap. -/
def convergeWithin (iterations : Nat) : Nat → Board kb.size → Board kb.size × Convergence
  | 0, board => (board, ⟨0, false⟩)
  | cap + 1, board =>
    match kb.convergeOnce iterations board with
    | (next, false) => (next, ⟨1, true⟩)
    | (next, true) =>
      let (final, outcome) := convergeWithin iterations cap next
      (final, { outcome with passes := outcome.passes + 1 })

/-- Runs passes within the limits, and enters in the journal when they were not
    enough. -/
def converge (limits : Limits) (board : Board kb.size) : Board kb.size :=
  match kb.convergeWithin limits.maxPropagationIterations limits.maxEvaluationPasses board with
  | (final, ⟨_, true⟩) => final
  | (final, ⟨_, false⟩) =>
    { final with log := final.log ++ [.capReached limits.maxEvaluationPasses] }

end KnowledgeBase

namespace Session

variable {kb : KnowledgeBase}

/-- A consultation in which nothing has happened. -/
def idle (kb : KnowledgeBase) : Session kb := ⟨.fresh kb.size, none, .idle⟩

def memory (session : Session kb) : Memory := session.board.memory

def table (session : Session kb) : RuleTable kb.size := session.board.table

def log (session : Session kb) : Log := session.board.log

def isComplete (session : Session kb) : Bool := session.phase == .complete

def summary (session : Session kb) : Summary := kb.summarize session.board

/-- The result, once there is one. -/
def result? (session : Session kb) : Option Summary :=
  if session.isComplete then some session.summary else none

def rows (session : Session kb) : List RuleRow := kb.ruleRows session.table

/-- The status of the first rule that concludes an action. -/
def ruleStatus? (session : Session kb) (action : Fact) : Option RuleStatus :=
  (kb.find? action).map session.table.status

def snapshot (session : Session kb) : Snapshot :=
  { phase := session.phase
    question := session.question
    history := session.memory.history
    derivedFacts := session.memory.hypotheses
    rules := session.rows
    isComplete := session.isComplete
    result := session.result? }

/-- Enters an event in the journal. -/
def record (session : Session kb) (event : Event) : Session kb :=
  { session with board := { session.board with log := session.board.log ++ [event] } }

/-- Records what was answered about a fact. -/
def putFinding (session : Session kb) (fact : Fact) (value : Truth) : Session kb :=
  { session with board := { session.board with memory := session.memory.putFinding fact value } }

/-- A fact can be answered when it is a condition of some rule and was not
    answered before. -/
def checkAnswerable (session : Session kb) (fact : Fact) : Except SessionError Unit :=
  if !kb.isCondition fact then .error (.unknownFact fact)
  else if (session.memory.finding fact).isSome then .error (.alreadyAnswered fact)
  else .ok ()

/-- Asks the next question, or completes the consultation where there is none. -/
def ask (limits : Limits) (session : Session kb) : Session kb :=
  match kb.nextQuestion session.memory session.table limits.maxQuestionDepth with
  | some fact =>
    { board := { session.board with table := kb.markEvaluating session.table fact }
      question := some fact
      phase := .awaitingAnswer }
  | none =>
    let summary := session.summary
    { session.record (.completed summary.applicable.length summary.conditional.length) with
      question := none
      phase := .complete }

/-- Draws every inference from what is known, then asks. -/
def proceed (limits : Limits) (session : Session kb) : Session kb :=
  ask limits { session with board := kb.converge limits session.board, phase := .processing }

/-- Opens the journal and asks the first question. -/
def begin (limits : Limits) (session : Session kb) : Session kb :=
  proceed limits (session.record (.started kb.goals.length))

/-- Records a fact before the consultation starts. It enters the history like
    an answer. -/
def seed (session : Session kb) (fact : Fact) (value : Bool) : Except SessionError (Session kb) :=
  if session.phase ≠ .idle then .error (.seedAfterStart fact)
  else do
    session.checkAnswerable fact
    return (session.putFinding fact (.ofBool value)).record (.seeded fact (.ofBool value))

/-- Starts the consultation. -/
def start (limits : Limits) (session : Session kb) : Except SessionError (Session kb) :=
  if session.phase ≠ .idle then .error .alreadyStarted else .ok (session.begin limits)

/-- Whether an answer to this fact is accepted now. A running consultation
    accepts an answer to any fact that can be answered, not only to the one in
    question. -/
def checkAnswer (session : Session kb) (fact : Fact) : Except SessionError Unit :=
  match session.phase with
  | .idle => .error .notStarted
  | .processing | .complete => .error .noPendingQuestion
  | .awaitingAnswer => session.checkAnswerable fact

/-- Records an answer, draws the inferences and asks the next question. A token
    that was read as `unknown` is entered in the journal before the answer. -/
def acceptAnswer (limits : Limits) (session : Session kb) (fact : Fact) (value : Answer)
    (normalizedFrom : Option String) : Session kb :=
  let noted := match normalizedFrom with
    | some token => session.record (.answerNormalized fact token)
    | none => session
  proceed limits ((noted.putFinding fact value.truth).record (.answered fact value.truth))

/-- What there is to tell after an answer. -/
def answerOutcome (session : Session kb) (normalizedFrom : Option String) : AnswerOutcome :=
  { nextQuestion := session.question
    isComplete := session.isComplete
    derivedFacts := session.memory.hypotheses
    rules := session.rows
    result := session.result?
    normalizedFrom }

def applyAnswer (limits : Limits) (session : Session kb) (fact : Fact) (value : Answer)
    (normalizedFrom : Option String) : Except SessionError (Session kb × AnswerOutcome) := do
  session.checkAnswer fact
  let next := session.acceptAnswer limits fact value normalizedFrom
  return (next, next.answerOutcome normalizedFrom)

/-- Answers a fact. -/
def answer (limits : Limits) (session : Session kb) (fact : Fact) (value : Answer) :
    Except SessionError (Session kb × AnswerOutcome) :=
  session.applyAnswer limits fact value none

/-- Answers a fact in the words of the person asked. -/
def answerToken (limits : Limits) (session : Session kb) (fact : Fact) (token : String) :
    Except SessionError (Session kb × AnswerOutcome) :=
  let reading := Answer.read token
  session.applyAnswer limits fact reading.value (if reading.normalized then some token else none)

/-- What the rules say about the kept answers alone, with every rule looked at
    afresh. Evaluation and propagation take one turn each, and the facts that
    were asked are shown as asked. -/
def recompute (limits : Limits) (board : Board kb.size) (asked : List Fact) : Board kb.size :=
  let (table, _) := kb.evaluateAll board.memory (.fresh kb.size)
  let (final, _) := kb.propagate limits.maxPropagationIterations { board with table }
  { final with table := asked.foldl kb.markEvaluating final.table }

/-- Takes back the answers from position `kept` on, of which `target` is the
    first. It becomes the question again. -/
def rewind (limits : Limits) (session : Session kb) (kept steps : Nat) (target : Fact) :
    Session kb :=
  let asked := (session.memory.history.take (kept + 1)).map (·.1)
  let cleared := { session.board with memory := session.memory.clearAfter target }
  let rewound : Session kb :=
    { board := recompute limits cleared asked, question := some target, phase := .awaitingAnswer }
  rewound.record (.rolledBack target steps)

def rollbackOutcome (session : Session kb) : RollbackOutcome :=
  { question := session.question, history := session.memory.history, rules := session.rows }

/-- Takes back the last `steps` answers. -/
def goBack (limits : Limits) (session : Session kb) (steps : Nat) :
    Except SessionError (Session kb × RollbackOutcome) :=
  let history := session.memory.history
  if session.phase = .idle then .error .notStarted
  else if h : 0 < steps ∧ steps ≤ history.length then
    have : history.length - steps < history.length := by omega
    let kept := history.length - steps
    let next := session.rewind limits kept steps history[kept].1
    .ok (next, next.rollbackOutcome)
  else .error (.rollbackOutOfRange steps history.length)

/-- Forgets everything, seeds included, and starts afresh. -/
def restart (limits : Limits) (_ : Session kb) : Session kb := (idle kb).begin limits

end Session

end Consultation
