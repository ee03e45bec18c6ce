import Consultation.Session.Operation

namespace Consultation

/-- Every rule afresh, one after the other. -/
def RuleTable.reset {size : Nat} (table : RuleTable size) : RuleTable size :=
  ⟨table.states.map fun _ => RuleState.fresh⟩

@[simp]
theorem RuleTable.reset_eq {size : Nat} (table : RuleTable size) : table.reset = .fresh size := by
  apply RuleTable.eq_of_get
  intro id
  simp [reset, RuleTable.get, fresh]

/-- A way to carry something out on a consultation, one write after the other. What was
    written before a failure stays written. -/
abbrev Procedure (kb : KnowledgeBase) : Type → Type := EStateM SessionError (Session kb)

namespace Procedure

variable {kb : KnowledgeBase} {α : Type}

/-- Fails where the check does. -/
def require (check : Session kb → Except SessionError Unit) : Procedure kb Unit := do
  match check (← get) with
  | .ok () => return
  | .error reason => throw reason

def writeBoard (change : Board kb.size → Board kb.size) : Procedure kb Unit :=
  modify fun session => { session with board := change session.board }

def writeMemory (change : Memory → Memory) : Procedure kb Unit :=
  writeBoard fun board => { board with memory := change board.memory }

def writeTable (change : Board kb.size → RuleTable kb.size) : Procedure kb Unit :=
  writeBoard fun board => { board with table := change board }

def writeLog (change : Log → Log) : Procedure kb Unit :=
  writeBoard fun board => { board with log := change board.log }

def writeQuestion (question : Option Fact) : Procedure kb Unit :=
  modify fun session => { session with question }

def writePhase (phase : Phase) : Procedure kb Unit :=
  modify fun session => { session with phase }

/-- Enters an event in the journal. -/
def note (event : Event) : Procedure kb Unit := writeLog (· ++ [event])

/-- The question is written before anything is made of it. -/
def ask (limits : Limits) : Procedure kb Unit := do
  let session ← get
  let question := kb.nextQuestion session.memory session.table limits.maxQuestionDepth
  writeQuestion question
  match question with
  | some fact =>
    writeTable fun board => kb.markEvaluating board.table fact
    writePhase .awaitingAnswer
  | none =>
    let summary := (← get).summary
    note (.completed summary.applicable.length summary.conditional.length)
    writePhase .complete

def begin (limits : Limits) : Procedure kb (Option Fact) := do
  writePhase .processing
  note (.started kb.goals.length)
  writeBoard (kb.converge limits)
  ask limits
  return (← get).question

/-- As in every operation, the checks come before the first write. -/
def seed (fact : Fact) (value : Bool) : Procedure kb Unit := do
  if (← get).phase ≠ .idle then throw (.seedAfterStart fact)
  require (·.checkAnswerable fact)
  writeMemory (·.putFinding fact (.ofBool value))
  note (.seeded fact (.ofBool value))

def start (limits : Limits) : Procedure kb (Option Fact) := do
  if (← get).phase ≠ .idle then throw .alreadyStarted
  begin limits

def applyAnswer (limits : Limits) (fact : Fact) (value : Answer)
    (normalizedFrom : Option String) : Procedure kb AnswerOutcome := do
  require (·.checkAnswer fact)
  writePhase .processing
  match normalizedFrom with
  | some token => note (.answerNormalized fact token)
  | none => pure ()
  writeMemory (·.putFinding fact value.truth)
  note (.answered fact value.truth)
  writeBoard (kb.converge limits)
  ask limits
  return (← get).answerOutcome normalizedFrom

def answerToken (limits : Limits) (fact : Fact) (token : String) : Procedure kb AnswerOutcome :=
  let reading := Answer.read token
  applyAnswer limits fact reading.value (if reading.normalized then some token else none)

/-- Shows facts as asked, one by one. -/
def markAll (facts : List Fact) : Procedure kb Unit :=
  facts.forM fun fact => writeTable fun board => kb.markEvaluating board.table fact

/-- Takes back the answers from a position on. What was asked is read off before they
    are gone, and shown again after the one pass over the rest. -/
def rewind (limits : Limits) (kept steps : Nat) (target : Fact) : Procedure kb Unit := do
  writePhase .processing
  let asked := ((← get).memory.history.take (kept + 1)).map (·.1)
  writeMemory (·.clearAfter target)
  writeTable (·.table.reset)
  writeTable fun board => (kb.evaluateAll board.memory board.table).1
  writeBoard fun board => (kb.propagate limits.maxPropagationIterations board).1
  markAll asked
  note (.rolledBack target steps)
  writeQuestion (some target)
  writePhase .awaitingAnswer

def goBack (limits : Limits) (steps : Nat) : Procedure kb RollbackOutcome := do
  let session ← get
  if session.phase = .idle then throw .notStarted
  let history := session.memory.history
  if h : 0 < steps ∧ steps ≤ history.length then
    have : history.length - steps < history.length := by omega
    let kept := history.length - steps
    rewind limits kept steps history[kept].1
    return (← get).rollbackOutcome
  else throw (.rollbackOutOfRange steps history.length)

/-- Clears one part after the other. Nothing is built anew. -/
def restart (limits : Limits) : Procedure kb (Option Fact) := do
  writeMemory fun _ => .empty
  writeTable (·.table.reset)
  writeLog fun _ => []
  writeQuestion none
  writePhase .idle
  begin limits

def carryOut (limits : Limits) : Operation → Procedure kb Reply
  | .seed fact value => do
    seed fact value
    return .seeded
  | .start => return .asked (← start limits)
  | .answer fact value => return .answered (← applyAnswer limits fact value none)
  | .answerToken fact token => return .answered (← answerToken limits fact token)
  | .goBack steps => return .rolledBack (← goBack limits steps)
  | .restart => return .asked (← restart limits)

/-- What carrying something out comes to that gives a result: it leaves the consultation
    in the result, and where it fails, the one it was carried out on. -/
def settle (session : Session kb) : Except SessionError (Session kb × α) →
    EStateM.Result SessionError (Session kb) α
  | .ok (next, value) => .ok value next
  | .error reason => .error reason session

theorem run_get_bind (rest : Session kb → Procedure kb α) (session : Session kb) :
    (do rest (← get) : Procedure kb α).run session = (rest session).run session := rfl

theorem run_require (check : Session kb → Except SessionError Unit) (session : Session kb) :
    (require check).run session = settle session (do check session; return (session, ())) := by
  unfold require
  rw [run_get_bind]
  cases check session <;> rfl

theorem run_ask (limits : Limits) (session : Session kb) :
    (ask limits).run session = .ok () (session.ask limits) := by
  unfold ask Session.ask
  rw [run_get_bind]
  split
  · next fact hquestion =>
    rw [hquestion]
    rfl
  · next hquestion =>
    rw [hquestion]
    rfl

/-- After asking, only what there is to tell is left. -/
theorem run_ask_bind (limits : Limits) (session : Session kb) (tell : Session kb → α) :
    (do ask limits; return tell (← get) : Procedure kb α).run session =
      .ok (tell (session.ask limits)) (session.ask limits) := by
  rw [EStateM.run_bind, run_ask]
  rfl

theorem run_begin (limits : Limits) (session : Session kb) :
    (begin limits).run session = .ok (session.begin limits).question (session.begin limits) :=
  run_ask_bind limits _ (·.question)

theorem run_seed (fact : Fact) (value : Bool) (session : Session kb) :
    (seed fact value).run session =
      settle session ((session.seed fact value).map fun next => (next, ())) := by
  unfold seed Session.seed
  rw [run_get_bind]
  split
  · rfl
  · rw [EStateM.run_bind, run_require]
    cases session.checkAnswerable fact <;> rfl

theorem run_start (limits : Limits) (session : Session kb) :
    (start limits).run session =
      settle session ((session.start limits).map fun next => (next, next.question)) := by
  unfold start Session.start
  rw [run_get_bind]
  split
  · rfl
  · exact run_begin limits session

/-- A refused answer meets no write, since all checks are made first. -/
theorem run_applyAnswer (limits : Limits) (session : Session kb) (fact : Fact) (value : Answer)
    (normalizedFrom : Option String) :
    (applyAnswer limits fact value normalizedFrom).run session =
      settle session (session.applyAnswer limits fact value normalizedFrom) := by
  unfold applyAnswer Session.applyAnswer
  rw [EStateM.run_bind, run_require]
  cases hcheck : session.checkAnswer fact with
  | error reason => rfl
  | ok =>
    cases normalizedFrom with
    | none => exact run_ask_bind limits _ (·.answerOutcome none)
    | some token => exact run_ask_bind limits _ (·.answerOutcome (some token))

theorem run_markAll (facts : List Fact) (session : Session kb) :
    (markAll facts).run session =
      .ok () { session with board := { session.board with
        table := facts.foldl kb.markEvaluating session.table } } := by
  induction facts generalizing session with
  | nil => rfl
  | cons fact rest ih => exact ih _

theorem run_rewind (limits : Limits) (session : Session kb) (kept steps : Nat) (target : Fact) :
    (rewind limits kept steps target).run session =
      .ok () (session.rewind limits kept steps target) := by
  -- The marks are the one loop. All else is written in sequence, before and after it.
  have hmark : ∀ (facts : List Fact) (rest : Procedure kb Unit) (session : Session kb),
      (do markAll facts; rest : Procedure kb Unit).run session =
        rest.run { session with board := { session.board with
          table := facts.foldl kb.markEvaluating session.table } } := by
    intro facts rest session
    rw [EStateM.run_bind, run_markAll]
  unfold rewind
  simp only [RuleTable.reset_eq]
  exact hmark _ _ _

theorem run_goBack (limits : Limits) (session : Session kb) (steps : Nat) :
    (goBack limits steps).run session = settle session (session.goBack limits steps) := by
  unfold goBack Session.goBack
  rw [run_get_bind]
  simp only
  split
  · rfl
  · split
    · next hrange =>
      rw [EStateM.run_bind, run_rewind]
      rfl
    · rfl

/-- Clearing every part leaves a consultation in which nothing has happened. -/
theorem run_restart (limits : Limits) (session : Session kb) :
    (restart limits).run session =
      .ok (session.restart limits).question (session.restart limits) := by
  unfold restart
  simp only [RuleTable.reset_eq]
  exact run_begin limits _

/-- Carried out in place, every operation leaves and tells what it gives as a result,
    and one that is refused has written nothing. -/
theorem run_carryOut (limits : Limits) (session : Session kb) (operation : Operation) :
    (carryOut limits operation).run session =
      settle session (session.perform limits operation) := by
  cases operation with
  | seed fact value =>
    rw [carryOut, EStateM.run_bind, run_seed, Session.perform]
    cases session.seed fact value <;> rfl
  | start =>
    rw [carryOut, EStateM.run_bind, run_start, Session.perform]
    cases session.start limits <;> rfl
  | answer fact value =>
    rw [carryOut, EStateM.run_bind, run_applyAnswer, Session.perform, Session.answer]
    cases session.applyAnswer limits fact value none <;> rfl
  | answerToken fact token =>
    rw [carryOut, EStateM.run_bind, answerToken, run_applyAnswer, Session.perform,
      Session.answerToken]
    cases session.applyAnswer limits fact _ _ <;> rfl
  | goBack steps =>
    rw [carryOut, EStateM.run_bind, run_goBack, Session.perform]
    cases session.goBack limits steps <;> rfl
  | restart =>
    rw [carryOut, EStateM.run_bind, run_restart, Session.perform]
    rfl

end Procedure

end Consultation
