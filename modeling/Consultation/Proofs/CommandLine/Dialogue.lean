import Consultation.Proofs.CommandLine.Listing
import Consultation.Proofs.Session.Phase

namespace Consultation.CommandLine

variable {kb : KnowledgeBase} {limits : Limits} {dialogue : Dialogue kb} {led : Bool}

/-- The operation that a request asks for, if it asks for one. -/
def Request.operation? (session : Session kb) : Request → Option Operation
  | .answer token => session.question.map (.answerToken · token)
  | .answerFact fact token => some (.answerToken fact token)
  | .back steps => some (.goBack steps)
  | .restart => some .restart
  | .state | .quit => none

/-- A consultation as a line is asked for, and whether the start or an operation has just led
    to it. -/
structure Round (kb : KnowledgeBase) where
  session : Session kb
  led : Bool

namespace Round

/-- The result of a consultation that has just been completed. -/
def result? (round : Round kb) : Option Summary := if round.led then round.session.result? else none

/-- The result is told where the consultation has just been completed, before a line is asked
    for. -/
def announcement (round : Round kb) : List Utterance :=
  round.result?.toList.map .result ++ [.prompt round.session.question]

/-- The round after a request. A refused operation leads nowhere. -/
def after (limits : Limits) (session : Session kb) (request : Request) : Round kb :=
  match (request.operation? session).map (session.perform limits) with
  | some (.ok (next, _)) => ⟨next, true⟩
  | some (.error _) | none => ⟨session, false⟩

/-- The round after a line, unless it is the last. -/
def next? (limits : Limits) (session : Session kb) (line : String) : Option (Round kb) :=
  match Request.ofLine line with
  | .ok .quit => none
  | .ok request => some (after limits session request)
  | .error _ => some ⟨session, false⟩

/-- The rounds of a dialogue. Nothing is kept of what was told. -/
def rounds (limits : Limits) (round : Round kb) : List String → List (Round kb)
  | [] => [round]
  | line :: rest =>
    round :: match next? limits round.session line with
      | none => []
      | some next => next.rounds limits rest

end Round

/-- Whether something said is a result or asks for a line. -/
def Utterance.announces : Utterance → Bool
  | .result _ | .prompt _ => true
  | .state _ | .normalized _ | .remark _ | .farewell => false

namespace Dialogue

/-- The flag is down where an operation has just led to the consultation, and elsewhere tells
    whether it is complete. -/
structure Tracks (dialogue : Dialogue kb) (led : Bool) : Prop where
  poised : dialogue.session.Poised
  reported : dialogue.reported = (!led && dialogue.session.isComplete)

namespace Tracks

/-- Once the result is reported, the flag tells whether the consultation is complete. -/
theorem reported_withReport (h : dialogue.Tracks led) :
    dialogue.withReport.reported = dialogue.session.isComplete := by
  rw [withReport, h.reported]
  cases led <;> simp

theorem withReport (h : dialogue.Tracks led) : dialogue.withReport.Tracks false :=
  ⟨h.poised, h.reported_withReport⟩

/-- An accepted answer finds the flag down, since something was in question. -/
theorem reported_of_answer (h : dialogue.Tracks false) {fact : Fact} {token : String}
    {next : Session kb}
    (haccepts : dialogue.session.Accepts limits (.answerToken fact token) next) :
    dialogue.reported = false := by
  cases haccepts with
  | answerToken _ _ hphase =>
    rw [h.reported, Session.isComplete, hphase]
    rfl

end Tracks

end Dialogue

/-- A turn goes on to a round, and announces nothing on the way. -/
structure Turn.LeadsTo (turn : Turn kb) (round : Round kb) : Prop where
  ended : turn.ended = false
  session : turn.dialogue.session = round.session
  tracks : turn.dialogue.Tracks round.led
  said : turn.said.filter Utterance.announces = []

namespace Dialogue

theorem announces_normalizationNotice (reply : Reply) :
    (normalizationNotice reply).filter Utterance.announces = [] := by
  cases reply with
  | answered outcome =>
    rw [normalizationNotice]
    cases outcome.normalizedFrom <;> rfl
  | seeded | asked | rolledBack => rfl

namespace Tracks

theorem tell (h : dialogue.Tracks false) {utterance : Utterance}
    (hsaid : utterance.announces = false) :
    (dialogue.tell utterance).LeadsTo ⟨dialogue.session, false⟩ :=
  ⟨rfl, rfl, h, List.filter_eq_nil_iff.mpr (by simp [Dialogue.tell, hsaid])⟩

/-- An operation leads to a new round where it is accepted, provided that it finds or puts the
    flag down. -/
theorem carryOut (h : dialogue.Tracks false) {request : Request} {operation : Operation}
    (hoperation : request.operation? dialogue.session = some operation) {reported : Bool}
    {say : Reply → List Utterance}
    (hreported : ∀ next, dialogue.session.Accepts limits operation next → reported = false)
    (hsay : ∀ reply, (say reply).filter Utterance.announces = []) :
    (dialogue.carryOut limits operation reported say).LeadsTo
      (Round.after limits dialogue.session request) := by
  rw [Round.after, hoperation, Option.map_some, Dialogue.carryOut]
  cases hperform : dialogue.session.perform limits operation with
  | error reason => exact ⟨rfl, rfl, h, rfl⟩
  | ok result =>
    obtain ⟨next, reply⟩ := result
    have haccepts := Session.accepts_of_perform hperform
    exact ⟨rfl, rfl, ⟨h.poised.accepts haccepts, hreported next haccepts⟩, hsay reply⟩

theorem obey (h : dialogue.Tracks false) {request : Request} (hrequest : request ≠ .quit) :
    (dialogue.obey limits request).LeadsTo (Round.after limits dialogue.session request) := by
  cases request with
  | quit => exact absurd rfl hrequest
  | state => exact h.tell rfl
  | restart | back =>
    rw [Dialogue.obey]
    exact h.carryOut rfl (fun _ _ => rfl) fun _ => rfl
  | answerFact =>
    rw [Dialogue.obey]
    exact h.carryOut rfl (fun _ => h.reported_of_answer) fun _ => rfl
  | answer token =>
    rw [Dialogue.obey]
    cases hquestion : dialogue.session.question with
    | some question =>
      refine h.carryOut ?_ (fun _ => h.reported_of_answer) announces_normalizationNotice
      rw [Request.operation?, hquestion]
      rfl
    | none =>
      have hafter : Round.after limits dialogue.session (.answer token) =
          ⟨dialogue.session, false⟩ := by
        rw [Round.after, Request.operation?, hquestion]
        rfl
      rw [hafter]
      exact h.tell rfl

/-- A line that is not the last leads to the next round. -/
theorem take (h : dialogue.Tracks led) {line : String} {round : Round kb}
    (hnext : Round.next? limits dialogue.session line = some round) :
    (dialogue.take limits line).LeadsTo round := by
  unfold Round.next? at hnext
  unfold Dialogue.take
  cases hline : Request.ofLine line with
  | error message =>
    rw [hline] at hnext
    obtain rfl := Option.some.inj hnext
    exact h.withReport.tell rfl
  | ok request =>
    rw [hline] at hnext
    cases request with
    | quit => cases hnext
    | answer | answerFact | back | restart | state =>
      obtain rfl := Option.some.inj hnext
      exact h.withReport.obey nofun

end Tracks

namespace Tracks

end Tracks

end Dialogue

end Consultation.CommandLine
