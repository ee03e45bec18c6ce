import Consultation.Session.Operation
import Mathlib.Logic.Basic

namespace Consultation

theorem bind_eq_ok_iff {ε α β : Type} {first : Except ε α} {rest : α → Except ε β} {result : β} :
    first >>= rest = .ok result ↔ ∃ value, first = .ok value ∧ rest value = .ok result := by
  cases first with
  | error reason => exact ⟨nofun, nofun⟩
  | ok value =>
    constructor
    · exact fun h => ⟨value, rfl, h⟩
    · rintro ⟨other, hother, h⟩
      cases hother
      exact h

theorem bind_eq_error_iff {ε α β : Type} {first : Except ε α} {rest : α → Except ε β} {reason : ε} :
    first >>= rest = .error reason ↔
      first = .error reason ∨ ∃ value, first = .ok value ∧ rest value = .error reason := by
  cases first with
  | error other =>
    constructor
    · intro h
      cases h
      exact .inl rfl
    · rintro (h | ⟨value, hvalue, -⟩)
      · cases h
        rfl
      · cases hvalue
  | ok value =>
    constructor
    · exact fun h => .inr ⟨value, rfl, h⟩
    · rintro (h | ⟨other, hother, h⟩)
      · cases h
      · cases hother
        exact h

namespace Session

variable {kb : KnowledgeBase}

/-- What an accepted operation needs, and what it leads to. -/
inductive Accepts (limits : Limits) (session : Session kb) : Operation → Session kb → Prop where
  | seed (fact : Fact) (value : Bool) (hphase : session.phase = .idle)
      (hcondition : kb.isCondition fact = true) (hnew : session.memory.finding fact = none) :
      Accepts limits session (.seed fact value)
        ((session.putFinding fact (.ofBool value)).record (.seeded fact (.ofBool value)))
  | start (hphase : session.phase = .idle) : Accepts limits session .start (session.begin limits)
  | answer (fact : Fact) (value : Answer) (hphase : session.phase = .awaitingAnswer)
      (hcondition : kb.isCondition fact = true) (hnew : session.memory.finding fact = none) :
      Accepts limits session (.answer fact value) (session.acceptAnswer limits fact value none)
  | answerToken (fact : Fact) (token : String) (hphase : session.phase = .awaitingAnswer)
      (hcondition : kb.isCondition fact = true) (hnew : session.memory.finding fact = none) :
      Accepts limits session (.answerToken fact token)
        (session.acceptAnswer limits fact (Answer.read token).value
          (if (Answer.read token).normalized then some token else none))
  | goBack (steps : Nat) (hphase : session.phase ≠ .idle) (hpositive : 0 < steps)
      (hlt : session.memory.history.length - steps < session.memory.history.length)
      (hle : steps ≤ session.memory.history.length) :
      Accepts limits session (.goBack steps)
        (session.rewind limits (session.memory.history.length - steps) steps
          (session.memory.history[session.memory.history.length - steps]).1)
  | restart : Accepts limits session .restart ((idle kb).begin limits)

/-- Why an operation is refused. The limits have no part in it. -/
inductive Refuses (session : Session kb) : Operation → SessionError → Prop where
  | seedAfterStart (fact : Fact) (value : Bool) (hphase : session.phase ≠ .idle) :
      Refuses session (.seed fact value) (.seedAfterStart fact)
  | seed (fact : Fact) (value : Bool) {reason : SessionError} (hphase : session.phase = .idle)
      (hcheck : session.checkAnswerable fact = .error reason) :
      Refuses session (.seed fact value) reason
  | start (hphase : session.phase ≠ .idle) : Refuses session .start .alreadyStarted
  | answer (fact : Fact) (value : Answer) {reason : SessionError}
      (hcheck : session.checkAnswer fact = .error reason) :
      Refuses session (.answer fact value) reason
  | answerToken (fact : Fact) (token : String) {reason : SessionError}
      (hcheck : session.checkAnswer fact = .error reason) :
      Refuses session (.answerToken fact token) reason
  | goBackBeforeStart (steps : Nat) (hphase : session.phase = .idle) :
      Refuses session (.goBack steps) .notStarted
  | goBackOutOfRange (steps : Nat) (hphase : session.phase ≠ .idle)
      (hrange : ¬ (0 < steps ∧ steps ≤ session.memory.history.length)) :
      Refuses session (.goBack steps) (.rollbackOutOfRange steps session.memory.history.length)

/-- What an accepted operation tells of the consultation that it led to. -/
def replyTo (next : Session kb) : Operation → Reply
  | .seed _ _ => .seeded
  | .start | .restart => .asked next.question
  | .answer _ _ => .answered (next.answerOutcome none)
  | .answerToken _ token =>
    .answered (next.answerOutcome (if (Answer.read token).normalized then some token else none))
  | .goBack _ => .rolledBack next.rollbackOutcome

variable {limits : Limits} {session : Session kb}

theorem checkAnswerable_eq_ok_iff {fact : Fact} :
    session.checkAnswerable fact = .ok () ↔
      kb.isCondition fact = true ∧ session.memory.finding fact = none := by
  unfold checkAnswerable
  cases hcondition : kb.isCondition fact <;>
    cases hfinding : session.memory.finding fact <;> simp

theorem checkAnswer_eq_ok_iff {fact : Fact} :
    session.checkAnswer fact = .ok () ↔
      session.phase = .awaitingAnswer ∧
        kb.isCondition fact = true ∧ session.memory.finding fact = none := by
  rw [← checkAnswerable_eq_ok_iff]
  unfold checkAnswer
  cases hphase : session.phase <;> simp

theorem seed_eq_ok_iff {fact : Fact} {value : Bool} {next : Session kb} :
    session.seed fact value = .ok next ↔
      (session.phase = .idle ∧ kb.isCondition fact = true ∧ session.memory.finding fact = none) ∧
        next = (session.putFinding fact (.ofBool value)).record (.seeded fact (.ofBool value)) := by
  unfold seed
  split
  · next hphase => simp [hphase]
  · next hphase =>
    rw [bind_eq_ok_iff]
    constructor
    · rintro ⟨⟨⟩, hcheck, hnext⟩
      cases hnext
      exact ⟨⟨not_not.mp hphase, checkAnswerable_eq_ok_iff.mp hcheck⟩, rfl⟩
    · rintro ⟨⟨-, hanswerable⟩, rfl⟩
      exact ⟨(), checkAnswerable_eq_ok_iff.mpr hanswerable, rfl⟩

theorem start_eq_ok_iff {next : Session kb} :
    session.start limits = .ok next ↔ session.phase = .idle ∧ next = session.begin limits := by
  unfold start
  split
  · next hphase => simp [hphase]
  · next hphase =>
    rw [Except.ok.injEq, eq_comm]
    exact ⟨fun hnext => ⟨not_not.mp hphase, hnext⟩, fun h => h.2⟩

theorem applyAnswer_eq_ok_iff {fact : Fact} {value : Answer} {normalizedFrom : Option String}
    {next : Session kb} {outcome : AnswerOutcome} :
    session.applyAnswer limits fact value normalizedFrom = .ok (next, outcome) ↔
      (session.phase = .awaitingAnswer ∧ kb.isCondition fact = true ∧
        session.memory.finding fact = none) ∧
      next = session.acceptAnswer limits fact value normalizedFrom ∧
      outcome = next.answerOutcome normalizedFrom := by
  unfold applyAnswer
  rw [bind_eq_ok_iff]
  constructor
  · rintro ⟨⟨⟩, hcheck, hnext⟩
    cases hnext
    exact ⟨checkAnswer_eq_ok_iff.mp hcheck, rfl, rfl⟩
  · rintro ⟨hcheck, rfl, rfl⟩
    exact ⟨(), checkAnswer_eq_ok_iff.mpr hcheck, rfl⟩

theorem answer_eq_ok_iff {fact : Fact} {value : Answer} {next : Session kb}
    {outcome : AnswerOutcome} :
    session.answer limits fact value = .ok (next, outcome) ↔
      (session.phase = .awaitingAnswer ∧ kb.isCondition fact = true ∧
        session.memory.finding fact = none) ∧
      next = session.acceptAnswer limits fact value none ∧ outcome = next.answerOutcome none :=
  applyAnswer_eq_ok_iff

/-- Going back is accepted exactly when the consultation was started and has so
    many answers. -/
theorem goBack_eq_ok_iff {steps : Nat} {next : Session kb} {outcome : RollbackOutcome} :
    session.goBack limits steps = .ok (next, outcome) ↔
      session.phase ≠ .idle ∧ 0 < steps ∧
        ∃ hlt : session.memory.history.length - steps < session.memory.history.length,
          steps ≤ session.memory.history.length ∧
          next = session.rewind limits (session.memory.history.length - steps) steps
            (session.memory.history[session.memory.history.length - steps]).1 ∧
          outcome = next.rollbackOutcome := by
  unfold goBack
  simp only
  split
  · next hidle => simp [hidle]
  · next hphase =>
    split
    · next hrange =>
      constructor
      · intro h
        cases h
        exact ⟨hphase, hrange.1, by omega, hrange.2, rfl, rfl⟩
      · rintro ⟨-, -, -, -, rfl, rfl⟩
        rfl
    · next hrange =>
      constructor
      · intro h
        cases h
      · rintro ⟨-, hpositive, -, hle, -⟩
        exact absurd ⟨hpositive, hle⟩ hrange

theorem goBack_eq_error_iff {steps : Nat} {reason : SessionError} :
    session.goBack limits steps = .error reason ↔ session.Refuses (.goBack steps) reason := by
  unfold goBack
  simp only
  split
  · next hidle =>
    constructor
    · intro h
      cases h
      exact .goBackBeforeStart steps hidle
    · intro h
      cases h with
      | goBackBeforeStart => rfl
      | goBackOutOfRange _ hphase => exact absurd hidle hphase
  · next hphase =>
    split
    · next hrange =>
      refine iff_of_false nofun fun h => ?_
      cases h with
      | goBackBeforeStart _ hidle => exact hphase hidle
      | goBackOutOfRange _ _ hnot => exact hnot hrange
    · next hrange =>
      constructor
      · intro h
        cases h
        exact .goBackOutOfRange steps hphase hrange
      · intro h
        cases h with
        | goBackBeforeStart _ hidle => exact absurd hidle hphase
        | goBackOutOfRange => rfl

/-- An operation is carried out exactly on the grounds on which it is accepted. -/
theorem perform_eq_ok_iff {operation : Operation} {next : Session kb} {reply : Reply} :
    session.perform limits operation = .ok (next, reply) ↔
      session.Accepts limits operation next ∧ reply = next.replyTo operation := by
  constructor
  · intro h
    cases operation with
    | seed fact value =>
      obtain ⟨seeded, hseed, hnext⟩ := bind_eq_ok_iff.mp h
      cases hnext
      obtain ⟨⟨hphase, hcondition, hnew⟩, rfl⟩ := seed_eq_ok_iff.mp hseed
      exact ⟨.seed fact value hphase hcondition hnew, rfl⟩
    | start =>
      obtain ⟨started, hstart, hnext⟩ := bind_eq_ok_iff.mp h
      cases hnext
      obtain ⟨hphase, rfl⟩ := start_eq_ok_iff.mp hstart
      exact ⟨.start hphase, rfl⟩
    | answer fact value =>
      obtain ⟨⟨answered, outcome⟩, hanswer, hnext⟩ := bind_eq_ok_iff.mp h
      cases hnext
      obtain ⟨⟨hphase, hcondition, hnew⟩, rfl, rfl⟩ := answer_eq_ok_iff.mp hanswer
      exact ⟨.answer fact value hphase hcondition hnew, rfl⟩
    | answerToken fact token =>
      obtain ⟨⟨answered, outcome⟩, hanswer, hnext⟩ := bind_eq_ok_iff.mp h
      cases hnext
      obtain ⟨⟨hphase, hcondition, hnew⟩, rfl, rfl⟩ := applyAnswer_eq_ok_iff.mp hanswer
      exact ⟨.answerToken fact token hphase hcondition hnew, rfl⟩
    | goBack steps =>
      obtain ⟨⟨rewound, outcome⟩, hback, hnext⟩ := bind_eq_ok_iff.mp h
      cases hnext
      obtain ⟨hphase, hpositive, hlt, hle, rfl, rfl⟩ := goBack_eq_ok_iff.mp hback
      exact ⟨.goBack steps hphase hpositive hlt hle, rfl⟩
    | restart =>
      cases h
      exact ⟨.restart, rfl⟩
  · rintro ⟨h, rfl⟩
    cases h with
    | seed fact value hphase hcondition hnew =>
      exact bind_eq_ok_iff.mpr ⟨_, seed_eq_ok_iff.mpr ⟨⟨hphase, hcondition, hnew⟩, rfl⟩, rfl⟩
    | start hphase => exact bind_eq_ok_iff.mpr ⟨_, start_eq_ok_iff.mpr ⟨hphase, rfl⟩, rfl⟩
    | answer fact value hphase hcondition hnew =>
      exact bind_eq_ok_iff.mpr
        ⟨_, answer_eq_ok_iff.mpr ⟨⟨hphase, hcondition, hnew⟩, rfl, rfl⟩, rfl⟩
    | answerToken fact token hphase hcondition hnew =>
      exact bind_eq_ok_iff.mpr
        ⟨_, applyAnswer_eq_ok_iff.mpr ⟨⟨hphase, hcondition, hnew⟩, rfl, rfl⟩, rfl⟩
    | goBack steps hphase hpositive hlt hle =>
      exact bind_eq_ok_iff.mpr
        ⟨_, goBack_eq_ok_iff.mpr ⟨hphase, hpositive, hlt, hle, rfl, rfl⟩, rfl⟩
    | restart => rfl

theorem perform_eq_error_iff {operation : Operation} {reason : SessionError} :
    session.perform limits operation = .error reason ↔ session.Refuses operation reason := by
  constructor
  · intro h
    cases operation with
    | seed fact value =>
      have hseed := (bind_eq_error_iff.mp h).resolve_right nofun
      unfold Session.seed at hseed
      split at hseed
      · next hphase =>
        cases hseed
        exact .seedAfterStart fact value hphase
      · next hphase =>
        have hcheck := (bind_eq_error_iff.mp hseed).resolve_right nofun
        exact .seed fact value (not_not.mp hphase) hcheck
    | start =>
      have hstart := (bind_eq_error_iff.mp h).resolve_right nofun
      unfold Session.start at hstart
      split at hstart
      · next hphase =>
        cases hstart
        exact .start hphase
      · cases hstart
    | answer fact value =>
      have hanswer := (bind_eq_error_iff.mp h).resolve_right nofun
      exact .answer fact value ((bind_eq_error_iff.mp hanswer).resolve_right nofun)
    | answerToken fact token =>
      have hanswer := (bind_eq_error_iff.mp h).resolve_right nofun
      exact .answerToken fact token ((bind_eq_error_iff.mp hanswer).resolve_right nofun)
    | goBack steps =>
      exact goBack_eq_error_iff.mp ((bind_eq_error_iff.mp h).resolve_right nofun)
    | restart => cases h
  · intro h
    cases h with
    | seedAfterStart fact value hphase =>
      exact bind_eq_error_iff.mpr (.inl (if_pos hphase))
    | seed fact value hphase hcheck =>
      refine bind_eq_error_iff.mpr (.inl ?_)
      rw [Session.seed, if_neg (not_not.mpr hphase)]
      exact bind_eq_error_iff.mpr (.inl hcheck)
    | start hphase => exact bind_eq_error_iff.mpr (.inl (if_pos hphase))
    | answer fact value hcheck | answerToken fact token hcheck =>
      exact bind_eq_error_iff.mpr (.inl (bind_eq_error_iff.mpr (.inl hcheck)))
    | goBackBeforeStart steps hphase =>
      exact bind_eq_error_iff.mpr (.inl (goBack_eq_error_iff.mpr (.goBackBeforeStart steps hphase)))
    | goBackOutOfRange steps hphase hrange =>
      exact bind_eq_error_iff.mpr
        (.inl (goBack_eq_error_iff.mpr (.goBackOutOfRange steps hphase hrange)))

/-- Whatever is carried out was accepted on these grounds. -/
theorem accepts_of_perform {operation : Operation} {next : Session kb} {reply : Reply}
    (h : session.perform limits operation = .ok (next, reply)) :
    session.Accepts limits operation next := (perform_eq_ok_iff.mp h).1

theorem perform_answer {fact : Fact} (value : Answer) (hphase : session.phase = .awaitingAnswer)
    (hcondition : kb.isCondition fact = true) (hnew : session.memory.finding fact = none) :
    session.perform limits (.answer fact value) =
      .ok (session.acceptAnswer limits fact value none,
        .answered ((session.acceptAnswer limits fact value none).answerOutcome none)) :=
  perform_eq_ok_iff.mpr ⟨.answer fact value hphase hcondition hnew, rfl⟩

/-- A step carries an accepted operation out, and leaves a consultation that
    refuses it as it is. -/
theorem step_cases (limits : Limits) (session : Session kb) (operation : Operation) :
    (∃ next, session.Accepts limits operation next ∧
      session.step limits operation = (next, .ok (next.replyTo operation))) ∨
    ∃ reason, session.Refuses operation reason ∧
      session.step limits operation = (session, .error reason) := by
  unfold step
  cases hperform : session.perform limits operation with
  | ok result =>
    obtain ⟨next, reply⟩ := result
    obtain ⟨haccepts, rfl⟩ := perform_eq_ok_iff.mp hperform
    exact .inl ⟨next, haccepts, rfl⟩
  | error reason => exact .inr ⟨reason, perform_eq_error_iff.mp hperform, rfl⟩

/-- A property that every accepted operation of a run keeps is kept by the whole
    run, since a refused operation changes nothing. -/
theorem run_preserves {P : Session kb → Prop} (operations : List Operation)
    (hstep : ∀ session next, ∀ operation ∈ operations, P session →
      Accepts limits session operation next → P next)
    (hsession : P session) : P (session.run limits operations) := by
  induction operations generalizing session with
  | nil => exact hsession
  | cons operation rest ih =>
    have hnext : P (session.step limits operation).1 := by
      rcases step_cases limits session operation with ⟨next, haccepts, heq⟩ | ⟨reason, -, heq⟩
      · rw [heq]
        exact hstep session next operation List.mem_cons_self hsession haccepts
      · rw [heq]
        exact hsession
    exact ih (fun session next other hother =>
      hstep session next other (List.mem_cons_of_mem _ hother)) hnext

end Session

end Consultation
