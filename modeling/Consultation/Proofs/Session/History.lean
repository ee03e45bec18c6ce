import Consultation.Proofs.Session.Completion

namespace Consultation

/-- The entry that an operation adds to the history, where it is accepted. -/
def Operation.entry? : Operation → Option (Fact × Truth)
  | .seed fact value => some (fact, .ofBool value)
  | .answer fact value => some (fact, value.truth)
  | .answerToken fact token => some (fact, (Answer.read token).value.truth)
  | .start | .goBack _ | .restart => none

namespace Session

variable {kb : KnowledgeBase} {limits : Limits} {session next : Session kb} {operation : Operation}
  {fact : Fact}

/-- A fact that can be answered now. -/
structure Answerable (session : Session kb) (fact : Fact) : Prop where
  phase : session.phase = .awaitingAnswer
  condition : kb.isCondition fact = true
  new : session.memory.finding fact = none

/-- The history tells every answer once, and the fact in question can be
    answered. -/
structure Orderly (session : Session kb) : Prop where
  faithful : session.memory.Faithful
  answerable : ∀ fact, session.question = some fact → session.Answerable fact

theorem Reachable.answerable_proceed (h : session.Reachable limits)
    (hquestion : (session.proceed limits).question = some fact) :
    (session.proceed limits).Answerable fact := by
  have hphase := phase_proceed limits session
  rw [hquestion] at hphase
  rw [question_proceed] at hquestion
  obtain ⟨hcondition, hnew, -⟩ := h.proceed.justified.open_of_nextQuestion hquestion
  exact ⟨hphase, hcondition, hnew⟩

theorem Reachable.isCondition_of_mem (h : session.Reachable limits)
    (hfaithful : session.memory.Faithful) {entry : Fact × Truth}
    (hentry : entry ∈ session.memory.history) : kb.isCondition entry.1 = true :=
  h.isCondition_of_finding (hfaithful.finding_of_mem hentry)

/-- Going back asks the first answer that was taken back. -/
theorem Reachable.answerable_rewind (h : session.Reachable limits)
    (hfaithful : session.memory.Faithful) {entry : Fact × Truth}
    (hentry : entry ∈ session.memory.history) (kept steps : Nat) :
    (session.rewind limits kept steps entry.1).Answerable entry.1 := by
  refine ⟨rfl, h.isCondition_of_mem hfaithful hentry, ?_⟩
  rw [Memory.finding_eq_of_answers_eq (answers_rewind limits session kept steps entry.1)]
  exact hfaithful.finding_clearAfter_self (List.mem_map_of_mem hentry)

theorem Reachable.orderly_accepts (h : session.Reachable limits) (hsession : session.Orderly)
    (haccepts : session.Accepts limits operation next) : next.Orderly := by
  refine ⟨faithful_accepts hsession.faithful haccepts, fun fact hquestion => ?_⟩
  have hproceed : ∀ entered, session.entered operation = some entered → next.Answerable fact := by
    intro entered hentered
    rw [haccepts.eq_proceed hentered] at hquestion ⊢
    exact (h.entered haccepts hentered).answerable_proceed hquestion
  cases haccepts with
  | seed _ _ hphase =>
    -- Nothing is in question before the start.
    have hawaiting := (hsession.answerable fact hquestion).phase
    rw [hphase] at hawaiting
    cases hawaiting
  | goBack steps _ _ hlt =>
    obtain rfl := Option.some.inj hquestion
    exact h.answerable_rewind hsession.faithful (List.getElem_mem hlt) _ steps
  | start | answer | answerToken | restart => exact hproceed _ rfl

theorem orderly_run (kb : KnowledgeBase) (limits : Limits) (operations : List Operation) :
    ((idle kb).run limits operations).Orderly :=
  run_invariant operations ⟨⟨List.nodup_nil, fun _ => rfl⟩, nofun⟩
    fun _ _ _ hreachable hsession haccepts => hreachable.orderly_accepts hsession haccepts

/-- Only accepted seeds and answers enter the history, each as its last entry. -/
theorem Accepts.history_eq (h : session.Accepts limits operation next) {entry : Fact × Truth}
    (hentry : operation.entry? = some entry) :
    next.memory.history = session.memory.history ++ [entry] := by
  cases h with
  | seed =>
    obtain rfl := Option.some.inj hentry
    rfl
  | answer | answerToken =>
    obtain rfl := Option.some.inj hentry
    exact congrArg Memory.history (answers_acceptAnswer _ _ _ _ _)
  | start | goBack | restart => cases hentry

/-- What an accepted step back leads to: so many answers are gone, all of which
    were there, and the first of them is asked again. -/
structure TakesBack (session : Session kb) (steps : Nat) (next : Session kb) : Prop where
  positive : 1 ≤ steps
  le_length : steps ≤ session.memory.history.length
  history_eq : next.memory.history =
    session.memory.history.take (session.memory.history.length - steps)
  question_eq : ∃ removed,
    session.memory.history[session.memory.history.length - steps]? = some removed ∧
      next.question = some removed.1

theorem history_rewind (h : session.memory.Faithful) {kept : Nat}
    (hkept : kept < session.memory.history.length) (steps : Nat) :
    (session.rewind limits kept steps session.memory.history[kept].1).memory.history =
      session.memory.history.take kept := by
  have hanswers := answers_rewind limits session kept steps session.memory.history[kept].1
  rw [h.clearAfter_eq hkept] at hanswers
  exact congrArg Memory.history hanswers

theorem Accepts.takesBack {steps : Nat} (h : session.Accepts limits (.goBack steps) next)
    (hfaithful : session.memory.Faithful) : session.TakesBack steps next := by
  cases h with
  | goBack _ _ hpositive hlt hle =>
    exact ⟨hpositive, hle, history_rewind hfaithful hlt steps, _, List.getElem?_eq_getElem hlt, rfl⟩

/-- Going back is refused beyond the answers there are, however far it is to go. -/
theorem exists_perform_goBack_iff (limits : Limits) (session : Session kb) (steps : Nat) :
    (∃ next reply, session.perform limits (.goBack steps) = .ok (next, reply)) ↔
      session.phase ≠ .idle ∧ 1 ≤ steps ∧ steps ≤ session.memory.history.length := by
  constructor
  · rintro ⟨next, reply, hperform⟩
    cases accepts_of_perform hperform with
    | goBack _ hphase hpositive _ hle => exact ⟨hphase, hpositive, hle⟩
  · rintro ⟨hphase, hpositive, hle⟩
    exact ⟨_, _, perform_eq_ok_iff.mpr ⟨.goBack steps hphase hpositive (by omega) hle, rfl⟩⟩

/-- An operation is accepted, and going back one step from where it leads restores
    what was answered and what was asked before. -/
def Undoes (limits : Limits) (session : Session kb) (operation : Operation) : Prop :=
  ∃ next reply back rollback, session.perform limits operation = .ok (next, reply) ∧
    next.perform limits (.goBack 1) = .ok (back, rollback) ∧
    back.memory.history = session.memory.history ∧
    back.memory.findings = session.memory.findings ∧ back.question = session.question

theorem Accepts.undoes (h : session.Accepts limits operation next) (hsession : session.Orderly)
    (hphase : next.phase ≠ .idle) {value : Truth} (hentry : operation.entry? = some (fact, value))
    (hquestion : session.question = some fact) : session.Undoes limits operation := by
  have hhistory : next.memory.history = session.memory.history ++ [(fact, value)] :=
    h.history_eq hentry
  have hlength : next.memory.history.length = session.memory.history.length + 1 := by
    rw [hhistory, List.length_append, List.length_singleton]
  have hfaithful : next.memory.Faithful := faithful_accepts hsession.faithful h
  -- The answer is the last entry, so one step takes back just that.
  obtain ⟨back, rollback, hback⟩ := (exists_perform_goBack_iff limits next 1).mpr
    ⟨hphase, Nat.le_refl 1, by omega⟩
  have hrewinds := accepts_of_perform hback
  obtain ⟨-, -, hkept, removed, hremoved, hasked⟩ := hrewinds.takesBack hfaithful
  rw [hlength, Nat.add_sub_cancel, hhistory] at hkept hremoved
  rw [List.take_left] at hkept
  rw [List.getElem?_concat_length, Option.some.injEq] at hremoved
  refine ⟨next, _, back, rollback, perform_eq_ok_iff.mpr ⟨h, rfl⟩, hback, hkept, ?_, ?_⟩
  · rw [(faithful_accepts hfaithful hrewinds).findings_eq, hkept, hsession.faithful.findings_eq]
  · rw [hasked, ← hremoved, hquestion]

theorem phase_proceed_ne_idle (limits : Limits) (session : Session kb) :
    (session.proceed limits).phase ≠ .idle := by
  rw [phase_proceed]
  split <;> nofun

/-- The history and the findings are the same information, and going back removes
    exactly the last answers. After any operations whatever, the history tells each
    answer once, every one of them about a condition; the findings are the history
    read as a map, and the facts answered `unknown` are read off it. A seed or an
    answer that is accepted adds its entry; going back is accepted for as many steps
    as there are answers, leaves those before, and asks the first that it removed.
    So an answer to what is asked is always accepted and can be taken back. -/
theorem history_exact (kb : KnowledgeBase) (limits : Limits) (operations : List Operation) :
    let session := (idle kb).run limits operations
    let history := session.memory.history
    (history.map (·.1)).Nodup ∧
    (∀ entry ∈ history, kb.isCondition entry.1 = true) ∧
    session.memory.findings = .ofList history ∧
    session.memory.unknownAnswers = (history.filter (·.2 = .unknown)).map (·.1) ∧
    (∀ operation entry next reply, operation.entry? = some entry →
      session.perform limits operation = .ok (next, reply) →
      next.memory.history = history ++ [entry]) ∧
    (∀ steps, (∃ next reply, session.perform limits (.goBack steps) = .ok (next, reply)) ↔
      session.phase ≠ .idle ∧ 1 ≤ steps ∧ steps ≤ history.length) ∧
    (∀ steps next reply, session.perform limits (.goBack steps) = .ok (next, reply) →
      session.TakesBack steps next) ∧
    ∀ fact, session.question = some fact →
      (∀ value, session.Undoes limits (.answer fact value)) ∧
        ∀ token, session.Undoes limits (.answerToken fact token) := by
  intro session history
  have hreachable : session.Reachable limits := reachable_run kb limits operations
  have horderly : session.Orderly := orderly_run kb limits operations
  refine ⟨horderly.faithful.nodup, fun entry => hreachable.isCondition_of_mem horderly.faithful,
    horderly.faithful.findings_eq, horderly.faithful.unknownAnswers_eq, ?_,
    exists_perform_goBack_iff limits session, ?_, ?_⟩
  · intro operation entry next reply hentry hperform
    exact (accepts_of_perform hperform).history_eq hentry
  · intro steps next reply hperform
    exact (accepts_of_perform hperform).takesBack horderly.faithful
  · intro fact hquestion
    obtain ⟨hphase, hcondition, hnew⟩ := horderly.answerable fact hquestion
    refine ⟨fun value => ?_, fun token => ?_⟩
    · exact (Accepts.answer fact value hphase hcondition hnew).undoes horderly
        (phase_proceed_ne_idle limits _) rfl hquestion
    · exact (Accepts.answerToken fact token hphase hcondition hnew).undoes horderly
        (phase_proceed_ne_idle limits _) rfl hquestion

theorem shared_history_exact :
    let session := (idle shared).run {} [.seed "e" true, .start, .answer "x" .unknown,
      .answer "d" .no, .goBack 1, .answerToken "c" "maybe"]
    session.memory.findings = .ofList [("e", .holds), ("x", .unknown), ("c", .unknown)] ∧
      (∃ next reply, session.perform {} (.goBack 2) = .ok (next, reply) ∧
        session.TakesBack 2 next) ∧
      session.Undoes {} (.answer "a" .yes) := by
  intro session
  have hhistory : session.memory.history =
      [("e", .holds), ("x", .unknown), ("c", .unknown)] := by
    decide +kernel
  obtain ⟨-, -, hfindings, -, -, hback, htakes, hundoes⟩ := history_exact shared {}
    [.seed "e" true, .start, .answer "x" .unknown, .answer "d" .no, .goBack 1,
      .answerToken "c" "maybe"]
  refine ⟨hfindings.trans (congrArg FactMap.ofList hhistory), ?_,
    (hundoes "a" (by decide +kernel)).1 .yes⟩
  have hrange : session.phase ≠ .idle ∧ 1 ≤ 2 ∧ 2 ≤ session.memory.history.length := by
    rw [hhistory]
    decide +kernel
  obtain ⟨next, reply, hperform⟩ := (hback 2).mpr hrange
  exact ⟨next, reply, hperform, htakes 2 next reply hperform⟩

end Session

end Consultation
