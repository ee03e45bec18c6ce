import Consultation.Proofs.Session.Phase
import Consultation.Proofs.Session.Progress

namespace Consultation

namespace KnowledgeBase

variable {kb : KnowledgeBase}

/-- The conditions of all rules, each once. -/
def askable (kb : KnowledgeBase) : List Fact := (kb.rules.flatMap (·.conditions)).eraseDups

theorem mem_askable {fact : Fact} : fact ∈ kb.askable ↔ kb.isCondition fact = true := by
  simp [askable, isCondition]

/-- Different conditions are never more than there are. -/
theorem length_le_askable {facts : List Fact} (hnodup : facts.Nodup)
    (hconditions : ∀ fact ∈ facts, kb.isCondition fact = true) :
    facts.length ≤ kb.askable.length :=
  (hnodup.subperm fun fact hfact => mem_askable.mpr (hconditions fact hfact)).length_le

end KnowledgeBase

/-- What a person says to a question: a value, or words to be read as one. -/
inductive Response where
  | given (value : Answer)
  | worded (token : String)
  deriving DecidableEq, Repr

def Response.about (fact : Fact) : Response → Operation
  | .given value => .answer fact value
  | .worded token => .answerToken fact token

namespace Session

variable {kb : KnowledgeBase} {limits : Limits} {session next : Session kb} {operation : Operation}
  {fact : Fact}

/-- Answers what is asked, where anything is. -/
def respond (limits : Limits) (session : Session kb) (response : Response) : Session kb :=
  match session.question with
  | some fact => (session.step limits (response.about fact)).1
  | none => session

/-- Answers again and again what is asked. -/
def respondAll (limits : Limits) (session : Session kb) (responses : List Response) : Session kb :=
  responses.foldl (respond limits) session

/-- The seeds and answers that a run accepts, in order. -/
def accepted (limits : Limits) : Session kb → List Operation → List (Fact × Truth)
  | _, [] => []
  | session, operation :: rest =>
    match session.perform limits operation with
    | .ok (next, _) => operation.entry?.toList ++ accepted limits next rest
    | .error _ => accepted limits session rest

theorem Reachable.isCondition_of_told (h : session.Reachable limits) (hsession : session.Orderly)
    (hmem : fact ∈ session.memory.history.map (·.1)) : kb.isCondition fact = true := by
  obtain ⟨entry, hentry, rfl⟩ := List.mem_map.mp hmem
  exact h.isCondition_of_mem hsession.faithful hentry

theorem Reachable.length_history_le (h : session.Reachable limits) (hsession : session.Orderly) :
    session.memory.history.length ≤ kb.askable.length := by
  rw [← List.length_map (·.1)]
  exact KnowledgeBase.length_le_askable hsession.faithful.nodup
    fun fact hfact => h.isCondition_of_told hsession hfact

theorem Orderly.not_mem_history (h : session.Orderly) (hquestion : session.question = some fact) :
    fact ∉ session.memory.history.map (·.1) := by
  intro hmem
  obtain ⟨entry, hentry, rfl⟩ := List.mem_map.mp hmem
  have hfinding := h.faithful.finding_of_mem hentry
  rw [(h.answerable _ hquestion).new] at hfinding
  cases hfinding

/-- While anything is asked, not everything has been answered. -/
theorem Reachable.length_history_lt (h : session.Reachable limits) (hsession : session.Orderly)
    (hquestion : session.question = some fact) :
    session.memory.history.length < kb.askable.length := by
  have hnodup : (fact :: session.memory.history.map (·.1)).Nodup :=
    List.nodup_cons.mpr ⟨hsession.not_mem_history hquestion, hsession.faithful.nodup⟩
  have hconditions : ∀ told ∈ fact :: session.memory.history.map (·.1),
      kb.isCondition told = true :=
    List.forall_mem_cons.mpr ⟨(hsession.answerable fact hquestion).condition,
      fun told htold => h.isCondition_of_told hsession htold⟩
  have hle := KnowledgeBase.length_le_askable hnodup hconditions
  rwa [List.length_cons, List.length_map] at hle

/-- A response to what is asked is accepted, in whatever words. -/
theorem Orderly.accepts_respond (h : session.Orderly) (limits : Limits)
    (hquestion : session.question = some fact) (response : Response) :
    ∃ value, Operation.entry? (response.about fact) = some (fact, value) ∧
      session.Accepts limits (response.about fact) (session.respond limits response) := by
  obtain ⟨hphase, hcondition, hnew⟩ := h.answerable fact hquestion
  have hrespond : ∀ next, session.Accepts limits (response.about fact) next →
      session.Accepts limits (response.about fact) (session.respond limits response) := by
    intro next haccepts
    rw [respond, hquestion]
    simp only [step, perform_eq_ok_iff.mpr ⟨haccepts, rfl⟩]
    exact haccepts
  cases response with
  | given value => exact ⟨_, rfl, hrespond _ (.answer fact value hphase hcondition hnew)⟩
  | worded token => exact ⟨_, rfl, hrespond _ (.answerToken fact token hphase hcondition hnew)⟩

theorem Accepts.phase_ne_idle {response : Response}
    (h : session.Accepts limits (response.about fact) next) : next.phase ≠ .idle := by
  cases response with
  | given | worded =>
    rw [h.eq_proceed rfl]
    exact phase_proceed_ne_idle limits _

/-- A consultation that was started asks something, or is complete. -/
theorem Poised.asks (h : session.Poised) (hidle : session.phase ≠ .idle)
    (hcomplete : session.phase ≠ .complete) : ∃ fact, session.question = some fact := by
  have hrest := h.at_rest
  refine h.awaiting_iff.mp ?_
  cases hphase : session.phase with
  | awaitingAnswer => rfl
  | idle => exact absurd hphase hidle
  | processing => exact absurd hphase hrest
  | complete => exact absurd hphase hcomplete

/-- So many of the responses were answers to what was asked, one each, and they
    completed the consultation. -/
structure CompletesAfter (limits : Limits) (session : Session kb) (responses : List Response)
    (count : Nat) : Prop where
  awaiting : ∀ earlier < count,
    (session.respondAll limits (responses.take earlier)).phase = .awaitingAnswer
  length_history : ∀ earlier ≤ count,
    (session.respondAll limits (responses.take earlier)).memory.history.length =
      session.memory.history.length + earlier
  complete : (session.respondAll limits (responses.take count)).phase = .complete

theorem completesAfter_zero (hcomplete : session.phase = .complete) (responses : List Response) :
    session.CompletesAfter limits responses 0 := by
  refine ⟨nofun, fun earlier hle => ?_, ?_⟩
  · rw [Nat.le_zero.mp hle]
    rfl
  · exact hcomplete

theorem CompletesAfter.succ {response : Response} {rest : List Response} {count : Nat}
    (h : (session.respond limits response).CompletesAfter limits rest count)
    (hphase : session.phase = .awaitingAnswer)
    (hlength : (session.respond limits response).memory.history.length =
      session.memory.history.length + 1) :
    session.CompletesAfter limits (response :: rest) (count + 1) := by
  refine ⟨fun earlier hlt => ?_, fun earlier hle => ?_, h.complete⟩
  · cases earlier with
    | zero => exact hphase
    | succ earlier => exact h.awaiting earlier (Nat.lt_of_succ_lt_succ hlt)
  · cases earlier with
    | zero => rfl
    | succ earlier =>
      have hrest := h.length_history earlier (Nat.le_of_succ_le_succ hle)
      rw [hlength] at hrest
      exact hrest.trans (by omega)

/-- Every response is an answer more, and the answers run out of conditions. -/
theorem Reachable.exists_completesAfter (h : session.Reachable limits) (hsession : session.Orderly)
    (hpoised : session.Poised) (hidle : session.phase ≠ .idle) (responses : List Response)
    (henough : kb.askable.length ≤ session.memory.history.length + responses.length) :
    ∃ count, session.memory.history.length + count ≤ kb.askable.length ∧
      session.CompletesAfter limits responses count := by
  induction responses generalizing session with
  | nil =>
    -- With no response left there is no condition left to ask.
    have hcomplete : session.phase = .complete := by
      by_contra hne
      obtain ⟨fact, hquestion⟩ := hpoised.asks hidle hne
      have hlt := h.length_history_lt hsession hquestion
      exact absurd henough (Nat.not_le_of_lt hlt)
    exact ⟨0, h.length_history_le hsession, completesAfter_zero hcomplete []⟩
  | cons response rest ih =>
    by_cases hcomplete : session.phase = .complete
    · exact ⟨0, h.length_history_le hsession, completesAfter_zero hcomplete _⟩
    · obtain ⟨fact, hquestion⟩ := hpoised.asks hidle hcomplete
      obtain ⟨value, hentry, haccepts⟩ := hsession.accepts_respond limits hquestion response
      have hlength : (session.respond limits response).memory.history.length =
          session.memory.history.length + 1 := by
        rw [haccepts.history_eq hentry, List.length_append, List.length_singleton]
      rw [List.length_cons] at henough
      obtain ⟨count, hle, hcount⟩ := ih (h.accepts haccepts) (h.orderly_accepts hsession haccepts)
        (hpoised.accepts haccepts) haccepts.phase_ne_idle (by omega)
      exact ⟨count + 1, by omega, hcount.succ (hpoised.awaiting_iff.mpr ⟨fact, hquestion⟩) hlength⟩

/-- Operations that take nothing back only add to the history what they tell. -/
theorem Accepts.history_append (h : session.Accepts limits operation next)
    (hkeeps : operation.takesBack = false) :
    next.memory.history = session.memory.history ++ operation.entry?.toList := by
  cases hentry : operation.entry? with
  | some entry => exact h.history_eq hentry
  | none =>
    -- Only the start tells nothing and takes nothing back.
    cases h with
    | start =>
      rw [Option.toList_none, List.append_nil]
      have hanswers := congrArg Memory.history (answers_begin limits session)
      exact hanswers
    | seed | answer | answerToken => cases hentry
    | goBack | restart => cases hkeeps

theorem history_run (session : Session kb) (operations : List Operation)
    (hkeeps : ∀ operation ∈ operations, operation.takesBack = false) :
    (session.run limits operations).memory.history =
      session.memory.history ++ session.accepted limits operations := by
  induction operations generalizing session with
  | nil => exact (List.append_nil _).symm
  | cons operation rest ih =>
    obtain ⟨hhead, hrest⟩ := List.forall_mem_cons.mp hkeeps
    have hrun : session.run limits (operation :: rest) =
      (session.step limits operation).1.run limits rest := rfl
    rw [hrun, ih _ hrest, accepted, step]
    cases hperform : session.perform limits operation with
    | ok result =>
      simp only [(accepts_of_perform hperform).history_append hhead, List.append_assoc]
    | error reason => rfl

/-- Every dialogue ends. Wherever any operations have led, a consultation that awaits
    an answer is complete once it was answered, in whatever way, as often as there
    are conditions without an answer, or before. As long as nothing is taken back, no
    more seeds and answers are accepted than there are conditions, each fact at most
    once, and what was told is not asked. Neither cycles nor the limits matter. -/
theorem dialogue_ends (kb : KnowledgeBase) (limits : Limits) (operations : List Operation) :
    let session := (idle kb).run limits operations
    (session.phase = .awaitingAnswer → ∀ responses : List Response,
      kb.askable.length ≤ session.memory.history.length + responses.length →
      ∃ count, session.memory.history.length + count ≤ kb.askable.length ∧
        session.CompletesAfter limits responses count) ∧
    ∀ later : List Operation, (∀ operation ∈ later, operation.takesBack = false) →
      let told := session.memory.history ++ session.accepted limits later
      told.length ≤ kb.askable.length ∧ (told.map (·.1)).Nodup ∧
        ∀ fact, (session.run limits later).question = some fact → fact ∉ told.map (·.1) := by
  intro session
  have hreachable : session.Reachable limits := reachable_run kb limits operations
  have horderly : session.Orderly := orderly_run kb limits operations
  refine ⟨fun hphase responses henough => ?_, fun later hkeeps => ?_⟩
  · have hidle : session.phase ≠ .idle := by
      rw [hphase]
      nofun
    exact hreachable.exists_completesAfter horderly (poised_run kb limits operations) hidle
      responses henough
  · have hlater : (session.run limits later).Reachable limits :=
      Session.run_preserves later (fun _ _ _ _ h haccepts => h.accepts haccepts) hreachable
    have hnext : (session.run limits later).Orderly :=
      hreachable.run_preserves later horderly
        fun _ _ _ _ h hsession haccepts => h.orderly_accepts hsession haccepts
    intro told
    have htold : (session.run limits later).memory.history = told :=
      history_run session later hkeeps
    rw [← htold]
    exact ⟨hlater.length_history_le hnext, hnext.faithful.nodup, fun fact => hnext.not_mem_history⟩

theorem looped_dialogue_ends :
    let session := (idle looped).run ⟨1, 1, 64⟩ [.seed "b" true, .start, .answer "p" .unknown,
      .goBack 1]
    let responses : List Response := [.given .unknown, .worded "perhaps", .given .yes, .given .no]
    let later : List Operation := [.answer "c" .no, .start, .answer "c" .yes, .answer "p" .no]
    looped.askable = ["p", "b", "q", "a", "c"] ∧ session.memory.history = [("b", .holds)] ∧
      (∃ count, 1 + count ≤ 5 ∧ session.CompletesAfter ⟨1, 1, 64⟩ responses count) ∧
      session.accepted ⟨1, 1, 64⟩ later = [("c", .fails), ("p", .fails)] ∧
      ["b", "c", "p"].length ≤ 5 ∧ ["b", "c", "p"].Nodup := by
  intro session responses later
  have haskable : looped.askable = ["p", "b", "q", "a", "c"] := by decide +kernel
  have hhistory : session.memory.history = [("b", .holds)] := by decide +kernel
  have haccepted : session.accepted ⟨1, 1, 64⟩ later = [("c", .fails), ("p", .fails)] := by
    decide +kernel
  obtain ⟨hcompletes, hkeeps⟩ := dialogue_ends looped ⟨1, 1, 64⟩
    [.seed "b" true, .start, .answer "p" .unknown, .goBack 1]
  obtain ⟨count, hle, hcount⟩ := hcompletes (by decide +kernel) responses (by decide +kernel)
  obtain ⟨hlength, hnodup, -⟩ := hkeeps later (by decide)
  rw [hhistory, haskable] at hle
  rw [haccepted, hhistory, haskable] at hlength
  rw [haccepted, hhistory] at hnodup
  exact ⟨haskable, hhistory, ⟨count, hle, hcount⟩, haccepted, hlength, hnodup⟩

end Session

end Consultation
