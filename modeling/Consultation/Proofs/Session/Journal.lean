import Consultation.Proofs.Session.History

namespace Consultation

/-- The answers in force after an event, where those before it are given. Going back has to
    find as many answers as it takes back, the first of them about its fact. -/
def Event.retell? (history : List (Fact × Truth)) : Event → Option (List (Fact × Truth))
  | .seeded fact value | .answered fact value => some (history ++ [(fact, value)])
  | .rolledBack fact steps =>
    if steps ≤ history.length ∧ history[history.length - steps]?.map (·.1) = some fact then
      some (history.take (history.length - steps))
    else none
  | .started _ | .answerNormalized _ _ | .derived _ _ | .premisePromoted _ _ | .refuted _ _
  | .capReached _ | .completed _ _ => some history

namespace Log

/-- The answers in force at the end of a journal, as it tells them from the start. -/
def retold? (log : Log) : Option (List (Fact × Truth)) := log.foldlM Event.retell? []

/-- The last event of a journal is not that a consultation was completed. -/
def EndsOpen (log : Log) : Prop :=
  ∀ applicable conditional, log.getLast? ≠ some (.completed applicable conditional)

variable {log : Log} {event : Event}

theorem retold?_concat (log : Log) (event : Event) :
    retold? (log ++ [event]) = (retold? log).bind fun history => event.retell? history := by
  rw [retold?, List.foldlM_append, ← retold?]
  cases retold? log <;> simp

/-- Most events tell nothing of the answers. -/
theorem retold?_concat_of_silent (log : Log) (h : ∀ history, event.retell? history = some history) :
    retold? (log ++ [event]) = retold? log := by
  simp only [retold?_concat, h, Option.bind_fun_some]

theorem endsOpen_concat (h : ∀ applicable conditional, event ≠ .completed applicable conditional) :
    EndsOpen (log ++ [event]) := by
  intro applicable conditional hlast
  rw [List.getLast?_concat] at hlast
  exact h _ _ (Option.some.inj hlast)

end Log

namespace KnowledgeBase

variable {kb : KnowledgeBase} {board next final : Board kb.size}

/-- Inference adds to the journal nothing about the answers. -/
theorem Infers.retold?_eq (h : kb.Infers board next) : next.log.retold? = board.log.retold? := by
  cases h with
  | evaluate => rfl
  | derive | promote | refute =>
    rw [log_infer]
    exact Log.retold?_concat_of_silent _ fun _ => rfl

theorem InfersAll.retold?_eq (h : kb.InfersAll board final) :
    final.log.retold? = board.log.retold? :=
  h.preserves (P := fun middle => middle.log.retold? = board.log.retold?)
    (fun _ _ hstep hsame => hstep.retold?_eq.trans hsame) rfl

theorem Infers.endsOpen (h : kb.Infers board next) (hopen : board.log.EndsOpen) :
    next.log.EndsOpen := by
  cases h with
  | evaluate => exact hopen
  | derive | promote | refute => exact Log.endsOpen_concat nofun

theorem retold?_converge (limits : Limits) (board : Board kb.size) :
    (kb.converge limits board).log.retold? = board.log.retold? := by
  obtain ⟨final, hsteps, hfinal | hfinal⟩ := kb.converge_cases limits board
  · rw [hfinal, hsteps.retold?_eq]
  · rw [hfinal, ← hsteps.retold?_eq]
    exact Log.retold?_concat_of_silent _ fun _ => rfl

theorem endsOpen_converge (limits : Limits) (hopen : board.log.EndsOpen) :
    (kb.converge limits board).log.EndsOpen := by
  obtain ⟨final, hsteps, hfinal | hfinal⟩ := kb.converge_cases limits board
  · rw [hfinal]
    exact hsteps.preserves (P := fun middle => middle.log.EndsOpen)
      (fun _ _ => Infers.endsOpen) hopen
  · rw [hfinal]
    exact Log.endsOpen_concat nofun

end KnowledgeBase

namespace Session

variable {kb : KnowledgeBase} {limits : Limits} {session next entered : Session kb}
  {operation : Operation}

/-- The journal tells the answers in force, and ends with the number of goals reported exactly
    where the consultation is complete. -/
structure Chronicled (session : Session kb) : Prop where
  retold : session.log.retold? = some session.memory.history
  completed_iff : ∀ applicable conditional,
    session.log.getLast? = some (.completed applicable conditional) ↔
      session.phase = .complete ∧ applicable = session.summary.applicable.length ∧
        conditional = session.summary.conditional.length

theorem retold?_proceed (limits : Limits) (session : Session kb) :
    (session.proceed limits).log.retold? = session.log.retold? := by
  have hconverged := KnowledgeBase.retold?_converge limits session.board
  unfold proceed ask
  split
  · exact hconverged
  · exact (Log.retold?_concat_of_silent _ fun _ => rfl).trans hconverged

/-- Completing enters the number of goals that are reported from then on; asking enters
    nothing. -/
theorem completed_iff_proceed (hopen : session.log.EndsOpen) (applicable conditional : Nat) :
    (session.proceed limits).log.getLast? = some (.completed applicable conditional) ↔
      (session.proceed limits).phase = .complete ∧
        applicable = (session.proceed limits).summary.applicable.length ∧
        conditional = (session.proceed limits).summary.conditional.length := by
  have hconverged : (kb.converge limits session.board).log.EndsOpen :=
    KnowledgeBase.endsOpen_converge limits hopen
  unfold proceed ask
  split
  · exact iff_of_false (hconverged applicable conditional) nofun
  · refine (Eq.congr_left List.getLast?_concat).trans ?_
    rw [Option.some.injEq, Event.completed.injEq, eq_comm, @eq_comm _ _ conditional]
    exact (and_iff_right rfl).symm

theorem retold?_rewind (limits : Limits) (session : Session kb) (kept steps : Nat) (target : Fact) :
    (session.rewind limits kept steps target).log.retold? =
      session.log.retold?.bind fun history => Event.retell? history (.rolledBack target steps) := by
  have hpass := (KnowledgeBase.infersAll_convergeOnce limits.maxPropagationIterations
    (⟨session.memory.clearAfter target, .fresh kb.size, session.log⟩ : Board kb.size)).retold?_eq
  rw [rewind_eq, ← hpass]
  exact Log.retold?_concat _ _

theorem Chronicled.proceed (hretold : session.log.retold? = some session.memory.history)
    (hopen : session.log.EndsOpen) : (session.proceed limits).Chronicled := by
  refine ⟨?_, completed_iff_proceed hopen⟩
  have hhistory := congrArg Memory.history (answers_proceed limits session)
  rw [retold?_proceed, hretold]
  exact congrArg some hhistory.symm

/-- A seed or an answer is told as it is recorded. -/
theorem retold?_record_putFinding (hretold : session.log.retold? = some session.memory.history)
    {fact : Fact} {value : Truth} {event : Event}
    (hevent : ∀ history, event.retell? history = some (history ++ [(fact, value)])) :
    ((session.putFinding fact value).record event).log.retold? =
      some (session.memory.history ++ [(fact, value)]) := by
  rw [← hevent, ← Option.bind_some session.memory.history (fun history => event.retell? history),
    ← hretold]
  exact Log.retold?_concat _ _

theorem retold?_enterAnswer (hretold : session.log.retold? = some session.memory.history)
    (fact : Fact) (value : Answer) (normalizedFrom : Option String) :
    (session.enterAnswer fact value normalizedFrom).log.retold? =
      some (session.enterAnswer fact value normalizedFrom).memory.history := by
  cases normalizedFrom with
  | none => exact retold?_record_putFinding hretold fun _ => rfl
  | some token =>
    have hnoted : (session.record (.answerNormalized fact token)).log.retold? =
        some session.memory.history := (Log.retold?_concat_of_silent _ fun _ => rfl).trans hretold
    exact retold?_record_putFinding hnoted fun _ => rfl

theorem Chronicled.accepts (h : session.Chronicled) (hfaithful : session.memory.Faithful)
    (haccepts : session.Accepts limits operation next) : next.Chronicled := by
  cases haccepts with
  | seed fact value hphase =>
    refine ⟨?_, fun applicable conditional => ?_⟩
    · exact retold?_record_putFinding h.retold fun _ => rfl
    · refine iff_of_false (Log.endsOpen_concat (by nofun) applicable conditional)
        fun hcomplete => ?_
      change session.phase = _ ∧ _ at hcomplete
      rw [hphase] at hcomplete
      cases hcomplete.1
  | start =>
    exact .proceed ((Log.retold?_concat_of_silent _ fun _ => rfl).trans h.retold)
      (Log.endsOpen_concat nofun)
  | answer | answerToken =>
    rw [acceptAnswer_eq]
    exact .proceed (retold?_enterAnswer h.retold _ _ _) (Log.endsOpen_concat nofun)
  | goBack steps _ _ hlt hle =>
    refine ⟨?_, fun applicable conditional => ?_⟩
    · rw [retold?_rewind, h.retold, history_rewind hfaithful hlt steps, Option.bind_some,
        Event.retell?, if_pos ⟨hle, by rw [List.getElem?_eq_getElem hlt]; rfl⟩]
    · rw [rewind_eq]
      exact iff_of_false (Log.endsOpen_concat (by nofun) applicable conditional) nofun
  | restart => exact .proceed rfl (Log.endsOpen_concat nofun)

theorem chronicled_run (kb : KnowledgeBase) (limits : Limits) (operations : List Operation) :
    ((idle kb).run limits operations).Chronicled := by
  have hboth : ((idle kb).run limits operations).memory.Faithful ∧
      ((idle kb).run limits operations).Chronicled := by
    refine run_preserves (P := fun session => session.memory.Faithful ∧ session.Chronicled)
      operations ?_ ⟨⟨List.nodup_nil, fun _ => rfl⟩, rfl, fun _ _ => iff_of_false nofun nofun⟩
    rintro session next operation - ⟨hfaithful, hsession⟩ haccepts
    exact ⟨faithful_accepts hfaithful haccepts, hsession.accepts hfaithful haccepts⟩
  exact hboth.2

/-- The journal is a faithful account of the consultation. After any operations whatever, refused
    ones included, it tells the answers in force: what was seeded and answered, less what was taken
    back, where each going back found its fact as the first answer of those that it removed. A
    consultation is complete exactly where its last event is that it was completed. That event
    counts the goals of the result, and the result is what is shown from then on. -/
theorem journal_retells (kb : KnowledgeBase) (limits : Limits) (operations : List Operation) :
    let session := (idle kb).run limits operations
    session.log.retold? = some session.memory.history ∧
    (session.phase = .complete ↔
      ∃ applicable conditional, session.log.getLast? = some (.completed applicable conditional)) ∧
    ∀ applicable conditional, session.log.getLast? = some (.completed applicable conditional) →
      applicable = session.summary.applicable.length ∧
      conditional = session.summary.conditional.length ∧
      session.snapshot.result = some session.summary := by
  intro session
  have h : session.Chronicled := chronicled_run kb limits operations
  refine ⟨h.retold, ⟨fun hcomplete => ?_, ?_⟩, fun applicable conditional hlast => ?_⟩
  · exact ⟨_, _, (h.completed_iff _ _).mpr ⟨hcomplete, rfl, rfl⟩⟩
  · rintro ⟨applicable, conditional, hlast⟩
    exact ((h.completed_iff _ _).mp hlast).1
  · obtain ⟨hcomplete, happlicable, hconditional⟩ := (h.completed_iff _ _).mp hlast
    refine ⟨happlicable, hconditional, ?_⟩
    have hshown : session.isComplete = true := by rw [isComplete, hcomplete]; rfl
    exact if_pos hshown

theorem shared_journal_retells :
    let session := (idle shared).run {} [.seed "e" true, .start, .answer "x" .unknown, .start,
      .answer "a" .yes, .goBack 2, .answerToken "x" "perhaps", .answer "a" .no,
      .answer "c" .unknown, .answer "d" .unknown, .answer "b" .yes]
    session.log.getLast? = some (.completed 1 1) ∧
      session.log.retold? = some [("e", .holds), ("x", .unknown), ("a", .fails), ("c", .unknown),
        ("d", .unknown), ("b", .holds)] ∧
      session.summary.applicable.length = 1 ∧ session.summary.conditional.length = 1 ∧
      session.snapshot.result = some session.summary := by
  intro session
  have hlast : session.log.getLast? = some (.completed 1 1) := by decide +kernel
  have hhistory : session.memory.history = [("e", .holds), ("x", .unknown), ("a", .fails),
      ("c", .unknown), ("d", .unknown), ("b", .holds)] := by
    decide +kernel
  obtain ⟨hretold, -, hcompleted⟩ := journal_retells shared {} [.seed "e" true, .start,
    .answer "x" .unknown, .start, .answer "a" .yes, .goBack 2, .answerToken "x" "perhaps",
    .answer "a" .no, .answer "c" .unknown, .answer "d" .unknown, .answer "b" .yes]
  obtain ⟨happlicable, hconditional, hresult⟩ := hcompleted 1 1 hlast
  have hreplayed := hretold.trans (congrArg some hhistory)
  exact ⟨hlast, hreplayed, happlicable.symm, hconditional.symm, hresult⟩

end Session

end Consultation
