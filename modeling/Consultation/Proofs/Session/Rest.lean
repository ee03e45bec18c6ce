import Consultation.Proofs.Session.Display
import Consultation.Proofs.Session.Progress

namespace Consultation

namespace Log

/-- An event that was entered after others is among those entered since. -/
theorem mem_drop_of_entered {kept inferred final : Log} {event : Event} (hkept : kept <+: inferred)
    (hentered : inferred ++ [event] <+: final) : event ∈ final.drop kept.length := by
  obtain ⟨since, rfl⟩ := hkept
  obtain ⟨later, rfl⟩ := hentered
  rw [List.append_assoc, List.append_assoc, List.drop_left]
  simp

end Log

namespace KnowledgeBase

variable {kb : KnowledgeBase} {board : Board kb.size} {limits : Limits}

/-- A convergence that comes to rest settles the board, with its notes up to
    date. -/
theorem Reachable.rest_of_settled (h : kb.Reachable limits.maxPropagationIterations board)
    (hiterations : 0 < limits.maxPropagationIterations)
    (hsettled : (kb.convergeWithin limits.maxPropagationIterations limits.maxEvaluationPasses
      board).2.settled = true) :
    kb.Settled (kb.converge limits board) ∧ kb.Noted (kb.converge limits board) := by
  rcases h.converge_cases.2.2 with ⟨-, -, hfixed⟩ | ⟨hcapped, -⟩
  · have hnoted := h.converge.justified.noted_convergeOnce limits.maxPropagationIterations
    rw [hfixed] at hnoted
    exact ⟨h.converge.justified.settled_of_convergeOnce_eq hiterations hfixed, hnoted⟩
  · rw [hsettled] at hcapped
    cases hcapped

end KnowledgeBase

namespace Session

variable {kb : KnowledgeBase} {limits : Limits} {session next entered : Session kb}
  {operation : Operation}

/-- The journal to which an operation adds. Starting afresh discards what was
    entered before. -/
def keptLog (session : Session kb) (operation : Operation) : Log :=
  if operation = .restart then [] else session.log

/-- The events that an operation enters in the journal. -/
def entries (session : Session kb) (operation : Operation) (next : Session kb) : Log :=
  next.log.drop (session.keptLog operation).length

theorem Accepts.keptLog_entered (h : session.Accepts limits operation next)
    (hentered : session.entered operation = some entered) :
    session.keptLog operation <+: entered.log := by
  unfold keptLog
  split
  · exact List.nil_prefix
  · next hkeeps => exact (h.advances_entered hentered hkeeps).log

theorem log_proceed (limits : Limits) (session : Session kb) :
    (kb.converge limits session.board).log <+: (session.proceed limits).log :=
  proceed_preserves (P := fun board => (kb.converge limits session.board).log <+: board.log)
    (fun _ _ => id) (fun _ _ hkept => hkept.trans (List.prefix_append _ _)) List.prefix_rfl

/-- What an operation hands over to inference comes to rest, unless the operation
    enters the event of the cap. -/
theorem Reachable.settled_of_uncapped (h : session.Reachable limits)
    (haccepts : session.Accepts limits operation next)
    (hentered : session.entered operation = some entered)
    (huncapped : .capReached limits.maxEvaluationPasses ∉ session.entries operation next) :
    (kb.convergeWithin limits.maxPropagationIterations limits.maxEvaluationPasses
      entered.board).2.settled = true := by
  by_contra hnot
  have hadvances := (h.entered haccepts hentered).justified.advances_steps
    (KnowledgeBase.infersAll_convergeWithin limits.maxPropagationIterations
      limits.maxEvaluationPasses entered.board)
  have hkept := (haccepts.keptLog_entered hentered).trans hadvances.log
  obtain rfl := haccepts.eq_proceed hentered
  refine huncapped (Log.mem_drop_of_entered hkept ?_)
  have hlog := log_proceed limits entered
  rwa [KnowledgeBase.converge_of_not_settled (by simpa using hnot)] at hlog

/-- An operation that asks anew comes to rest with its notes up to date, unless it
    enters the event of the cap. -/
theorem Reachable.rest_of_proceeds (h : session.Reachable limits)
    (hiterations : 0 < limits.maxPropagationIterations)
    (haccepts : session.Accepts limits operation next) (hproceeds : operation.Proceeds)
    (huncapped : .capReached limits.maxEvaluationPasses ∉ session.entries operation next) :
    kb.Settled next.board ∧ kb.Noted next.board := by
  obtain ⟨entered, hentered⟩ := exists_entered session hproceeds
  have hreachable : entered.Reachable limits := h.entered haccepts hentered
  have hsettled := h.settled_of_uncapped haccepts hentered huncapped
  obtain rfl := haccepts.eq_proceed hentered
  exact proceed_preserves (P := fun board => kb.Settled board ∧ kb.Noted board)
    (fun _ fact h => ⟨h.1.mark fact, h.2.mark fact⟩)
    (fun _ event h => ⟨h.1.note event, h.2.note event⟩)
    (KnowledgeBase.Reachable.rest_of_settled hreachable hiterations hsettled)

/-- What a consultation stops at is a real point of rest, over any rules and
    whatever was done before. After every operation that asked anew without meeting
    the cap of passes, evaluating all rules once more changes no status and no note,
    and a propagation from there infers nothing, however many rounds it may take:
    all that is known, the states of the rules and the journal stay as they are. -/
theorem asking_stops_at_rest (hiterations : 1 ≤ limits.maxPropagationIterations)
    (operations : List Operation) :
    let session := (idle kb).run limits operations
    ∀ operation next reply, operation.Proceeds →
      session.perform limits operation = .ok (next, reply) →
      (∀ passes, .capReached passes ∉ session.entries operation next) →
      kb.evaluateAll next.memory next.table = (next.table, 0) ∧
      ∀ cap, 1 ≤ cap →
        kb.propagate cap (kb.evaluated next.board) = (next.board, ⟨1, false, true⟩) := by
  intro session operation next reply hproceeds hperform huncapped
  have hreachable : session.Reachable limits := reachable_run kb limits operations
  have haccepts := accepts_of_perform hperform
  obtain ⟨hsettled, hnoted⟩ :=
    hreachable.rest_of_proceeds hiterations haccepts hproceeds (huncapped _)
  have hevaluateAll : kb.evaluateAll next.memory next.table = (next.table, 0) :=
    hsettled.evaluateAll_eq hnoted
  have hevaluated : kb.evaluated next.board = next.board := by
    change ({ next.board with table := (kb.evaluateAll next.memory next.table).1 } :
      Board kb.size) = next.board
    rw [hevaluateAll]
    rfl
  refine ⟨hevaluateAll, fun cap hcap => ?_⟩
  rw [hevaluated]
  exact (hreachable.accepts haccepts).justified.propagate_eq_of_quiet hsettled.quiet hcap

theorem reproved_stops_at_rest :
    let session := (idle reproved).run {} [.start, .answer "x" .unknown, .answer "a" .unknown]
    let next := session.acceptAnswer {} "b" .yes none
    next.memory.hypothesis "x" = some .holds ∧
      reproved.evaluateAll next.memory next.table = (next.table, 0) ∧
      ∀ cap, 1 ≤ cap →
        reproved.propagate cap (reproved.evaluated next.board) =
          (next.board, ⟨1, false, true⟩) := by
  intro session next
  have hperform : session.perform {} (.answer "b" .yes) =
      .ok (next, .answered (next.answerOutcome none)) :=
    perform_answer .yes (by decide +kernel) (by decide +kernel) (by decide +kernel)
  have hentries : session.entries (.answer "b" .yes) next =
      [.answered "b" .holds, .derived "a" "a", .derived "x" "x", .derived "h" "h",
        .completed 1 0] := by
    decide +kernel
  have huncapped : ∀ passes, .capReached passes ∉ session.entries (.answer "b" .yes) next := by
    rw [hentries]
    simp
  have hrest := @asking_stops_at_rest reproved {} (by decide)
    [.start, .answer "x" .unknown, .answer "a" .unknown] (.answer "b" .yes) next _ trivial hperform
    huncapped
  exact ⟨by decide +kernel, hrest⟩

end Session

end Consultation
