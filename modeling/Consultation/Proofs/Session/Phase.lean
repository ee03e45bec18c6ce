import Consultation.Proofs.Session.History
import Consultation.Proofs.Session.Soundness

namespace Consultation

namespace KnowledgeBase

variable {kb : KnowledgeBase}

/-- Every fact that was asked shows in the rules that have it as a condition, also
    where others were asked before and after it. -/
theorem status_foldl_markEvaluating_ne_pending (table : RuleTable kb.size) {facts : List Fact}
    {fact : Fact} (hfact : fact ∈ facts) {id : kb.Id} (hmem : fact ∈ (kb.rule id).conditions) :
    (facts.foldl kb.markEvaluating table).status id ≠ .pending := by
  rw [status_foldl_markEvaluating]
  split
  · nofun
  · next hnot => exact fun hpending => hnot ⟨⟨fact, hfact, hmem⟩, hpending⟩

end KnowledgeBase

namespace Session

variable {kb : KnowledgeBase} {limits : Limits} {session next : Session kb} {operation : Operation}
  {fact : Fact}

/-- No rule that has the fact as a condition stands as if nothing of it had been
    asked. -/
def Shows (session : Session kb) (fact : Fact) : Prop :=
  ∀ id, fact ∈ (kb.rule id).conditions → session.table.status id ≠ .pending

/-- The phase tells whether a fact is in question, and every rule shows it. Between
    operations nothing is in progress. -/
structure Poised (session : Session kb) : Prop where
  at_rest : session.phase ≠ .processing
  awaiting_iff : session.phase = .awaitingAnswer ↔ ∃ fact, session.question = some fact
  shows : ∀ fact, session.question = some fact → session.Shows fact

theorem poised_idle (kb : KnowledgeBase) : (idle kb).Poised := ⟨nofun, ⟨nofun, nofun⟩, nofun⟩

/-- What is asked next is shown as asked, wherever inference stopped. -/
theorem shows_proceed (hquestion : (session.proceed limits).question = some fact) :
    (session.proceed limits).Shows fact := by
  intro id hmem
  unfold proceed ask at hquestion ⊢
  split at hquestion
  · obtain rfl := Option.some.inj hquestion
    exact KnowledgeBase.status_markEvaluating_ne_pending _ hmem
  · cases hquestion

theorem poised_proceed (limits : Limits) (session : Session kb) :
    (session.proceed limits).Poised := by
  have hphase := phase_proceed limits session
  refine ⟨?_, ?_, fun fact => shows_proceed⟩
  · rw [hphase]
    split <;> nofun
  · rw [hphase, ← Option.isSome_iff_exists]
    split
    · next hsome => exact iff_of_true rfl hsome
    · next hnone => exact iff_of_false nofun hnone

/-- Going back asks the target without looking for a question. It is among the facts
    that are shown as asked again. -/
theorem poised_rewind {kept : Nat} (hkept : kept < session.memory.history.length) (steps : Nat) :
    (session.rewind limits kept steps session.memory.history[kept].1).Poised := by
  refine ⟨nofun, ⟨fun _ => ⟨_, rfl⟩, fun _ => rfl⟩, fun fact hquestion id hmem => ?_⟩
  obtain rfl := Option.some.inj hquestion
  rw [rewind_eq]
  refine KnowledgeBase.status_foldl_markEvaluating_ne_pending _ (List.mem_map_of_mem ?_) hmem
  rw [List.take_succ_eq_append_getElem hkept]
  exact List.mem_append_right _ List.mem_cons_self

theorem Poised.accepts (h : session.Poised) (haccepts : session.Accepts limits operation next) :
    next.Poised := by
  have hproceed : ∀ entered, session.entered operation = some entered → next.Poised := by
    intro entered hentered
    rw [haccepts.eq_proceed hentered]
    exact poised_proceed limits entered
  cases haccepts with
  | seed => exact ⟨h.at_rest, h.awaiting_iff, h.shows⟩
  | goBack steps _ _ hlt => exact poised_rewind hlt steps
  | start | answer | answerToken | restart => exact hproceed _ rfl

theorem poised_run (kb : KnowledgeBase) (limits : Limits) (operations : List Operation) :
    ((idle kb).run limits operations).Poised :=
  run_preserves operations (fun _ _ _ _ h haccepts => h.accepts haccepts) (poised_idle kb)

/-- The phase and the question always agree, and what is asked can be answered. After
    any operations whatever, refused ones included, and wherever the limits stopped
    inference, a consultation awaits an answer exactly when a fact is in question.
    That fact is a condition, was not answered yet, and no rule with it as a condition
    is still pending, so every value and every token is accepted as its answer. -/
theorem question_answerable (kb : KnowledgeBase) (limits : Limits) (operations : List Operation) :
    let session := (idle kb).run limits operations
    session.phase ≠ .processing ∧
    (session.phase = .awaitingAnswer ↔ ∃ fact, session.question = some fact) ∧
    (session.phase = .idle ∨ session.phase = .complete → session.question = none) ∧
    ∀ fact, session.question = some fact →
      (∃ id, fact ∈ (kb.rule id).conditions) ∧ session.memory.finding fact = none ∧
      (∀ id, fact ∈ (kb.rule id).conditions → session.table.status id ≠ .pending) ∧
      (∀ value, ∃ next outcome, session.answer limits fact value = .ok (next, outcome)) ∧
      ∀ token, ∃ next outcome, session.answerToken limits fact token = .ok (next, outcome) := by
  intro session
  have hpoised : session.Poised := poised_run kb limits operations
  have horderly : session.Orderly := orderly_run kb limits operations
  refine ⟨hpoised.at_rest, hpoised.awaiting_iff, fun hphase => ?_, fun fact hquestion => ?_⟩
  · by_contra hsome
    have hawaiting := hpoised.awaiting_iff.mpr (Option.ne_none_iff_exists'.mp hsome)
    rcases hphase with hphase | hphase <;> (rw [hphase] at hawaiting; cases hawaiting)
  · obtain ⟨hphase, hcondition, hnew⟩ := horderly.answerable fact hquestion
    refine ⟨KnowledgeBase.isCondition_iff.mp hcondition, hnew, hpoised.shows fact hquestion,
      fun value => ?_, fun token => ?_⟩
    · exact ⟨_, _, answer_eq_ok_iff.mpr ⟨⟨hphase, hcondition, hnew⟩, rfl, rfl⟩⟩
    · exact ⟨_, _, applyAnswer_eq_ok_iff.mpr ⟨⟨hphase, hcondition, hnew⟩, rfl, rfl⟩⟩

theorem looped_question_answerable :
    let session := (idle looped).run ⟨1, 1, 1⟩ [.seed "b" true, .start, .seed "a" true,
      .answer "p" .unknown, .goBack 2, .goBack 7]
    session.question = some "b" ∧ session.phase = .awaitingAnswer ∧
      session.table.status (0 : Fin 4) ≠ .pending ∧
      ∃ next outcome, session.answerToken ⟨1, 1, 1⟩ "b" "perhaps" = .ok (next, outcome) := by
  intro session
  have hquestion : session.question = some "b" := by decide +kernel
  obtain ⟨-, hawaiting, -, hanswerable⟩ := question_answerable looped ⟨1, 1, 1⟩
    [.seed "b" true, .start, .seed "a" true, .answer "p" .unknown, .goBack 2, .goBack 7]
  obtain ⟨-, -, hshown, -, htoken⟩ := hanswerable "b" hquestion
  exact ⟨hquestion, hawaiting.mpr ⟨"b", hquestion⟩, hshown (0 : Fin 4) (by decide),
    htoken "perhaps"⟩

end Session

end Consultation
