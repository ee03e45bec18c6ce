import Consultation.Proofs.Inference.Agreement
import Consultation.Proofs.Session.Answers
import Consultation.Proofs.Session.Soundness

namespace Consultation

namespace Operation

/-- An operation seeds and answers base facts only: facts that no rule
    concludes. -/
def OnBase (kb : KnowledgeBase) : Operation → Prop
  | .seed fact _ | .answer fact _ | .answerToken fact _ => kb.isDerived fact = false
  | .start | .goBack _ | .restart => True

end Operation

namespace Session

variable {kb : KnowledgeBase} {limits : Limits} {session next : Session kb} {operation : Operation}

/-- Inference has come to rest whenever an operation that asks anew was
    accepted. -/
theorem Reachable.settled (h : session.Reachable limits) (hlimits : limits.Ample kb)
    (haccepts : session.Accepts limits operation next) (hproceeds : operation.Proceeds) :
    kb.Settled next.board := by
  obtain ⟨entered, hentered⟩ := exists_entered session hproceeds
  rw [haccepts.eq_proceed hentered]
  exact Reachable.settled_proceed (h.entered haccepts hentered) hlimits

/-- Only base facts have been answered. -/
def AnsweredOnBase (session : Session kb) : Prop :=
  ∀ fact value, session.memory.finding fact = some value → kb.isDerived fact = false

theorem AnsweredOnBase.of_answers (h : session.AnsweredOnBase)
    (hanswers : next.memory.answers = session.memory.answers) : next.AnsweredOnBase :=
  fun fact value hvalue =>
    h fact value ((Memory.finding_eq_of_answers_eq hanswers fact).symm.trans hvalue)

theorem AnsweredOnBase.putFinding (h : session.AnsweredOnBase) {fact : Fact} (value : Truth)
    (hbase : kb.isDerived fact = false)
    (hanswers : next.memory.answers = session.memory.answers.putFinding fact value) :
    next.AnsweredOnBase := by
  intro query answered hvalue
  rw [← Memory.finding_answers, hanswers, Memory.finding_putFinding] at hvalue
  split at hvalue
  · next heq => exact heq ▸ hbase
  · exact h query answered hvalue

theorem AnsweredOnBase.accepts (h : session.AnsweredOnBase)
    (haccepts : session.Accepts limits operation next) (hbase : operation.OnBase kb) :
    next.AnsweredOnBase := by
  cases haccepts with
  | seed fact value => exact h.putFinding (.ofBool value) hbase rfl
  | start => exact h.of_answers (answers_begin limits session)
  | answer fact value => exact h.putFinding _ hbase (answers_acceptAnswer limits session _ _ _)
  | answerToken fact token => exact h.putFinding _ hbase (answers_acceptAnswer limits session _ _ _)
  | restart =>
    have hidle : (idle kb).AnsweredOnBase := fun fact value hvalue => by cases hvalue
    exact hidle.of_answers (answers_begin limits (idle kb))
  | goBack steps _ _ hlt =>
    intro fact value hvalue
    have hmem : (session.memory.history[session.memory.history.length - steps]).1 ∈
        session.memory.history.map (·.1) := List.mem_map_of_mem (List.getElem_mem hlt)
    rw [← Memory.finding_answers, answers_rewind, Memory.finding_answers,
      (Memory.clearAfter_of_mem hmem).2.2] at hvalue
    split at hvalue
    · cases hvalue
    · exact h fact value hvalue

/-- A consultation right after a start, a restart or an answer was accepted,
    when only base facts were ever seeded or answered. -/
def ReachedOnBase (limits : Limits) (session : Session kb) : Prop :=
  ∃ (operations : List Operation) (last : Operation) (reply : Reply),
    (∀ operation ∈ operations, operation.OnBase kb) ∧ last.OnBase kb ∧ last.Proceeds ∧
      ((idle kb).run limits operations).perform limits last = .ok (session, reply)

theorem ReachedOnBase.settled (h : session.ReachedOnBase limits) (hlimits : limits.Ample kb) :
    session.Reachable limits ∧ kb.Settled session.board ∧ session.AnsweredOnBase := by
  obtain ⟨operations, last, reply, hoperations, hlast, hproceeds, hperform⟩ := h
  have haccepts := accepts_of_perform hperform
  have hreachable := reachable_run kb limits operations
  have hbefore : ((idle kb).run limits operations).AnsweredOnBase := by
    refine run_preserves operations ?_ ?_
    · exact fun session next operation hmem h haccepts =>
        h.accepts haccepts (hoperations operation hmem)
    · intro fact value hvalue
      cases hvalue
  exact ⟨hreachable.accepts haccepts, hreachable.settled hlimits haccepts hproceeds,
    hbefore.accepts haccepts hlast⟩

/-- Answers to base facts alone decide everything that is concluded. Right after
    a start, a restart or an answer, exactly the rules have fired whose body
    follows from the facts answered yes; and two consultations that end with the
    same answers decide every rule alike and derive the same values, in whatever
    order they got them, seeded or answered, and whatever was taken back on the
    way. -/
theorem base_answers_decide (hlimits : limits.Ample kb) (h : session.ReachedOnBase limits) :
    (∀ id, session.table.status id = .fired ↔
      kb.DerivableBody session.memory.AnsweredYes id) ∧
    ∀ {limits' : Limits} {other : Session kb}, limits'.Ample kb → other.ReachedOnBase limits' →
      session.memory.findings = other.memory.findings →
      (∀ id, (session.table.status id).unmarked = (other.table.status id).unmarked) ∧
        session.memory.hypotheses = other.memory.hypotheses := by
  obtain ⟨hreachable, hsettled, hbase⟩ := h.settled hlimits
  obtain ⟨hundisputed, hirredundant⟩ := hreachable.justified.undisputed_of_base hbase
  constructor
  · intro id
    constructor
    · exact hreachable.sound.fired id
    · exact (hreachable.stable hsettled hundisputed).fired_of_derivableBody
  · intro limits' other hlimits' hother hfindings
    obtain ⟨hreachable', hsettled', hbase'⟩ := hother.settled hlimits'
    obtain ⟨-, hirredundant'⟩ := hreachable'.justified.undisputed_of_base hbase'
    have hfinding (fact : Fact) : session.memory.finding fact = other.memory.finding fact := by
      rw [Memory.finding, hfindings]
      rfl
    obtain ⟨hstable, hstable', hunmarked⟩ :=
      KnowledgeBase.Reachable.agree hreachable hreachable' hsettled hsettled' hundisputed hfinding
    refine ⟨hunmarked, FactMap.eq_of_get? fun fact => ?_⟩
    exact hstable.hypothesis_eq hstable' hirredundant hirredundant' hunmarked hfinding fact

theorem looped_base_answers_decide :
    let seeded := (idle looped).run {} [.seed "b" true, .start, .answer "a" .yes]
    let answered := (idle looped).run {}
      [.start, .answer "a" .no, .goBack 1, .answer "b" .yes, .answer "a" .yes]
    seeded.memory.hypotheses = answered.memory.hypotheses ∧
      ∀ id, (seeded.table.status id = .fired ↔
          looped.DerivableBody seeded.memory.AnsweredYes id) ∧
        (seeded.table.status id).unmarked = (answered.table.status id).unmarked := by
  intro seeded answered
  have hlimits : Limits.Ample {} looped := ⟨by decide, by decide⟩
  have hseeded : seeded.ReachedOnBase {} :=
    ⟨[.seed "b" true, .start], .answer "a" .yes, .answered (seeded.answerOutcome none),
      by simp [Operation.OnBase]; decide, by simp [Operation.OnBase]; decide, trivial, rfl⟩
  have hanswered : answered.ReachedOnBase {} :=
    ⟨[.start, .answer "a" .no, .goBack 1, .answer "b" .yes], .answer "a" .yes,
      .answered (answered.answerOutcome none),
      by simp [Operation.OnBase]; decide, by simp [Operation.OnBase]; decide, trivial, rfl⟩
  have hfindings : seeded.memory.findings = answered.memory.findings := rfl
  obtain ⟨hfired, hagree⟩ := base_answers_decide hlimits hseeded
  obtain ⟨hunmarked, hhypotheses⟩ := hagree hlimits hanswered hfindings
  exact ⟨hhypotheses, fun id => ⟨hfired id, hunmarked id⟩⟩

end Session

end Consultation
