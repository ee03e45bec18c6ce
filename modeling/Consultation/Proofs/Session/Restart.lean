import Consultation.Proofs.Session.Caps
import Consultation.Proofs.Session.Procedure

namespace Consultation

namespace Session

variable {kb : KnowledgeBase}

theorem perform_restart (limits : Limits) (session : Session kb) :
    session.perform limits .restart =
      .ok ((idle kb).begin limits, .asked ((idle kb).begin limits).question) :=
  perform_eq_ok_iff.mpr ⟨.restart, rfl⟩

theorem perform_start_idle (kb : KnowledgeBase) (limits : Limits) :
    (idle kb).perform limits .start =
      .ok ((idle kb).begin limits, .asked ((idle kb).begin limits).question) :=
  perform_eq_ok_iff.mpr ⟨.start rfl, rfl⟩

/-- Nothing was entered in the journal of a consultation that was not started, and
    nothing that was is kept by one that starts afresh. -/
theorem call_restart (limits : Limits) (session : Session kb) :
    session.call limits .restart = (idle kb).call limits .start := by
  have hstep : session.step limits .restart = (idle kb).step limits .start := by
    simp only [step, perform_restart, perform_start_idle]
  rw [call, call, hstep]
  rfl

/-- Starting afresh is a new consultation. After any operations whatever, refused ones
    and capped inference included, it clears one part after the other and then goes
    the way of every start. That leaves the same consultation, to its notes and its
    journal, and tells the same, as starting one in which nothing has happened; so
    whatever is done next is the same on both, call by call. -/
theorem restart_afresh (kb : KnowledgeBase) (limits : Limits) (operations : List Operation) :
    let session := (idle kb).run limits operations
    (∃ next question,
      (Procedure.restart limits).run session = .ok question next ∧
      (Procedure.start limits).run (idle kb) = .ok question next ∧
      session.perform limits .restart = .ok (next, .asked question) ∧
      (idle kb).perform limits .start = .ok (next, .asked question)) ∧
    ∀ later,
      session.calls limits (.restart :: later) = (idle kb).calls limits (.start :: later) := by
  intro session
  have hstart : (Procedure.start limits).run (idle kb) =
      .ok ((idle kb).begin limits).question ((idle kb).begin limits) := by
    rw [Procedure.run_start, start_eq_ok_iff.mpr ⟨rfl, rfl⟩]
    rfl
  refine ⟨⟨(idle kb).begin limits, ((idle kb).begin limits).question,
    Procedure.run_restart limits session, hstart, perform_restart limits session,
    perform_start_idle kb limits⟩, fun later => ?_⟩
  rw [calls, calls, call_restart]

end Session

end Consultation
