import Consultation.Proofs.Inference.Lockstep
import Consultation.Proofs.Session.History

namespace Consultation

namespace Session

variable {kb : KnowledgeBase} {limits : Limits} {left right session next : Session kb}

/-- Consultations that differ in their journals at most. -/
structure SameButLog (left right : Session kb) : Prop where
  memory : right.memory = left.memory
  table : right.table = left.table
  question : right.question = left.question
  phase : right.phase = left.phase

/-- Going back so many steps is accepted, and leads to the next consultation. -/
def GoesBack (limits : Limits) (session : Session kb) (steps : Nat) (next : Session kb) : Prop :=
  ∃ reply, session.perform limits (.goBack steps) = .ok (next, reply)

theorem exists_goesBack (hphase : session.phase ≠ .idle) {steps : Nat} (hpositive : 1 ≤ steps)
    (hle : steps ≤ session.memory.history.length) : ∃ next, session.GoesBack limits steps next :=
  (exists_perform_goBack_iff limits session steps).mpr ⟨hphase, hpositive, hle⟩

theorem GoesBack.accepts {steps : Nat} (h : session.GoesBack limits steps next) :
    session.Accepts limits (.goBack steps) next := by
  obtain ⟨reply, hperform⟩ := h
  exact accepts_of_perform hperform

theorem Accepts.eq_rewind {steps kept : Nat} (h : session.Accepts limits (.goBack steps) next)
    (hkept : kept + steps = session.memory.history.length) :
    ∃ hlt : kept < session.memory.history.length,
      next = session.rewind limits kept steps session.memory.history[kept].1 := by
  cases h with
  | goBack _ _ _ hlt =>
    obtain rfl : kept = session.memory.history.length - steps := by omega
    exact ⟨hlt, rfl⟩

theorem GoesBack.phase_ne_idle {steps : Nat} (h : session.GoesBack limits steps next) :
    next.phase ≠ .idle := by
  cases h.accepts with
  | goBack => nofun

section

variable (hleft : left.Reachable limits) (hright : right.Reachable limits)
  (hfaithfulLeft : left.memory.Faithful) (hfaithfulRight : right.memory.Faithful) {kept : Nat}
  (htake : right.memory.history.take kept = left.memory.history.take kept)

include hleft hright hfaithfulLeft hfaithfulRight htake

/-- What going back leads to is read off the kept answers and the fact that is
    asked again. -/
theorem Reachable.rewind_sameButLog (hkeptLeft : kept < left.memory.history.length)
    (hkeptRight : kept < right.memory.history.length)
    (hfact : right.memory.history[kept].1 = left.memory.history[kept].1)
    (leftSteps rightSteps : Nat) :
    (left.rewind limits kept leftSteps left.memory.history[kept].1).SameButLog
      (right.rewind limits kept rightSteps right.memory.history[kept].1) := by
  have hclearedLeft := (hleft.clear (List.mem_map_of_mem (List.getElem_mem hkeptLeft))).justified
  have hclearedRight := (hright.clear (List.mem_map_of_mem (List.getElem_mem hkeptRight))).justified
  rw [hfaithfulLeft.clearAfter_eq] at hclearedLeft
  rw [hfaithfulRight.clearAfter_eq, htake] at hclearedRight
  obtain ⟨-, hpass⟩ := kb.lockstep_sameButLog.convergeOnce hclearedLeft hclearedRight ⟨rfl, rfl⟩
    limits.maxPropagationIterations
  have hasked : (right.memory.history.take (kept + 1)).map (·.1) =
      (left.memory.history.take (kept + 1)).map (·.1) := by
    rw [List.take_succ_eq_append_getElem hkeptLeft, List.take_succ_eq_append_getElem hkeptRight,
      List.map_append, List.map_append, htake]
    simp only [List.map_cons, List.map_nil, hfact]
  simp only [rewind_eq, hfaithfulLeft.clearAfter_eq, hfaithfulRight.clearAfter_eq, hasked, htake]
  refine ⟨hpass.memory, ?_, congrArg some hfact, rfl⟩
  exact congrArg (fun table => List.foldl kb.markEvaluating table _) hpass.table

/-- Going back in two consultations to the same answers and the same fact leads to
    the same consultation, whatever was known beyond. -/
theorem Reachable.goesBack_sameButLog {leftSteps rightSteps : Nat} {leftBack rightBack : Session kb}
    (hleftBack : left.GoesBack limits leftSteps leftBack)
    (hrightBack : right.GoesBack limits rightSteps rightBack)
    (hleftSteps : kept + leftSteps = left.memory.history.length)
    (hrightSteps : kept + rightSteps = right.memory.history.length)
    (hfact : (right.memory.history[kept]?).map (·.1) = (left.memory.history[kept]?).map (·.1)) :
    leftBack.SameButLog rightBack := by
  obtain ⟨hkeptLeft, rfl⟩ := hleftBack.accepts.eq_rewind hleftSteps
  obtain ⟨hkeptRight, rfl⟩ := hrightBack.accepts.eq_rewind hrightSteps
  rw [List.getElem?_eq_getElem hkeptLeft, List.getElem?_eq_getElem hkeptRight] at hfact
  exact hleft.rewind_sameButLog hright hfaithfulLeft hfaithfulRight htake hkeptLeft hkeptRight
    (Option.some.inj hfact) leftSteps rightSteps

end

/-- Going back in two goes leads where going back at once does. -/
theorem Reachable.goesBack_add (h : session.Reachable limits) (hfaithful : session.memory.Faithful)
    {first second : Nat} {between twice once : Session kb}
    (hfirst : session.GoesBack limits first between)
    (hsecond : between.GoesBack limits second twice)
    (honce : session.GoesBack limits (first + second) once) : twice.SameButLog once := by
  obtain ⟨hfirstPositive, -, hbetween, -⟩ := hfirst.accepts.takesBack hfaithful
  have hbetweenFaithful : between.memory.Faithful := faithful_accepts hfaithful hfirst.accepts
  obtain ⟨hsecondPositive, -, -, -⟩ := hsecond.accepts.takesBack hbetweenFaithful
  obtain ⟨-, hle, -, -⟩ := honce.accepts.takesBack hfaithful
  have hlength : between.memory.history.length = session.memory.history.length - first := by
    rw [hbetween, List.length_take]
    omega
  -- The consultation in between and the first one keep the same answers.
  obtain ⟨kept, hkept⟩ := Nat.exists_eq_add_of_le' hle
  refine (h.accepts hfirst.accepts).goesBack_sameButLog h hbetweenFaithful hfaithful ?_ hsecond
    honce (by omega) hkept.symm ?_
  · rw [hbetween, List.take_take, Nat.min_eq_left (by omega)]
  · rw [hbetween, List.getElem?_take_of_lt (by omega)]

/-- Going back depends on the kept answers and the fact that is asked again, and on
    nothing else that was answered, derived, cut short or taken back before. So
    going back in two goes leads where going back at once does, but for the
    journal. -/
theorem goBack_forgets (limits : Limits) (operations others : List Operation) :
    let left := (idle kb).run limits operations
    let right := (idle kb).run limits others
    (left.phase ≠ .idle → right.phase ≠ .idle → ∀ kept fact,
      right.memory.history.take kept = left.memory.history.take kept →
      (left.memory.history[kept]?).map (·.1) = some fact →
      (right.memory.history[kept]?).map (·.1) = some fact →
      ∃ leftBack rightBack,
        left.GoesBack limits (left.memory.history.length - kept) leftBack ∧
        right.GoesBack limits (right.memory.history.length - kept) rightBack ∧
        leftBack.memory.history = left.memory.history.take kept ∧
        leftBack.SameButLog rightBack) ∧
    (left.phase ≠ .idle → ∀ first second, 1 ≤ first → 1 ≤ second →
      first + second ≤ left.memory.history.length →
      ∃ between twice once,
        left.GoesBack limits first between ∧ between.GoesBack limits second twice ∧
        left.GoesBack limits (first + second) once ∧ twice.SameButLog once) := by
  intro left right
  have hleft : left.Reachable limits := reachable_run kb limits operations
  have hright : right.Reachable limits := reachable_run kb limits others
  have hfaithfulLeft : left.memory.Faithful := faithful_run kb limits operations
  have hfaithfulRight : right.memory.Faithful := faithful_run kb limits others
  constructor
  · intro hphaseLeft hphaseRight kept fact htake hfactLeft hfactRight
    have hkeptLeft : kept < left.memory.history.length := by
      obtain ⟨entry, hentry, -⟩ := Option.map_eq_some_iff.mp hfactLeft
      exact (List.getElem?_eq_some_iff.mp hentry).1
    have hkeptRight : kept < right.memory.history.length := by
      obtain ⟨entry, hentry, -⟩ := Option.map_eq_some_iff.mp hfactRight
      exact (List.getElem?_eq_some_iff.mp hentry).1
    obtain ⟨leftBack, hleftBack⟩ : ∃ next,
        left.GoesBack limits (left.memory.history.length - kept) next :=
      exists_goesBack hphaseLeft (by omega) (by omega)
    obtain ⟨rightBack, hrightBack⟩ : ∃ next,
        right.GoesBack limits (right.memory.history.length - kept) next :=
      exists_goesBack hphaseRight (by omega) (by omega)
    refine ⟨leftBack, rightBack, hleftBack, hrightBack, ?_, ?_⟩
    · rw [(hleftBack.accepts.takesBack hfaithfulLeft).history_eq, Nat.sub_sub_self hkeptLeft.le]
    · exact hleft.goesBack_sameButLog hright hfaithfulLeft hfaithfulRight htake hleftBack hrightBack
        (by omega) (by omega) (hfactRight.trans hfactLeft.symm)
  · intro hphase first second hfirst hsecond hle
    obtain ⟨between, hbetween⟩ : ∃ next, left.GoesBack limits first next :=
      exists_goesBack hphase hfirst (by omega)
    have htakes := hbetween.accepts.takesBack hfaithfulLeft
    have hlength : second ≤ between.memory.history.length := by
      rw [htakes.history_eq, List.length_take]
      omega
    obtain ⟨twice, htwice⟩ : ∃ next, between.GoesBack limits second next :=
      exists_goesBack hbetween.phase_ne_idle hsecond hlength
    obtain ⟨once, honce⟩ : ∃ next, left.GoesBack limits (first + second) next :=
      exists_goesBack hphase (by omega) hle
    exact ⟨between, twice, once, hbetween, htwice, honce,
      hleft.goesBack_add hfaithfulLeft hbetween htwice honce⟩

theorem shared_goBack_forgets :
    let left := (idle shared).run {} [.start, .answer "x" .unknown, .answer "a" .no,
      .answer "c" .unknown]
    let right := (idle shared).run {} [.start, .answer "d" .yes, .goBack 1, .answer "x" .unknown,
      .answer "a" .yes, .answer "b" .yes, .answer "e" .no]
    (∃ leftBack rightBack, left.GoesBack {} 2 leftBack ∧ right.GoesBack {} 3 rightBack ∧
      leftBack.memory.history = [("x", .unknown)] ∧ leftBack.SameButLog rightBack) ∧
    ∃ between twice once, left.GoesBack {} 1 between ∧ between.GoesBack {} 2 twice ∧
      left.GoesBack {} 3 once ∧ twice.SameButLog once := by
  intro left right
  have hhistoryLeft : left.memory.history =
      [("x", .unknown), ("a", .fails), ("c", .unknown)] := by
    decide +kernel
  have hhistoryRight : right.memory.history =
      [("x", .unknown), ("a", .holds), ("b", .holds), ("e", .fails)] := by
    decide +kernel
  have hphaseLeft : left.phase ≠ .idle := by decide +kernel
  have hphaseRight : right.phase ≠ .idle := by decide +kernel
  obtain ⟨hforgets, hadds⟩ := @goBack_forgets shared {}
    [.start, .answer "x" .unknown, .answer "a" .no, .answer "c" .unknown]
    [.start, .answer "d" .yes, .goBack 1, .answer "x" .unknown, .answer "a" .yes, .answer "b" .yes,
      .answer "e" .no]
  change left.phase ≠ .idle → right.phase ≠ .idle → _ at hforgets
  change left.phase ≠ .idle → _ at hadds
  constructor
  · have hback := hforgets hphaseLeft hphaseRight 1 "a"
    rw [hhistoryLeft, hhistoryRight] at hback
    exact hback rfl rfl rfl
  · exact hadds hphaseLeft 1 2 (by decide) (by decide) (by rw [hhistoryLeft]; decide)

end Session

end Consultation
