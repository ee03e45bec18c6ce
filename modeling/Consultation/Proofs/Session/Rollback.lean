import Consultation.Knowledge.Integrity
import Consultation.Proofs.Session.Retrace

namespace Consultation

namespace Session

variable {kb : KnowledgeBase} {limits : Limits} {session next original rewound : Session kb}
  {given kept lost : List (Fact × Answer)} {fact : Fact} {value : Answer}

/-- Gives answers one after the other, up to the first that is refused. -/
def answerAll (limits : Limits) :
    List (Fact × Answer) → Session kb → Except SessionError (Session kb)
  | [], session => .ok session
  | (fact, value) :: rest, session => do
    let (next, _) ← session.answer limits fact value
    answerAll limits rest next

theorem answerAll_append {first second : List (Fact × Answer)}
    (h : answerAll limits first session = .ok next) :
    answerAll limits (first ++ second) session = answerAll limits second next := by
  induction first generalizing session with
  | nil =>
    cases h
    rfl
  | cons entry rest ih =>
    obtain ⟨⟨after, outcome⟩, hanswer, hrest⟩ := bind_eq_ok_iff.mp h
    rw [List.cons_append, answerAll, hanswer]
    exact ih hrest

/-- Answers that are all accepted can as well be given by operations. -/
theorem run_of_answerAll {answers : List (Fact × Answer)}
    (h : answerAll limits answers session = .ok next) :
    session.run limits (answers.map fun entry => .answer entry.1 entry.2) = next := by
  induction answers generalizing session with
  | nil => exact Except.ok.inj h
  | cons entry rest ih =>
    obtain ⟨⟨after, outcome⟩, hanswer, hrest⟩ := bind_eq_ok_iff.mp h
    have hstep : (session.step limits (.answer entry.1 entry.2)).1 = after := by
      simp only [step, perform, hanswer]
      rfl
    rw [List.map_cons, run, List.foldl_cons, hstep]
    exact ih hrest

namespace Dialogue

/-- The last answer was given to the question before. -/
theorem exists_answered (h : session.Dialogue limits (given ++ [(fact, value)])) :
    ∃ before : Session kb, before.Dialogue limits given ∧ before.question = some fact ∧
      session = before.acceptAnswer limits fact value none := by
  generalize hall : given ++ [(fact, value)] = answers at h
  cases h with
  | start => simp at hall
  | @answer _ before _ asked answered _ hbefore hquestion hanswer =>
    obtain ⟨rfl, hlast⟩ := List.append_inj' hall rfl
    cases hlast
    obtain ⟨-, hnext, -⟩ := answer_eq_ok_iff.mp hanswer
    exact ⟨before, hbefore, hquestion, hnext⟩

theorem eq_begin (h : session.Dialogue limits []) : session = (idle kb).begin limits := by
  generalize hall : ([] : List (Fact × Answer)) = answers at h
  cases h with
  | start h => exact start_idle_eq_ok_iff.mp h
  | answer => simp at hall

theorem exists_prefix (h : session.Dialogue limits (kept ++ lost)) :
    ∃ before : Session kb, before.Dialogue limits kept := by
  induction lost using List.reverseRecOn generalizing session with
  | nil => exact ⟨session, by simpa using h⟩
  | append_singleton rest last ih =>
    rw [← List.append_assoc] at h
    obtain ⟨before, hbefore, -⟩ := h.exists_answered
    exact ih hbefore

/-- The answers determine a dialogue. -/
theorem unique (h : session.Dialogue limits given) (hnext : next.Dialogue limits given) :
    session = next := by
  induction given using List.reverseRecOn generalizing session next with
  | nil => rw [h.eq_begin, hnext.eq_begin]
  | append_singleton rest last ih =>
    obtain ⟨before, hbefore, -, rfl⟩ := h.exists_answered
    obtain ⟨before', hbefore', -, rfl⟩ := hnext.exists_answered
    rw [ih hbefore hbefore']

end Dialogue

/-- Going back as many steps as there are answers from some point on is accepted
    and leads to that point. -/
theorem Dialogue.goBack_eq (h : session.Dialogue limits (kept ++ (fact, value) :: lost))
    {steps : Nat} (hpositive : 0 < steps) (hsteps : ((fact, value) :: lost).length = steps) :
    session.goBack limits steps = .ok (session.rewind limits kept.length steps fact,
      (session.rewind limits kept.length steps fact).rollbackOutcome) := by
  have hphase : session.phase ≠ .idle := by
    rw [h.phase_eq]
    split <;> nofun
  have hhistory := h.history_eq
  have hlength : session.memory.history.length = kept.length + steps := by
    rw [hhistory, List.length_map, List.length_append, hsteps]
  have hget (index : Nat) (hindex : index = kept.length)
      (hlt : index < session.memory.history.length) : session.memory.history[index].1 = fact := by
    subst hindex
    rw [List.getElem_of_eq hhistory]
    simp
  have hindex : session.memory.history.length - steps = kept.length := by omega
  refine goBack_eq_ok_iff.mpr ⟨hphase, hpositive, by omega, by omega, ?_, rfl⟩
  rw [hget _ hindex, hindex]

theorem irredundant_rewind (h : session.Reachable limits) (steps size : Nat)
    (hmem : fact ∈ session.memory.history.map (·.1)) :
    (session.rewind limits size steps fact).memory.Irredundant := by
  have hpass := KnowledgeBase.infersAll_convergeOnce limits.maxPropagationIterations
    ⟨session.memory.clearAfter fact, .fresh kb.size, session.log⟩
  have hcleared : (session.memory.clearAfter fact).Irredundant := by
    intro query derived hderived
    rw [Memory.hypothesis, (Memory.clearAfter_of_mem hmem).1] at hderived
    cases hderived
  have hpassed := (Reachable.clear h hmem).justified.irredundant_steps hpass hcleared
  exact hpassed

/-- Going back marks the rules afresh that the pass did not resolve. -/
theorem marked_rewind (session : Session kb) (size steps : Nat) (fact : Fact)
    (hasked : (session.rewind limits size steps fact).asked =
      (session.memory.history.take (size + 1)).map (·.1)) :
    (session.rewind limits size steps fact).Marked := by
  intro id hopen
  have hpass := KnowledgeBase.infersAll_convergeOnce limits.maxPropagationIterations
    ⟨session.memory.clearAfter fact, .fresh kb.size, session.log⟩
  rw [hasked]
  rw [rewind_eq] at hopen ⊢
  simp only [table] at hopen ⊢
  generalize (kb.convergeOnce limits.maxPropagationIterations
    ⟨session.memory.clearAfter fact, .fresh kb.size, session.log⟩).1 = pass at hpass hopen ⊢
  rw [KnowledgeBase.status_foldl_markEvaluating] at hopen ⊢
  have hunresolved : (pass.table.status id).isResolved = false := by
    split at hopen
    · next hmarked => rw [hmarked.2]; rfl
    · exact hopen
  have hpending : pass.table.status id = .pending :=
    (hpass.status_eq_of_not_isResolved hunresolved).symm.trans (RuleTable.status_fresh id)
  simp [hpending]

/-- Going back in a dialogue leads to where it stood when the target was
    asked, as far as nothing is said about what was derived. -/
theorem Dialogue.retraces_rewind (h : session.Dialogue limits (kept ++ (fact, value) :: lost))
    (hbefore : original.Dialogue limits kept) (hquestion : original.question = some fact)
    (steps : Nat) :
    (session.rewind limits kept.length steps fact).Retraces limits original := by
  have hhistory := h.history_eq
  rw [List.map_append, List.map_cons, ← hbefore.history_eq] at hhistory
  have hmem : fact ∈ session.memory.history.map (·.1) := by simp [hhistory]
  have hlength : original.memory.history.length = kept.length := by
    rw [hbefore.history_eq, List.length_map]
  have htake : (session.memory.history.take (kept.length + 1)).map (·.1) = original.asked := by
    rw [hhistory, ← hlength, List.take_length_add_append, List.map_append, asked, hquestion]
    rfl
  have hkept : (session.memory.clearAfter fact).history = original.memory.history :=
    h.faithful.history_clearAfter hhistory
  have hanswers : (session.rewind limits kept.length steps fact).memory.answers =
      original.memory.answers := by
    rw [answers_rewind]
    exact (h.faithful.clearAfter hmem).answers_eq hbefore.faithful hkept
  have hphase : original.phase = .awaitingAnswer := by rw [hbefore.phase_eq, hquestion]; rfl
  have hasked : (session.rewind limits kept.length steps fact).asked = original.asked := by
    rw [asked, asked, hquestion, ← Memory.history_answers, hanswers]
    rfl
  exact ⟨Reachable.rewind h.reachable _ _ hmem, hanswers, hquestion.symm, hphase.symm,
    irredundant_rewind h.reachable _ _ hmem, marked_rewind _ _ _ _ (hasked.trans htake.symm)⟩

/-- What is asked in a dialogue can be answered wherever the dialogue is
    retraced. -/
theorem Retraces.answer_succeeds (h : session.Retraces limits original)
    (horiginal : original.Dialogue limits given) (hquestion : original.question = some fact)
    (value : Answer) :
    session.answer limits fact value =
      .ok (session.acceptAnswer limits fact value none,
        (session.acceptAnswer limits fact value none).answerOutcome none) := by
  obtain ⟨hcondition, hnew, -⟩ := horiginal.question_open hquestion
  refine answer_eq_ok_iff.mpr ⟨⟨?_, hcondition, ?_⟩, rfl, rfl⟩
  · rw [h.phase, horiginal.phase_eq, hquestion]
    rfl
  · exact (Memory.finding_eq_of_answers_eq h.answers fact).trans hnew

/-- Giving the same answers again retraces a dialogue that has no dispute in the
    end, and from the first answer on it agrees with it. -/
theorem Retraces.answerAll (h : rewound.Retraces limits original)
    (horiginal : original.Dialogue limits kept) (hlimits : limits.Ample kb)
    (hsession : session.Dialogue limits (kept ++ lost))
    (hundisputed : kb.Undisputed session.board) :
    ∃ final, Session.answerAll limits lost rewound = .ok final ∧ final.Retraces limits session ∧
      (lost ≠ [] → final.Agrees session) := by
  induction lost using List.reverseRecOn generalizing session with
  | nil =>
    rw [List.append_nil] at hsession
    obtain rfl := horiginal.unique hsession
    exact ⟨rewound, rfl, h, fun hne => absurd rfl hne⟩
  | append_singleton rest last ih =>
    obtain ⟨fact, value⟩ := last
    rw [← List.append_assoc] at hsession
    obtain ⟨before, hbefore, hquestion, rfl⟩ := hsession.exists_answered
    obtain ⟨hcondition, hnew, -⟩ := hbefore.question_open hquestion
    have hundisputedBefore :=
      undisputed_of_acceptAnswer hbefore.reachable hcondition hnew hundisputed
    obtain ⟨middle, hmiddle, hretraces, -⟩ := ih hbefore hundisputedBefore
    obtain ⟨hnext, hagrees⟩ := hretraces.acceptAnswer hbefore hlimits hquestion hundisputed
    refine ⟨_, ?_, hnext, fun _ => hagrees⟩
    rw [answerAll_append hmiddle, Session.answerAll, hretraces.answer_succeeds hbefore hquestion]
    rfl

/-- Taking back the last answers and giving them again succeeds at every step,
    and leaves all as it was, but for the journal. -/
def Replays (limits : Limits) (given : List (Fact × Answer)) (steps : Nat) (session : Session kb) :
    Prop :=
  ∃ rewound outcome final, session.goBack limits steps = .ok (rewound, outcome) ∧
    Session.answerAll limits (given.drop (given.length - steps)) rewound = .ok final ∧
    final.Agrees session

theorem Replays.run_agrees {steps : Nat} (h : session.Replays limits given steps) :
    (session.run limits (.goBack steps ::
      (given.drop (given.length - steps)).map fun entry => .answer entry.1 entry.2)).Agrees
      session := by
  obtain ⟨rewound, outcome, final, hback, hfinal, hagrees⟩ := h
  have hstep : (session.step limits (.goBack steps)).1 = rewound := by
    simp only [step, perform, hback]
    rfl
  have hrun := run_of_answerAll hfinal
  rw [run] at hrun
  rw [run, List.foldl_cons, hstep, hrun]
  exact hagrees

/-- Going back and giving the same answers again changes nothing, in a dialogue
    at the end of which no answer is in dispute. -/
theorem rollback_replay (hlimits : limits.Ample kb) (h : session.Dialogue limits given)
    (hundisputed : kb.Undisputed session.board) {steps : Nat} (hpositive : 0 < steps)
    (hle : steps ≤ given.length) : session.Replays limits given steps := by
  obtain ⟨kept, lost, rfl, hlength⟩ : ∃ kept lost, given = kept ++ lost ∧ lost.length = steps :=
    ⟨given.take (given.length - steps), given.drop (given.length - steps),
      (List.take_append_drop _ _).symm, by rw [List.length_drop]; omega⟩
  have hdrop : (kept ++ lost).drop ((kept ++ lost).length - steps) = lost := by
    rw [List.length_append, hlength, Nat.add_sub_cancel, List.drop_left]
  rw [Replays, hdrop]
  cases lost with
  | nil =>
    rw [List.length_nil] at hlength
    omega
  | cons entry rest =>
    obtain ⟨fact, value⟩ := entry
    have hsplit : session.Dialogue limits ((kept ++ [(fact, value)]) ++ rest) := by simpa using h
    obtain ⟨answered, hanswered⟩ := hsplit.exists_prefix
    obtain ⟨original, horiginal, hquestion, -⟩ := hanswered.exists_answered
    have hretraces := h.retraces_rewind horiginal hquestion steps
    obtain ⟨final, hfinal, -, hagrees⟩ := hretraces.answerAll horiginal hlimits h hundisputed
    have hback := h.goBack_eq hpositive hlength
    exact ⟨_, _, final, hback, hfinal, hagrees (List.cons_ne_nil _ _)⟩

/-- In a dialogue it takes no more than a look at the answers and the rules to
    see that nothing is in dispute. -/
theorem Dialogue.undisputed (h : session.Dialogue limits given)
    (hanswers : ∀ entry ∈ given, entry.2 ≠ .unknown →
      session.memory.hypothesis entry.1 = none ∨
        session.memory.hypothesis entry.1 = some entry.2.truth)
    (hpremises : ∀ id, session.table.status id = .fired →
      kb.isCondition (kb.rule id).action = true → kb.Refutable (kb.rule id).action →
      ∀ condition ∈ (kb.rule id).conditions, session.memory.finding condition = some .unknown →
        session.memory.hypothesis condition ≠ some .holds) :
    kb.Undisputed session.board := by
  refine ⟨fun fact truth hfinding hdefinite derived hderived => ?_, hpremises⟩
  obtain ⟨value, hmem, rfl⟩ := h.exists_answer_of_finding hfinding
  have hknown : value ≠ .unknown := by
    rintro rfl
    exact hdefinite rfl
  rcases hanswers _ hmem hknown with hnone | hsame
  · cases hnone.symm.trans hderived
  · exact Option.some.inj (hderived.symm.trans hsame)

/-- A goal over a fact that is derived from another derived fact. -/
def layered : KnowledgeBase where
  rules := [(Rule.needsAll ["top", "z"] "goal").asGoal, Rule.needsAll ["x", "c"] "top",
    Rule.needsAll ["a"] "x"]
  categories := [""]
  wellFormed := by
    simp [Rule.wellFormed_iff, Rule.needsAll, Rule.asGoal, Text.IsBlankText, Text.isBlank]
  categories_nodup := List.nodup_singleton _
  category_mem := by decide

/-- Here an answer `unknown` is overridden, but the rule that fired on it is the
    goal itself. -/
theorem layered_rollback_replay :
    let session := (idle layered).run {}
      [.start, .answer "top" .unknown, .answer "x" .yes, .answer "c" .yes, .answer "z" .yes]
    session.Replays {} [("top", .unknown), ("x", .yes), ("c", .yes), ("z", .yes)] 3 := by
  intro session
  have hdialogue : session.Dialogue {}
      [("top", .unknown), ("x", .yes), ("c", .yes), ("z", .yes)] :=
    .answer (.answer (.answer (.answer (.start rfl) rfl rfl) rfl rfl) rfl rfl) rfl rfl
  have hundisputed : layered.Undisputed session.board :=
    hdialogue.undisputed (by decide) (by decide)
  exact rollback_replay ⟨by decide, by decide⟩ hdialogue hundisputed (by decide) (by decide)

/-- Without the condition on disputes a dialogue may not be replayed. In a
    single pass over the kept answers the rule for `top` is `uncertain`, since
    `x` is derived only after it was evaluated, and refutes `top`; that blocks
    the goal for good. -/
theorem not_rollback_replay :
    ¬ ∀ (kb : KnowledgeBase) (limits : Limits) (given : List (Fact × Answer))
      (session : Session kb) (steps : Nat), kb.hasErrors = false → limits.Ample kb →
      kb.size ≤ limits.maxQuestionDepth → session.Dialogue limits given → 0 < steps →
      steps ≤ given.length → session.Replays limits given steps := by
  intro h
  let session := (idle layered).run {}
    [.start, .answer "top" .unknown, .answer "x" .unknown, .answer "a" .yes, .answer "c" .yes,
      .answer "z" .yes]
  have hreplays := h layered {}
    [("top", .unknown), ("x", .unknown), ("a", .yes), ("c", .yes), ("z", .yes)] session 1
    (by decide) ⟨by decide, by decide⟩ (by decide)
    (.answer (.answer (.answer (.answer (.answer (.start rfl) rfl rfl) rfl rfl) rfl rfl) rfl rfl)
      rfl rfl) (by decide) (by decide)
  have hstatus := hreplays.run_agrees.status ⟨0, by decide⟩
  revert hstatus
  decide

/-- Goals over a fact that can be answered and derived. -/
def crossed : KnowledgeBase where
  rules := [(Rule.needsAll ["x", "a"] "g1").asGoal, (Rule.needsAll ["x", "h"] "g2").asGoal,
    (Rule.needsAll ["h", "k"] "g3").asGoal, Rule.needsAll ["a"] "x"]
  categories := [""]
  wellFormed := by
    simp [Rule.wellFormed_iff, Rule.needsAll, Rule.asGoal, Text.IsBlankText, Text.isBlank]
  categories_nodup := List.nodup_singleton _
  category_mem := by decide

/-- Overridden answers `unknown` are not the only obstacle. Here `x` is answered
    yes and refuted later, which blocks `g2`; the single pass evaluates `g2`
    before it refutes `x` again, so that `g2` fires. -/
theorem not_rollback_replay_of_premises :
    ¬ ∀ (kb : KnowledgeBase) (limits : Limits) (given : List (Fact × Answer))
      (session : Session kb) (steps : Nat), kb.hasErrors = false → limits.Ample kb →
      kb.size ≤ limits.maxQuestionDepth → session.Dialogue limits given →
      (∀ id, session.table.status id = .fired → kb.isCondition (kb.rule id).action = true →
        kb.Refutable (kb.rule id).action → ∀ condition ∈ (kb.rule id).conditions,
          session.memory.finding condition = some .unknown →
          session.memory.hypothesis condition ≠ some .holds) →
      0 < steps → steps ≤ given.length → session.Replays limits given steps := by
  intro h
  let session := (idle crossed).run {}
    [.start, .answer "x" .yes, .answer "a" .no, .answer "h" .yes, .answer "k" .yes]
  have hreplays := h crossed {} [("x", .yes), ("a", .no), ("h", .yes), ("k", .yes)] session 1
    (by decide) ⟨by decide, by decide⟩ (by decide)
    (.answer (.answer (.answer (.answer (.start rfl) rfl rfl) rfl rfl) rfl rfl) rfl rfl)
    (by decide) (by decide) (by decide)
  have hstatus := hreplays.run_agrees.status ⟨1, by decide⟩
  revert hstatus
  decide

end Session

end Consultation
