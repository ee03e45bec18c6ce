import Consultation.Proofs.Inference.Convergence

namespace Consultation

namespace KnowledgeBase

variable {kb : KnowledgeBase} {board : Board kb.size} {iterations more : Nat}

/-- A propagation that is allowed a round infers the same under every cap: a
    second round only confirms the first. -/
theorem Justified.propagate_congr (h : kb.Justified board) (hiterations : 0 < iterations)
    (hmore : 0 < more) :
    (kb.propagate more board).1 = (kb.propagate iterations board).1 ∧
      (kb.propagate more board).2.changed = (kb.propagate iterations board).2.changed := by
  obtain ⟨iterations, rfl⟩ := Nat.exists_eq_add_of_lt hiterations
  obtain ⟨more, rfl⟩ := Nat.exists_eq_add_of_lt hmore
  rw [Nat.zero_add, Nat.zero_add, h.propagate_succ, h.propagate_succ]
  split
  · refine ⟨rfl, ?_⟩
    split <;> split <;> rfl
  · exact ⟨rfl, rfl⟩

theorem Justified.convergeOnce_congr (h : kb.Justified board) (hiterations : 0 < iterations)
    (hmore : 0 < more) : kb.convergeOnce more board = kb.convergeOnce iterations board := by
  obtain ⟨hboard, hchanged⟩ := h.evaluated.propagate_congr hiterations hmore
  unfold KnowledgeBase.evaluated at hboard hchanged
  simp only [convergeOnce, hboard, hchanged]

theorem Justified.convergeWithin_congr (h : kb.Justified board) (hiterations : 0 < iterations)
    (hmore : 0 < more) (cap : Nat) :
    kb.convergeWithin more cap board = kb.convergeWithin iterations cap board := by
  induction cap generalizing board with
  | zero => rfl
  | succ cap ih =>
    have hnext : kb.Justified (kb.convergeOnce iterations board).1 :=
      h.steps (infersAll_convergeOnce iterations board)
    have hrest := ih hnext
    rw [convergeWithin, convergeWithin, h.convergeOnce_congr hiterations hmore]
    generalize kb.convergeOnce iterations board = result at hrest ⊢
    obtain ⟨next, changed⟩ := result
    cases changed with
    | false => rfl
    | true => simp only [hrest]

/-- Once the passes have come to rest, further ones that are allowed are not
    made. -/
theorem convergeWithin_of_settled {cap wider : Nat} (hcap : cap ≤ wider)
    (hsettled : (kb.convergeWithin iterations cap board).2.settled = true) :
    kb.convergeWithin iterations wider board = kb.convergeWithin iterations cap board := by
  induction cap generalizing wider board with
  | zero => cases hsettled
  | succ cap ih =>
    obtain ⟨wider, rfl⟩ := Nat.exists_eq_add_of_le' (Nat.one_le_of_lt hcap)
    rw [convergeWithin] at hsettled ⊢
    rw [convergeWithin]
    generalize kb.convergeOnce iterations board = result at hsettled ⊢
    obtain ⟨next, changed⟩ := result
    cases changed with
    | false => rfl
    | true =>
      have hrest := ih (Nat.le_of_succ_le_succ hcap) hsettled
      simp only [hrest]

end KnowledgeBase

/-- Limits that leave inference at least the room that others leave it, with the
    same depth of search for a question. Both allow a round of propagation. -/
structure Limits.Widens (wider limits : Limits) : Prop where
  passes : limits.maxEvaluationPasses ≤ wider.maxEvaluationPasses
  iterations : 1 ≤ limits.maxPropagationIterations
  iterations_wider : 1 ≤ wider.maxPropagationIterations
  depth : wider.maxQuestionDepth = limits.maxQuestionDepth

namespace KnowledgeBase

variable {kb : KnowledgeBase} {board : Board kb.size} {limits wider : Limits}

/-- A convergence that comes to rest comes to the same rest under wider limits. -/
theorem Justified.converge_congr (h : kb.Justified board) (hwidens : wider.Widens limits)
    (hsettled : (kb.convergeWithin limits.maxPropagationIterations limits.maxEvaluationPasses
      board).2.settled = true) :
    kb.converge wider board = kb.converge limits board := by
  have hsame : kb.convergeWithin wider.maxPropagationIterations wider.maxEvaluationPasses board =
      kb.convergeWithin limits.maxPropagationIterations limits.maxEvaluationPasses board := by
    rw [h.convergeWithin_congr hwidens.iterations hwidens.iterations_wider]
    exact convergeWithin_of_settled hwidens.passes hsettled
  have hsettledWider : (kb.convergeWithin wider.maxPropagationIterations wider.maxEvaluationPasses
      board).2.settled = true := by rw [hsame, hsettled]
  rw [converge_of_settled hsettled, converge_of_settled hsettledWider, hsame]

end KnowledgeBase

end Consultation
