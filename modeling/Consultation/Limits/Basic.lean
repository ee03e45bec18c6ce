namespace Consultation

/-- The safety bounds of a consultation: evaluation passes for one answer,
    propagation rounds for one pass, and how far the search for a question
    goes below a goal. -/
@[ext]
structure Limits where
  maxEvaluationPasses : Nat := 10
  maxPropagationIterations : Nat := 100
  maxQuestionDepth : Nat := 64
  deriving DecidableEq, Repr, Inhabited

end Consultation
