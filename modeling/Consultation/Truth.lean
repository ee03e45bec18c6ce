namespace Consultation

/-- A fact is named by its text. Two facts are the same when their texts are,
    character for character. -/
abbrev Fact := String

/-- The value recorded for a fact. That no value is recorded yet is a state of
    its own, apart from the recorded value `unknown`. -/
inductive Truth where
  | holds
  | fails
  | unknown
  deriving DecidableEq, Repr, Inhabited

namespace Truth

/-- The value of a plain yes or no. -/
def ofBool : Bool → Truth
  | true => holds
  | false => fails

/-- A value is definite when it settles the fact one way or the other. -/
def isDefinite : Truth → Bool
  | holds | fails => true
  | unknown => false

def text : Truth → String
  | holds => "true"
  | fails => "false"
  | unknown => "unknown"

/-- The word shown for a condition, which may have no value yet. -/
def conditionText : Option Truth → String
  | some value => value.text
  | none => "unchecked"

theorem isDefinite_iff {value : Truth} : value.isDefinite = true ↔ value ≠ unknown := by
  cases value <;> simp [isDefinite]

end Truth

end Consultation
