import Consultation.Knowledge.Basic
import Consultation.RuleStatus

namespace Consultation

/-- The state of one rule: its status, and the value that each of its
    conditions had when it was last evaluated. Nothing is noted of a rule that
    was never evaluated. -/
@[ext]
structure RuleState where
  status : RuleStatus
  checked : List (Fact × Option Truth)
  deriving DecidableEq, Repr, Inhabited

namespace RuleState

def fresh : RuleState := ⟨.pending, []⟩

/-- Notes a new value for a condition, if the rule has noted it before. -/
def noteCondition (state : RuleState) (fact : Fact) (value : Truth) : RuleState :=
  { state with
    checked := state.checked.map fun entry => if entry.1 = fact then (entry.1, some value) else entry }

/-- The noted value of a condition. -/
def checkedValue (state : RuleState) (fact : Fact) : Option Truth :=
  (state.checked.lookup fact).join

/-- Shows that a condition of the rule has been asked. -/
def markEvaluating (state : RuleState) : RuleState :=
  if state.status = .pending then { state with status := .evaluating } else state

end RuleState

/-- The states of all rules of a knowledge base. -/
@[ext]
structure RuleTable (size : Nat) where
  states : Vector RuleState size
  deriving DecidableEq, Repr

namespace RuleTable

variable {size : Nat}

def get (table : RuleTable size) (id : Fin size) : RuleState := table.states[id]

def status (table : RuleTable size) (id : Fin size) : RuleStatus := (table.get id).status

def set (table : RuleTable size) (id : Fin size) (state : RuleState) : RuleTable size :=
  ⟨table.states.set id state⟩

def setStatus (table : RuleTable size) (id : Fin size) (status : RuleStatus) : RuleTable size :=
  table.set id { table.get id with status }

/-- No rule has been looked at. -/
def fresh (size : Nat) : RuleTable size := ⟨Vector.replicate size RuleState.fresh⟩

/-- Changes the state of every rule that has a property, and no other. -/
def updateWhere (table : RuleTable size) (applies : Fin size → Bool)
    (change : RuleState → RuleState) : RuleTable size :=
  ⟨Vector.ofFn fun id => if applies id then change (table.get id) else table.get id⟩

@[simp]
theorem get_set (table : RuleTable size) (id query : Fin size) (state : RuleState) :
    (table.set id state).get query = if query = id then state else table.get query := by
  simp only [get, set, Fin.getElem_fin, Vector.getElem_set]
  by_cases h : query = id
  · simp [h]
  · rw [if_neg h, if_neg fun heq => h (Fin.ext heq.symm)]

@[simp]
theorem get_fresh (id : Fin size) : (fresh size).get id = RuleState.fresh := by
  simp [get, fresh]

@[simp]
theorem get_updateWhere (table : RuleTable size) (applies : Fin size → Bool)
    (change : RuleState → RuleState) (id : Fin size) :
    (table.updateWhere applies change).get id =
      if applies id then change (table.get id) else table.get id := by
  simp [get, updateWhere]

/-- A table is known by the state of each rule. -/
theorem eq_of_get {left right : RuleTable size} (h : ∀ id, left.get id = right.get id) :
    left = right := by
  apply RuleTable.ext
  apply Vector.ext
  intro index hindex
  exact h ⟨index, hindex⟩

end RuleTable

namespace KnowledgeBase

/-- Notes a new value for a fact in every rule that has it as a condition. -/
def noteCondition (kb : KnowledgeBase) (table : RuleTable kb.size) (fact : Fact)
    (value : Truth) : RuleTable kb.size :=
  table.updateWhere (fun id => fact ∈ (kb.rule id).conditions) (·.noteCondition fact value)

/-- Shows in every rule that has a fact as a condition that it was asked. -/
def markEvaluating (kb : KnowledgeBase) (table : RuleTable kb.size) (fact : Fact) :
    RuleTable kb.size :=
  table.updateWhere (fun id => fact ∈ (kb.rule id).conditions) RuleState.markEvaluating

end KnowledgeBase

end Consultation
