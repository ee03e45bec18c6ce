import Consultation.FactMap

namespace Consultation

/-- What is known in a consultation. Findings hold what was answered,
    hypotheses what the rules derived, and the history lists the answers in
    the order they were given. A fact may have a finding and a hypothesis. -/
@[ext]
structure Memory where
  findings : FactMap
  hypotheses : FactMap
  history : List (Fact × Truth)
  deriving Inhabited

namespace Memory

def empty : Memory := ⟨.empty, .empty, []⟩

def finding (memory : Memory) (fact : Fact) : Option Truth := memory.findings.get? fact

def hypothesis (memory : Memory) (fact : Fact) : Option Truth := memory.hypotheses.get? fact

/-- Records an answer and enters it in the history. -/
def putFinding (memory : Memory) (fact : Fact) (value : Truth) : Memory :=
  { memory with
    findings := memory.findings.set fact value
    history := memory.history ++ [(fact, value)] }

/-- Records a derived value in place of an earlier one. -/
def putHypothesis (memory : Memory) (fact : Fact) (value : Truth) : Memory :=
  { memory with hypotheses := memory.hypotheses.set fact value }

/-- The value of a fact with the answer before the derivation. -/
def rawValue (memory : Memory) (fact : Fact) : Option Truth :=
  memory.finding fact <|> memory.hypothesis fact

/-- The value of a fact as the rules see it. A derived fact that the rules
    have settled has the settled value, whatever was answered about it. -/
def effectiveValue (memory : Memory) (fact : Fact) (derived : Bool) : Option Truth :=
  if derived then (memory.hypothesis fact).filter Truth.isDefinite <|> memory.rawValue fact
  else memory.rawValue fact

/-- The answers from the first one about `fact` onwards. -/
def historyFrom (memory : Memory) (fact : Fact) : List (Fact × Truth) :=
  memory.history.dropWhile (·.1 ≠ fact)

/-- Takes back the first answer about `fact` and all later ones, together with
    everything derived. Nothing changes when the fact was never answered. -/
def clearAfter (memory : Memory) (fact : Fact) : Memory :=
  if (memory.historyFrom fact).isEmpty then memory
  else
    { findings := (memory.historyFrom fact).foldl (fun map entry => map.erase entry.1) memory.findings
      hypotheses := .empty
      history := memory.history.takeWhile (·.1 ≠ fact) }

/-- The facts of the history whose finding is `unknown`, in answer order. -/
def unknownAnswers (memory : Memory) : List Fact :=
  (memory.history.map (·.1)).filter fun fact => memory.finding fact = some .unknown

@[simp]
theorem finding_putFinding (memory : Memory) (fact query : Fact) (value : Truth) :
    (memory.putFinding fact value).finding query =
      if query = fact then some value else memory.finding query :=
  FactMap.get?_set memory.findings fact query value

@[simp]
theorem hypothesis_putFinding (memory : Memory) (fact query : Fact) (value : Truth) :
    (memory.putFinding fact value).hypothesis query = memory.hypothesis query := rfl

@[simp]
theorem finding_putHypothesis (memory : Memory) (fact query : Fact) (value : Truth) :
    (memory.putHypothesis fact value).finding query = memory.finding query := rfl

@[simp]
theorem hypothesis_putHypothesis (memory : Memory) (fact query : Fact) (value : Truth) :
    (memory.putHypothesis fact value).hypothesis query =
      if query = fact then some value else memory.hypothesis query :=
  FactMap.get?_set memory.hypotheses fact query value

/-- What is kept and what is taken back make up the history. -/
theorem takeWhile_append_historyFrom (memory : Memory) (fact : Fact) :
    memory.history.takeWhile (·.1 ≠ fact) ++ memory.historyFrom fact = memory.history :=
  List.takeWhile_append_dropWhile

end Memory

end Consultation
