import Consultation.Knowledge.Json
import Consultation.Session.Basic

namespace Consultation

def FactMap.toJson (map : FactMap) : Json String :=
  .object (map.entries.map fun entry => (entry.1, .string entry.2.text))

/-- The answers as records of the fact and its value, in answer order. -/
def historyToJson (history : List (Fact × Truth)) : Json String :=
  .array (history.map fun entry =>
    .object [("fact", .string entry.1), ("answer", .string entry.2.text)])

def ConditionRow.toJson (row : ConditionRow) : Json String :=
  .object [
    ("text", .string row.text),
    ("status", .string (Truth.conditionText row.value)),
    ("is_derived", .bool row.isDerived)]

def RuleRow.toJson (row : RuleRow) : Json String :=
  .object [
    ("id", .ofNat row.position),
    ("conclusion", .string row.conclusion),
    ("category", .string row.category),
    ("combinator", .string row.combinator.keyword),
    ("is_goal", .bool row.isGoal),
    ("conditions", .array (row.conditions.map ConditionRow.toJson)),
    ("status", .string row.status.text)]

def RuleRow.listToJson (rows : List RuleRow) : Json String := .array (rows.map RuleRow.toJson)

def Applicable.toJson (goal : Applicable) : Json String :=
  .object [("action", .string goal.action), ("category", .string goal.category)]

def Conditional.toJson (goal : Conditional) : Json String :=
  .object [
    ("action", .string goal.action),
    ("category", .string goal.category),
    ("unknown_conditions", .ofStrings goal.unknownConditions)]

def Summary.toJson (summary : Summary) : Json String :=
  .object [
    ("applicable", .array (summary.applicable.map Applicable.toJson)),
    ("conditional", .array (summary.conditional.map Conditional.toJson)),
    ("unknown_answers", .ofStrings summary.unknownAnswers),
    ("reasoning_log", .ofStrings summary.journal)]

def Summary.optionToJson : Option Summary → Json String
  | some summary => summary.toJson
  | none => .null

/-- The word for a phase in a written snapshot. -/
def Phase.keyword : Phase → String
  | idle => "idle"
  | awaitingAnswer => "awaiting_answer"
  | processing => "processing"
  | complete => "complete"

def Snapshot.toJson (snapshot : Snapshot) : Json String :=
  .object [
    ("phase", .string snapshot.phase.keyword),
    ("current_question", .ofString? snapshot.question),
    ("answered_history", historyToJson snapshot.history),
    ("derived_facts", snapshot.derivedFacts.toJson),
    ("rules_display", RuleRow.listToJson snapshot.rules),
    ("is_complete", .bool snapshot.isComplete),
    ("result", Summary.optionToJson snapshot.result)]

def AnswerOutcome.toJson (outcome : AnswerOutcome) : Json String :=
  .object [
    ("next_question", .ofString? outcome.nextQuestion),
    ("is_complete", .bool outcome.isComplete),
    ("derived_facts", outcome.derivedFacts.toJson),
    ("rules_display", RuleRow.listToJson outcome.rules),
    ("result", Summary.optionToJson outcome.result),
    ("normalized_from", .ofString? outcome.normalizedFrom)]

def RollbackOutcome.toJson (outcome : RollbackOutcome) : Json String :=
  .object [
    ("current_question", .ofString? outcome.question),
    ("answered_history", historyToJson outcome.history),
    ("rules_display", RuleRow.listToJson outcome.rules)]

end Consultation
