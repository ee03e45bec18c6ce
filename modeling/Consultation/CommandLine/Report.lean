import Consultation.Session.Json
import Consultation.Text.Lines

namespace Consultation

/-- The result of a consultation for a reader. -/
def Summary.text (summary : Summary) : String :=
  let applicable :=
    if summary.applicable.isEmpty then ["  No applicable visa categories."]
    else "  Applicable:" :: summary.applicable.map fun goal =>
      "    - " ++ goal.action ++ " [" ++ goal.category ++ "]"
  let conditional :=
    if summary.conditional.isEmpty then []
    else "  Conditional:" :: summary.conditional.map fun goal =>
      "    - " ++ goal.action ++ " [" ++ goal.category ++ "] (unknown: " ++
        String.intercalate ", " goal.unknownConditions ++ ")"
  let unknown :=
    if summary.unknownAnswers.isEmpty then []
    else ["  Answered unknown: " ++ String.intercalate ", " summary.unknownAnswers]
  Text.joinLines
    (["", "Consultation result:"] ++ applicable ++ conditional ++ unknown ++
      ["", "Reasoning:"] ++ summary.journal.map ("  " ++ ·))

/-- The word for a phase that is shown to a reader. -/
def Phase.text : Phase → String
  | idle => "Idle"
  | awaitingAnswer => "AwaitingAnswer"
  | processing => "Processing"
  | complete => "Complete"

def RuleRow.text (row : RuleRow) : String :=
  let conditions := row.conditions.map fun condition =>
    condition.text ++ ":" ++ Truth.conditionText condition.value
  "  [" ++ row.status.text ++ "] " ++ row.conclusion ++ " (" ++ row.combinator.text ++ " " ++
    String.intercalate " " conditions ++ ") " ++ (if row.isGoal then "goal" else "")

/-- A line for each fact and its value. -/
def factLines (facts : List (Fact × Truth)) : List String :=
  facts.map fun entry => "  " ++ entry.1 ++ " = " ++ entry.2.text

/-- A consultation as it stands, for a reader. -/
def Snapshot.text (snapshot : Snapshot) : String :=
  let question := match snapshot.question with
    | some fact => ["Current question: " ++ fact]
    | none => []
  let derived :=
    if snapshot.derivedFacts.isEmpty then []
    else "Derived:" :: factLines snapshot.derivedFacts.entries
  Text.joinLines
    (["Phase: " ++ snapshot.phase.text] ++ question ++ ["Answers:"] ++
      factLines snapshot.history ++ derived ++ ["Rules:"] ++ snapshot.rules.map RuleRow.text)

namespace KnowledgeBase

/-- The rules of a category under its heading. There is no heading without a
    rule. -/
def categoryListing (kb : KnowledgeBase) (category : String) : List String :=
  let rules := kb.inCategory category
  if rules.isEmpty then []
  else ((if category.isEmpty then "(uncategorized)" else category) ++ ":") ::
    rules.map fun id => "  " ++ toString (id.val + 1) ++ ". " ++ (kb.rule id).text

/-- All rules under their categories, counted from one in declaration order. -/
def listing (kb : KnowledgeBase) : String :=
  Text.joinLines (kb.categories.flatMap kb.categoryListing)

end KnowledgeBase

end Consultation
