/-
CallAudit.Instruction — what the language model is asked.

* `scorecardSystem`, `summarySystem` — the part it is to play.
* `scorecard` — a form to be filled in for a dialogue: the dialogue, the
  questions with what may be answered, and the shape of the reply.
* `summary` — a dialogue to be summed up and put into a category, after
  the instructions of the rule if it has some of its own.
-/
import CallAudit.Form
import CallAudit.Json.Printer
import CallAudit.Text.Blank

namespace CallAudit.Instruction

/-! ## The parts -/

/-- The part played when a form is filled in. -/
def scorecardSystem : String :=
  "You are a call quality auditor. Analyze the call by the form."

/-- The part played when a call is summed up. -/
def summarySystem : String :=
  "You are a call classifier and summarizer."

/-! ## Forms -/

/-- The shape of the reply that fills in a form. -/
def scorecardReply (explain : Bool) : List Char :=
  "\x7b\"answers\":[\x7b\"score\":10\x7d,...],\"comment\":\"".toList ++
    (if explain then "explanation text".toList else "-".toList) ++ "\"\x7d".toList

/-- An option on a line. -/
def choiceLine (c : Choice) : List Char :=
  " - ".toList ++ (c.name.toList ++ (" (".toList ++ (Json.intText c.score ++ ")\n".toList)))

/-- What may be answered to a question. -/
def answers (q : Question) : List Char :=
  match q.kind with
  | .options =>
    "Choose exactly one of these options:\n".toList ++
      (q.choices.flatMap choiceLine ++ "Any other value is not allowed.\n".toList)
  | .range =>
    "Score from ".toList ++
      (Json.intText q.least ++ (" to ".toList ++ (Json.intText q.most ++ ['\n'])))
  | .other => []

/-- A question with its number. -/
def question (number : Nat) (q : Question) : List Char :=
  Nat.toDigits 10 number ++ ('.' :: ' ' :: (q.text.toList ++ ('\n' :: answers q)))

/-- Questions numbered one after the other. -/
def questionsFrom : Nat → List Question → List Char
  | _, [] => []
  | number, q :: rest => question number q ++ questionsFrom (number + 1) rest

/-- What comes before the dialogue. -/
def scorecardOpening (explain : Bool) : List Char :=
  "Evaluate the following call against the form.".toList ++
    (if explain then " For every answer briefly explain why that score was given.".toList
      else []) ++
    " Return the result as JSON.\n\nCall:\n".toList

/-- What comes after the questions. -/
def scorecardClosing (explain : Bool) : List Char :=
  (if explain then
      ("\nWrite the explanation for each question on a new line"
        ++ " and number the explanations.\n").toList
    else []) ++
    "\nResponse format:\n".toList ++ scorecardReply explain

/-- A form to be filled in for a dialogue. -/
def scorecard (dialogue : String) (form : Form) (explain : Bool) : String :=
  String.ofList
    (scorecardOpening explain ++ (dialogue.toList ++ ("\n\nForm:\n".toList ++
      (questionsFrom 1 form.questions ++ scorecardClosing explain))))

/-! ## Summaries -/

/-- The categories to choose from, or a place for any. -/
def categoryLine (categories : List String) : String :=
  if categories.isEmpty then "Category: <category>"
  else "Category: <one of " ++ ", ".intercalate categories ++ ">"

/-- A dialogue to be summed up. Blank instructions of a rule count as
none. -/
def summary (dialogue : String) (categories : List String) (ofRule : Option String) : String :=
  (match ofRule.bind Text.nonBlank with
    | some own => own ++ "\n"
    | none => "") ++
  "\nHere is the conversation:\n" ++ dialogue ++
  "\n\nReturn the answer in the format:\nSummary: <text>\n" ++ categoryLine categories

end CallAudit.Instruction
