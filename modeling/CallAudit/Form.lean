/-
CallAudit.Form — scorecard forms.

* `Question` — one question: its kind, its text, the options of an option
  question and the bounds of a range question.
* `Form` — a form: a list of questions under a number and a name.
* `Form.decoder` — a form as the forms service sends it. A kind it does not
  know is kept as `other`.
-/
import CallAudit.Json.Decode

namespace CallAudit

open CallAudit.Json (Value Decoder)
open CallAudit.Json.Decoder (field)

/-- How a question is answered: by one of its options, by a whole number
within its bounds, or in a way that is left open. -/
inductive QuestionKind where
  | options
  | range
  | other
deriving DecidableEq, Repr, Inhabited

/-- An option with the score it stands for. -/
structure Choice where
  name : String
  score : Int
deriving DecidableEq, Repr, Inhabited

/-- A question. -/
structure Question where
  kind : QuestionKind := .other
  required : Bool := false
  text : String := ""
  choices : List Choice := []
  least : Int := 0
  most : Int := 0
deriving DecidableEq, Repr, Inhabited

/-- A form. -/
structure Form where
  id : Int := 0
  name : String := ""
  questions : List Question := []
deriving DecidableEq, Repr, Inhabited

/-! ## Reading -/

/-- The kind of a name. -/
def QuestionKind.ofName (name : String) : QuestionKind :=
  if name = "question_option" then .options
  else if name = "question_score" then .range
  else .other

/-- An option. -/
def Choice.decoder : Decoder Choice :=
  Decoder.record
    [field "name" Decoder.string fun s c => { c with name := s },
     field "score" Decoder.int64 fun n c => { c with score := n }]
    ⟨"", 0⟩

/-- A question. -/
def Question.decoder : Decoder Question :=
  Decoder.record
    [field "type" (Decoder.map QuestionKind.ofName Decoder.variant)
        fun k q => { q with kind := k },
     field "required" Decoder.bool fun b q => { q with required := b },
     field "question" Decoder.string fun s q => { q with text := s },
     field "options" (Decoder.list Choice.decoder) fun cs q => { q with choices := cs },
     field "min" Decoder.int64 fun n q => { q with least := n },
     field "max" Decoder.int64 fun n q => { q with most := n }]
    {}

/-- A form. -/
def Form.decoder : Decoder Form :=
  Decoder.record
    [field "id" Decoder.int64 fun n f => { f with id := n },
     field "name" Decoder.string fun s f => { f with name := s },
     field "questions" (Decoder.list Question.decoder) fun qs f => { f with questions := qs }]
    {}

end CallAudit
