/-
CallAudit.Verdict.Scores — the scores in a reply, and the rating they make.

* `unfenced` — a reply without the fence of a code block around it.
* `Scores` — the scores of the questions in their order, and a comment.
* `Scores.read` — the scores of a reply; a reply that is not of the asked
  shape has none.
* `Scores.rating` — the body of a rating.
-/
import CallAudit.Json.Decode
import CallAudit.Text.Blank

namespace CallAudit.Verdict

open CallAudit.Json (Value Decoder)
open CallAudit.Json.Decoder (field needed)
open CallAudit.Number (Binary saturate64)
open CallAudit.Text (trim)

/-! ## Fences -/

/-- Three backticks. -/
def fence : List Char := ['\x60', '\x60', '\x60']

/-- A text without `head` at its start, if it starts so. -/
def stripHead? (head cs : List Char) : Option (List Char) :=
  if head.isPrefixOf cs then some (cs.drop head.length) else none

/-- A text without `tail` at its end, if it ends so. -/
def stripTail (tail cs : List Char) : List Char :=
  if tail.isSuffixOf cs then cs.take (cs.length - tail.length) else cs

/-- A trimmed text without the fence it opens with, with or without the
tag of JSON. -/
def unopened (cs : List Char) : List Char :=
  match stripHead? (fence ++ ['j', 's', 'o', 'n']) cs with
  | some rest => rest
  | none => (stripHead? fence cs).getD cs

/-- A text without the fence around it. Each end is looked at for
itself. -/
def unfenced (text : String) : String :=
  String.ofList (trim (stripTail fence (unopened (trim text.toList))))

/-! ## Scores -/

/-- The scores of a reply. -/
structure Scores where
  scores : List Int
  comment : String
deriving DecidableEq, Repr, Inhabited

namespace Scores

/-- No scores at all. -/
def none : Scores := ⟨[], ""⟩

/-- A score: the nearest whole number in the range of signed 64-bit
numbers, a half going away from zero. -/
def score (x : Binary) : Int :=
  saturate64 x.rounded

/-- An answer, of which the score has to be given. -/
def answer : Decoder Binary :=
  Decoder.record [needed "score" Decoder.real fun x _ => x] Binary.zero

/-- The scores and the comment as a reply spells them. -/
def decoder : Decoder Scores :=
  Decoder.record
    [field "answers" (Decoder.list answer) fun xs s => { s with scores := xs.map score },
     field "comment" Decoder.string fun c s => { s with comment := c }]
    none

/-- The scores of a reply. -/
def read (reply : String) : Scores :=
  match Decoder.ofText decoder (unfenced reply) with
  | .ok found => found
  | .error _ => none

/-- Whether there are no scores, whatever the comment. -/
def isEmpty (s : Scores) : Bool :=
  s.scores.isEmpty

/-- A rating: the scores and the comment for a call and a form. -/
def rating (callId : String) (form : Int) (s : Scores) : Value :=
  .object
    [("answers", .array (s.scores.map fun n => .object [("score", Value.int n)])),
     ("call_id", .string callId),
     ("comment", .string s.comment),
     ("form", .object [("id", Value.int form)])]

end Scores

end CallAudit.Verdict
