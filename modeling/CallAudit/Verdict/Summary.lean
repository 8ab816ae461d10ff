/-
CallAudit.Verdict.Summary — the summary and the category in a reply.

* `Summary` — what a reply says, as far as it says it.
* `Summary.read` — the first line labelled as the summary and the first
  one labelled as the category, found in one pass over the lines.
* `Summary.isEmpty` — whether neither label was found.
-/
import CallAudit.Text.Fold
import CallAudit.Text.Lines

namespace CallAudit.Verdict

open CallAudit.Text (afterLabel lines trimStart)

/-- A summary and a category, each where a reply has its label. -/
structure Summary where
  summary : Option String
  category : Option String
deriving DecidableEq, Repr, Inhabited

namespace Summary

/-- The label of a summary. -/
def summaryLabel : List Char := ['s', 'u', 'm', 'm', 'a', 'r', 'y', ':']

/-- The label of a category. -/
def categoryLabel : List Char := ['c', 'a', 't', 'e', 'g', 'o', 'r', 'y', ':']

/-- A summary with what one more line adds to it. A label seen before is
not looked for again. -/
def take (found : Summary) (line : List Char) : Summary :=
  let line := trimStart line
  match found.summary, afterLabel summaryLabel line with
  | none, some text => { found with summary := some (String.ofList text) }
  | _, _ =>
    match found.category, afterLabel categoryLabel line with
    | none, some text => { found with category := some (String.ofList text) }
    | _, _ => found

/-- What a reply says. -/
def read (reply : String) : Summary :=
  (lines reply.toList).foldl take ⟨none, none⟩

/-- Whether a reply has neither label. -/
def isEmpty (found : Summary) : Bool :=
  found.summary.isNone && found.category.isNone

end Summary

end CallAudit.Verdict
