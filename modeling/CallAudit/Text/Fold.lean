/-
CallAudit.Text.Fold — comparing words without regard to the case of ASCII
letters.

* `foldCase` — an ASCII capital becomes its small letter.
* `eqFold` — two texts are equal up to the case of ASCII letters.
* `afterLabel` — what follows a label at the start of a line.
* `isWordOf` — whether a string, trimmed, is one of some words.
-/
import CallAudit.Text.Blank

namespace CallAudit.Text

/-- The small letter of an ASCII capital; any other character stays. -/
def foldCase (c : Char) : Char :=
  if 'A' ≤ c ∧ c ≤ 'Z' then Char.ofNat (c.toNat + 32) else c

/-- Equality up to the case of ASCII letters. -/
def eqFold (a b : List Char) : Bool :=
  a.map foldCase == b.map foldCase

/-- The trimmed rest of a line that begins with `label` up to the case of
ASCII letters. A character outside ASCII equals none of a label's, so it
does not matter whether a line is cut by characters or by bytes. -/
def afterLabel (label line : List Char) : Option (List Char) :=
  if eqFold (line.take label.length) label then some (trim (line.drop label.length)) else none

/-- Whether a string is one of `words` once it is trimmed and in small
letters. The words are ASCII without a `k`; since the Kelvin sign, whose
small letter is `k`, is the only character outside ASCII with an ASCII
small letter, folding the ASCII letters decides. -/
def isWordOf (words : List String) (s : String) : Bool :=
  words.any fun w => (trim s.toList).map foldCase == w.toList

end CallAudit.Text
