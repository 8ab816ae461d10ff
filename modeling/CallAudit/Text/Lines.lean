/-
CallAudit.Text.Lines — lines and pieces of a text.

* `lines` — a line ends at a line feed, and one carriage return before
  the line feed belongs to the line end. A carriage return elsewhere is an
  ordinary character, and a line feed at the end of the text opens no
  further line.
* `pieces` — what stands between the occurrences of one character.
* `replaceFirst` — a text with the first occurrence of a pattern replaced.
-/

namespace CallAudit.Text

/-- The lines of a text, without their line ends. -/
def lines : List Char → List (List Char)
  | [] => []
  | '\n' :: rest => [] :: lines rest
  | '\r' :: '\n' :: rest => [] :: lines rest
  | c :: rest =>
    match lines rest with
    | [] => [[c]]
    | line :: more => (c :: line) :: more

/-- The pieces of a text between the occurrences of `sep`; there is one
piece more than there are occurrences. -/
def pieces (sep : Char) : List Char → List (List Char)
  | [] => [[]]
  | c :: rest =>
    if c = sep then [] :: pieces sep rest
    else
      match pieces sep rest with
      | [] => [[c]]
      | piece :: more => (c :: piece) :: more

/-- A text with the first occurrence of `pattern` replaced by `by_`. A
text without an occurrence is unchanged. -/
def replaceFirst (pattern by_ : List Char) : List Char → List Char
  | [] => if pattern.isEmpty then by_ else []
  | c :: rest =>
    if pattern.isPrefixOf (c :: rest) then by_ ++ (c :: rest).drop pattern.length
    else c :: replaceFirst pattern by_ rest

/-- `replaceFirst` on strings. -/
def fill (template pattern by_ : String) : String :=
  String.ofList (replaceFirst pattern.toList by_.toList template.toList)

end CallAudit.Text
