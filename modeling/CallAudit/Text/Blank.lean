/-
CallAudit.Text.Blank — blank characters and trimming.

* `isBlank` — the characters with the Unicode property White_Space.
* `trimStart`, `trimEnd`, `trim` — a text without the blanks at one end
  or at both.
* `trimmed`, `nonBlank` — the same on `String`: the trimmed text, and the
  trimmed text unless nothing is left of it.

The functions work on `List Char`, where a proof can follow them; the
`String` forms are wrappers.
-/

namespace CallAudit.Text

/-- The twenty-five characters with the property White_Space: the ASCII
controls from tab to carriage return, the space, and the spaces and
separators beyond ASCII. A zero width space or a byte order mark is not
blank. -/
def isBlank (c : Char) : Bool :=
  let n := c.toNat
  (9 ≤ n && n ≤ 13) || n == 0x20 || n == 0x85 || n == 0xA0 || n == 0x1680
    || (0x2000 ≤ n && n ≤ 0x200A) || n == 0x2028 || n == 0x2029 || n == 0x202F
    || n == 0x205F || n == 0x3000

/-- A text without the blanks it starts with. -/
def trimStart (cs : List Char) : List Char :=
  cs.dropWhile isBlank

/-- A text without the blanks it ends with. -/
def trimEnd (cs : List Char) : List Char :=
  (cs.reverse.dropWhile isBlank).reverse

/-- A text without the blanks at its two ends. -/
def trim (cs : List Char) : List Char :=
  trimEnd (trimStart cs)

/-- A string without the blanks at its two ends. -/
def trimmed (s : String) : String :=
  String.ofList (trim s.toList)

/-- Whether nothing but blanks is in a string. -/
def allBlank (s : String) : Bool :=
  s.toList.all isBlank

/-- The trimmed string, unless it is empty. -/
def nonBlank (s : String) : Option String :=
  if (trimmed s).isEmpty then none else some (trimmed s)

end CallAudit.Text
