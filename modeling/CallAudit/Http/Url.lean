/-
CallAudit.Http.Url — what a URL asks a server for.

* `clean` — a URL without the blanks around it and the line ends in it.
* `resolve` — the segments of a path with those of one and two dots worked
  out.
* `target?` — the path and the query of a URL in the form in which they are
  sent, if the URL is one of a server.
-/
import CallAudit.Text.Fold
import CallAudit.Text.Utf8

namespace CallAudit.Http

/-! ## Characters -/

/-- A hexadecimal digit in capital letters. -/
def upperHex (n : Nat) : Char :=
  if n < 10 then Char.ofNat (48 + n) else Char.ofNat (55 + n)

/-- A byte as a percent sign and two digits. -/
def percent (b : UInt8) : List Char :=
  ['%', upperHex (b.toNat / 16), upperHex (b.toNat % 16)]

/-- Text in which the characters of a set, control characters and those
outside ASCII stand as the bytes they are made of. -/
def encode (set : List Char) (cs : List Char) : List Char :=
  cs.flatMap fun c =>
    if c.toNat < 33 || 126 < c.toNat || set.contains c then
      (Text.Utf8.encode [c]).flatMap percent
    else [c]

/-- The characters that do not stand for themselves in a path. -/
def pathSet : List Char := ['"', '<', '>', '\x60', '\x7b', '\x7d']

/-- The characters that do not stand for themselves in a query. -/
def querySet : List Char := ['"', '<', '>', '\'']

/-! ## The parts of a URL -/

/-- A URL without control characters and spaces at its ends, and without
tabs and line ends anywhere. -/
def clean (cs : List Char) : List Char :=
  let outer (c : Char) : Bool := c.toNat ≤ 32
  let cs := ((cs.dropWhile outer).reverse.dropWhile outer).reverse
  cs.filter fun c => !(c == '\t' || c == '\n' || c == '\r')

/-- Whether a character separates segments of a path. -/
def isSlash (c : Char) : Bool := c == '/' || c == '\\'

/-- The segments of a path after its first slash. -/
def segments : List Char → List (List Char)
  | [] => [[]]
  | c :: rest =>
    if isSlash c then [] :: segments rest
    else
      match segments rest with
      | [] => [[c]]
      | s :: more => (c :: s) :: more

/-- Whether a segment is one dot, which may stand as its byte. -/
def isDot (s : List Char) : Bool :=
  s == ['.'] || Text.eqFold s ['%', '2', 'e']

/-- Whether a segment is two dots. -/
def isTwoDots (s : List Char) : Bool :=
  (1 ≤ s.length && isDot (s.take 1) && isDot (s.drop 1))
    || (3 ≤ s.length && isDot (s.take 3) && isDot (s.drop 3))

/-- Segments with dots worked out, `above` being the segments before them
from the last one on: one dot is left out, two dots take the segment before
them away, and either leaves an empty segment at the end of the path. -/
def resolve (above : List (List Char)) : List (List Char) → List (List Char)
  | [] => above.reverse
  | [s] =>
    if isTwoDots s then ([] :: above.drop 1).reverse
    else if isDot s then ([] :: above).reverse
    else (encode pathSet s :: above).reverse
  | s :: rest =>
    if isTwoDots s then resolve (above.drop 1) rest
    else if isDot s then resolve above rest
    else resolve (encode pathSet s :: above) rest

/-- What follows a scheme that has servers. -/
def afterScheme? (cs : List Char) : Option (List Char) :=
  if Text.eqFold (cs.take 7) ['h', 't', 't', 'p', ':', '/', '/'] then some (cs.drop 7)
  else if Text.eqFold (cs.take 8) ['h', 't', 't', 'p', 's', ':', '/', '/'] then some (cs.drop 8)
  else none

/-- The characters that cannot stand in the name of a server, besides
controls, spaces and those outside ASCII. -/
def hostSet : List Char := ['"', '#', '%', '<', '>', '^', '\x60', '\x7b', '|', '\x7d']

/-- Whether a character may stand in the name of a server. -/
def isHostChar (c : Char) : Bool :=
  32 < c.toNat && c.toNat < 127 && !hostSet.contains c

/-- The path of what follows the name of a server. -/
def pathOf (cs : List Char) : List Char :=
  (resolve [] (segments (cs.drop 1))).flatMap fun s => '/' :: s

/-- The path and the query of a URL. -/
def target? (url : String) : Option String := do
  let rest ← afterScheme? (clean url.toList)
  let ends (c : Char) : Bool := isSlash c || c == '?' || c == '#'
  let host := rest.takeWhile fun c => !ends c
  if host.isEmpty || !host.all isHostChar then none
  else
    let rest := (rest.drop host.length).takeWhile (· != '#')
    let path := rest.takeWhile (· != '?')
    let query := rest.drop path.length
    some (String.ofList (pathOf path ++ encode querySet query))

end CallAudit.Http
