/-
CallAudit.Http.ContentType — the parameters of a content type.

* `isTokenChar`, `takeToken` — the words a content type is made of.
* `parameter?` — a name with its value, which may stand in quotes.
* `ContentType.parameters?` — the parameters of a content type such as
  `text/plain; charset=utf-8`, none if it is not written as it has to be.
* `ContentType.charset?` — the first parameter with the name `charset`.
-/
import CallAudit.Text.Fold

namespace CallAudit.Http

/-! ## Words -/

/-- Whether a character may stand in a word: a letter, a digit or one of
some signs. -/
def isTokenChar (c : Char) : Bool :=
  ('a' ≤ c && c ≤ 'z') || ('A' ≤ c && c ≤ 'Z') || ('0' ≤ c && c ≤ '9')
    || "!#$%&'*+-.^_`|~".toList.contains c

/-- The word at the head of some characters, which may be empty, and what
follows it. -/
def takeToken (cs : List Char) : List Char × List Char :=
  (cs.takeWhile isTokenChar, cs.dropWhile isTokenChar)

/-! ## Parameters -/

/-- The value of a parameter after its opening quote, and what follows the
closing one. There is no escape. The first character belongs to the value
even if it is a quote. -/
def takeQuotedValue? : List Char → Option (List Char × List Char)
  | [] => none
  | c :: cs =>
    let isPlain (d : Char) : Bool := 32 ≤ d.toNat && d.toNat != 127
    let goesOn (d : Char) : Bool := d != '"' && isPlain d
    match cs.dropWhile goesOn with
    | '"' :: rest => if isPlain c then some (c :: cs.takeWhile goesOn, rest) else none
    | _ => none

/-- A parameter with the semicolon after it, if there is one. Blanks may
stand after a value in quotes only, and a value without quotes may be empty
only at the very end. -/
def parameter? (cs : List Char) : Option ((List Char × List Char) × List Char) :=
  match takeToken cs with
  | ([], _) => none
  | (name, '=' :: '"' :: rest) => do
    let (value, rest) ← takeQuotedValue? rest
    match rest.dropWhile (· == ' ') with
    | [] => some ((name, value), [])
    | ';' :: rest => some ((name, value), rest)
    | _ => none
  | (name, '=' :: rest) =>
    match takeToken rest with
    | (value, []) => some ((name, value), [])
    | (c :: value, ';' :: rest) => some ((name, c :: value), rest)
    | _ => none
  | _ => none

/-- Parameters one after the other, with spaces before them. Each takes
two characters or more, so their number bounds the `fuel` needed. -/
def parametersFrom : Nat → List Char → Option (List (List Char × List Char))
  | 0, _ => none
  | fuel + 1, cs =>
    match cs.dropWhile (· == ' ') with
    | [] => some []
    | cs => do
      let (found, rest) ← parameter? cs
      return found :: (← parametersFrom fuel rest)

/-! ## Content types -/

namespace ContentType

/-- The parameters of a content type. -/
def parameters? (contentType : List Char) : Option (List (List Char × List Char)) :=
  match takeToken contentType with
  | (_ :: _, '/' :: rest) =>
    match takeToken rest with
    | (_, []) => some []
    | (_ :: _, ';' :: rest) => parametersFrom (rest.length + 1) rest
    | _ => none
  | _ => none

/-- The character set that a content type names. A content type that has a
character outside ASCII is not looked at. -/
def charset? (contentType : String) : Option (List Char) := do
  let cs := contentType.toList
  if cs.all fun c => c.toNat < 128 then
    let found ← parameters? cs
    (found.find? fun (name, _) => Text.eqFold name "charset".toList).map Prod.snd
  else none

end ContentType

end CallAudit.Http
