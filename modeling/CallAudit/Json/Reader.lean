/-
CallAudit.Json.Reader — reading a JSON text into a node.

* `readQuoted` — a string after its opening quote, once as it is when it is
  kept and once as it is when it is skipped.
* `readNumeral` — a number.
* `readNode` — a value, with what follows it; nothing follows a value that
  could not be read to its end.
* `parse` — the value a whole text denotes.

The reader takes glyphs, so that a byte that belongs to no character can
stand in a string that is skipped.
-/
import CallAudit.Json.Node
import CallAudit.Text.Utf16
import CallAudit.Text.Utf8

namespace CallAudit.Json

open CallAudit.Text.Utf8 (Glyph glyphsSize)
open CallAudit.Text.Utf16 (isLead isTrail join)

/-- Glyphs after the white space that JSON allows between tokens: space,
tab, line feed and carriage return. -/
def skipSpace : List Glyph → List Glyph
  | [] => []
  | g :: rest =>
    if g = some ' ' ∨ g = some '\n' ∨ g = some '\t' ∨ g = some '\r' then skipSpace rest
    else g :: rest

/-! ## Strings -/

/-- The value of a hexadecimal digit. -/
def hexDigit? : Glyph → Option Nat
  | none => none
  | some c =>
    if '0' ≤ c ∧ c ≤ '9' then some (c.toNat - 48)
    else if 'a' ≤ c ∧ c ≤ 'f' then some (c.toNat - 87)
    else if 'A' ≤ c ∧ c ≤ 'F' then some (c.toNat - 55)
    else none

/-- The value of four hexadecimal digits. -/
def hex4? (a b c d : Glyph) : Option Nat := do
  let a ← hexDigit? a
  let b ← hexDigit? b
  let c ← hexDigit? c
  let d ← hexDigit? d
  return 4096 * a + 256 * b + 16 * c + d

/-- The character of a one letter escape. -/
def escaped? : Char → Option Char
  | '"' => some '"'
  | '\\' => some '\\'
  | '/' => some '/'
  | 'b' => some '\x08'
  | 'f' => some '\x0c'
  | 'n' => some '\n'
  | 'r' => some '\r'
  | 't' => some '\t'
  | _ => none

/-- A text that has failed stays failed as it first did. -/
def failed (kept : Except Fault (List Char)) (f : Fault) : Except Fault (List Char) :=
  match kept with
  | .error g => .error g
  | .ok _ => .error f

/-- A text with one character more. -/
def push (kept : Except Fault (List Char)) (c : Char) : Except Fault (List Char) :=
  kept.map (c :: ·)

/-- The rest of a string: its text when it is kept and what follows it when
it is skipped. `lead` is the first half of a surrogate pair whose second
half has to follow at once; `stray` tells of a byte that belongs to no
character, which counts only where the string ends. The text is gathered
in `kept`, last character first. -/
def readQuoted : Option Nat → Bool → Except Fault (List Char) → List Glyph →
    Except Fault (List Char) × Except Fault (List Glyph)
  | _, _, kept, [] => (failed kept .early, .error .early)
  | lead, stray, kept, some '"' :: rest =>
    let kept := if lead.isSome || stray then failed kept .malformed else kept
    (kept.map List.reverse, .ok rest)
  | _, _, kept, [some '\\'] => (failed kept .early, .error .early)
  | lead, stray, kept, some '\\' :: some 'u' :: a :: b :: c :: d :: rest =>
    match hex4? a b c d with
    | none => (failed kept .malformed, .error .malformed)
    | some n =>
      match lead with
      | some high =>
        if isTrail n then readQuoted none stray (push kept (join high n)) rest
        else readQuoted none stray (failed kept .malformed) rest
      | none =>
        if isLead n then readQuoted (some n) stray kept rest
        else if isTrail n then readQuoted none stray (failed kept .malformed) rest
        else readQuoted none stray (push kept (Char.ofNat n)) rest
  | _, _, kept, some '\\' :: some 'u' :: short =>
    let f := if 4 ≤ glyphsSize short then Fault.malformed else Fault.early
    (failed kept f, .error f)
  | lead, stray, kept, some '\\' :: some c :: rest =>
    let kept := if lead.isSome then failed kept .malformed else kept
    match escaped? c with
    | some d => readQuoted none stray (push kept d) rest
    | none => (failed kept .malformed, .error .malformed)
  | _, _, kept, some '\\' :: none :: _ => (failed kept .malformed, .error .malformed)
  | lead, stray, kept, some c :: rest =>
    if c.toNat < 32 then (failed kept .malformed, .error .malformed)
    else
      let kept := if lead.isSome then failed kept .malformed else kept
      readQuoted none stray (push kept c) rest
  | lead, _, kept, none :: rest =>
    let kept := if lead.isSome then failed kept .malformed else kept
    readQuoted none true kept rest

/-- A string after its opening quote. -/
def readString (cs : List Glyph) : Quotation × Option (List Glyph) :=
  match readQuoted none false (.ok []) cs with
  | (text, .ok rest) => (.whole (text.map String.ofList), some rest)
  | (.error kept, .error skipped) => (.torn kept skipped, none)
  | (.ok _, .error skipped) => (.torn skipped skipped, none)

/-! ## Numbers -/

/-- The value of a decimal digit. -/
def decimal? : Glyph → Option Nat
  | none => none
  | some c => if '0' ≤ c ∧ c ≤ '9' then some (c.toNat - 48) else none

/-- The digits at the head of some glyphs, and the glyphs after them. -/
def takeDigits : List Glyph → List Nat × List Glyph
  | [] => ([], [])
  | g :: rest =>
    match decimal? g with
    | some d =>
      let (ds, after) := takeDigits rest
      (d :: ds, after)
    | none => ([], g :: rest)

/-- Digits that have to be there. A number that ends without them ends too
early if it is kept, and is malformed if it is skipped. -/
def needDigits (cs : List Glyph) : Except Node (List Nat × List Glyph) :=
  match takeDigits cs with
  | ([], []) => .error (.broken .early .malformed)
  | ([], _ :: _) => .error (.broken .malformed .malformed)
  | found => .ok found

/-- The digits before the point: a zero stands alone. -/
def readWhole (cs : List Glyph) : Except Node (List Nat × List Glyph) := do
  let (ds, rest) ← needDigits cs
  match ds with
  | 0 :: _ :: _ => .error (.broken .malformed .malformed)
  | _ => .ok (ds, rest)

/-- The digits after a point, if there is one. -/
def readPart (cs : List Glyph) : Except Node (Option (List Nat) × List Glyph) :=
  match cs with
  | some '.' :: rest => do
    let (ds, rest) ← needDigits rest
    return (some ds, rest)
  | _ => .ok (none, cs)

/-- The exponent, if there is one. -/
def readExponent (cs : List Glyph) : Except Node (Option Int × List Glyph) :=
  let value (ds : List Nat) : Nat := ds.foldl (fun n d => 10 * n + d) 0
  match cs with
  | some c :: rest =>
    if c = 'e' ∨ c = 'E' then
      match rest with
      | some '-' :: rest => do
        let (ds, rest) ← needDigits rest
        return (some (-(value ds : Int)), rest)
      | some '+' :: rest => do
        let (ds, rest) ← needDigits rest
        return (some (value ds : Int), rest)
      | _ => do
        let (ds, rest) ← needDigits rest
        return (some (value ds : Int), rest)
    else .ok (none, cs)
  | _ => .ok (none, cs)

/-- A number after its sign. -/
def readUnsigned (neg : Bool) (cs : List Glyph) : Except Node (Numeral × List Glyph) := do
  let (whole, rest) ← readWhole cs
  let (part, rest) ← readPart rest
  let (exp, rest) ← readExponent rest
  return (⟨neg, whole, part, exp⟩, rest)

/-- A number. -/
def readNumeral (cs : List Glyph) : Node × Option (List Glyph) :=
  let found :=
    match cs with
    | some '-' :: rest => readUnsigned true rest
    | _ => readUnsigned false cs
  match found with
  | .ok (x, rest) => (.number x.value, some rest)
  | .error node => (node, none)

/-! ## Values -/

/-- The rest of a word that stands for `node`. -/
def readWord (node : Node) : List Char → List Glyph → Node × Option (List Glyph)
  | [], rest => (node, some rest)
  | _ :: _, [] => (.broken .early .early, none)
  | c :: word, g :: rest =>
    if g = some c then readWord node word rest else (.broken .malformed .malformed, none)

mutual

/-- A value, after the white space before it. The fuel is spent by one for
each bracket, item and member, of which a text of `n` glyphs has no more
than `n`. -/
def readNode : Nat → List Glyph → Node × Option (List Glyph)
  | 0, _ => (.absent, none)
  | fuel + 1, cs =>
    match skipSpace cs with
    | [] => (.absent, none)
    | some 'n' :: rest => readWord .null ['u', 'l', 'l'] rest
    | some 't' :: rest => readWord (.bool true) ['r', 'u', 'e'] rest
    | some 'f' :: rest => readWord (.bool false) ['a', 'l', 's', 'e'] rest
    | some '"' :: rest =>
      let (quotation, after) := readString rest
      (.string quotation, after)
    | some '[' :: rest =>
      let (items, after) := readItems fuel true rest
      (.array items, after)
    | some '{' :: rest =>
      let (members, after) := readMembers fuel true rest
      (.object members, after)
    | g :: rest =>
      if g = some '-' ∨ (decimal? g).isSome then readNumeral (g :: rest)
      else (.broken .malformed .malformed, none)

/-- The items of an array, after its bracket or after an item. -/
def readItems : Nat → Bool → List Glyph → Items × Option (List Glyph)
  | 0, _, _ => (.cut .early, none)
  | fuel + 1, first, cs =>
    match skipSpace cs with
    | [] => (.cut .early, none)
    | some ']' :: rest => (.closed, some rest)
    | g :: rest =>
      if first then readItem fuel (g :: rest)
      else if g = some ',' then
        match skipSpace rest with
        | some ']' :: _ => (.cons (.broken .malformed .malformed) (.cut .malformed), none)
        | rest => readItem fuel rest
      else (.cut .malformed, none)

/-- An item and those after it. -/
def readItem : Nat → List Glyph → Items × Option (List Glyph)
  | 0, _ => (.cut .early, none)
  | fuel + 1, cs =>
    match readNode fuel cs with
    | (node, none) => (.cons node (.cut .malformed), none)
    | (node, some rest) =>
      let (items, after) := readItems fuel false rest
      (.cons node items, after)

/-- The members of an object, after its bracket or after a member. -/
def readMembers : Nat → Bool → List Glyph → Members × Option (List Glyph)
  | 0, _, _ => (.cut .early, none)
  | fuel + 1, first, cs =>
    match skipSpace cs with
    | [] => (.cut .early, none)
    | some '}' :: rest => (.closed, some rest)
    | g :: rest =>
      if first then readMember fuel (g :: rest)
      else if g = some ',' then
        match skipSpace rest with
        | some '}' :: _ =>
          (.cons (.torn .malformed .malformed) .absent (.cut .malformed), none)
        | rest => readMember fuel rest
      else (.cut .malformed, none)

/-- A member and those after it. Nothing but a quote can begin a name, so
anything else is malformed at once. -/
def readMember : Nat → List Glyph → Members × Option (List Glyph)
  | 0, _ => (.cut .early, none)
  | fuel + 1, cs =>
    match skipSpace cs with
    | [] => (.cons (.torn .early .early) .absent (.cut .early), none)
    | some '"' :: rest =>
      match readString rest with
      | (name, none) => (.cons name .absent (.cut .malformed), none)
      | (name, some rest) =>
        match skipSpace rest with
        | [] => (.cons name .absent (.cut .early), none)
        | some ':' :: rest =>
          match readNode fuel rest with
          | (node, none) => (.cons name node (.cut .malformed), none)
          | (node, some rest) =>
            let (members, after) := readMembers fuel false rest
            (.cons name node members, after)
        | _ :: _ => (.cons name (.broken .malformed .malformed) (.cut .malformed), none)
    | _ :: _ => (.cons (.torn .malformed .malformed) .absent (.cut .malformed), none)

end

/-- A text as a node and what follows it. -/
def readText (cs : List Glyph) : Node × Option (List Glyph) :=
  readNode (3 * cs.length + 3) cs

/-- What `decode` makes of the value a text denotes, as long as nothing but
white space follows that value. -/
def decodeText {α : Type} (decode : Node → Except Fault α) (cs : List Glyph) :
    Except Fault α := do
  let (node, after) := readText cs
  let a ← decode node
  match after.map skipSpace with
  | some [] => .ok a
  | some (_ :: _) => .error .malformed
  | none => .error .early

/-- The value a whole text denotes. -/
def parse (s : String) : Except Fault Value :=
  decodeText (Node.value (some 127)) (s.toList.map some)

end CallAudit.Json
