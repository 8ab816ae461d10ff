/-
CallAudit.Text.Utf8 — bytes as UTF-8.

* `scalar?` — the character at the head of some bytes and its length.
* `glyphs` — bytes as a list of glyphs: a character, or `none` for a byte
  that is part of no character.
* `lossy` — bytes as text, each longest cut-off sequence replaced by
  U+FFFD.
* `encode` — a text as bytes.
-/

namespace CallAudit.Text.Utf8

/-- A character, or one byte that is part of no character. -/
abbrev Glyph := Option Char

/-- The number of bytes of a glyph. -/
def glyphSize : Glyph → Nat
  | some c => c.utf8Size
  | none => 1

/-- The number of bytes of some glyphs. -/
def glyphsSize (gs : List Glyph) : Nat :=
  gs.foldl (fun n g => n + glyphSize g) 0

/-- Whether a byte continues a character. -/
def isTail (b : UInt8) : Bool :=
  0x80 ≤ b && b ≤ 0xBF

/-- Whether `b` may follow `a`, the first byte of a character of two bytes
or more. The first byte narrows the second so that no character has two
spellings, no surrogate has one and none lies above U+10FFFF. -/
def maySecond (a b : UInt8) : Bool :=
  if a == 0xE0 then 0xA0 ≤ b && b ≤ 0xBF
  else if a == 0xED then 0x80 ≤ b && b ≤ 0x9F
  else if a == 0xF0 then 0x90 ≤ b && b ≤ 0xBF
  else if a == 0xF4 then 0x80 ≤ b && b ≤ 0x8F
  else isTail b

/-- The number of bytes of a character by its first byte, zero if no
character starts so. -/
def lengthOf (a : UInt8) : Nat :=
  if a < 0x80 then 1
  else if 0xC2 ≤ a && a ≤ 0xDF then 2
  else if 0xE0 ≤ a && a ≤ 0xEF then 3
  else if 0xF0 ≤ a && a ≤ 0xF4 then 4
  else 0

/-- The character at the head of some bytes, with the bytes after it. -/
def scalar? : List UInt8 → Option (Char × List UInt8)
  | [] => none
  | a :: rest =>
    match lengthOf a, rest with
    | 1, _ => some (Char.ofNat a.toNat, rest)
    | 2, b :: rest =>
      if maySecond a b then
        some (Char.ofNat ((a.toNat % 32) * 64 + b.toNat % 64), rest)
      else none
    | 3, b :: c :: rest =>
      if maySecond a b && isTail c then
        some (Char.ofNat ((a.toNat % 16) * 4096 + (b.toNat % 64) * 64 + c.toNat % 64), rest)
      else none
    | 4, b :: c :: d :: rest =>
      if maySecond a b && isTail c && isTail d then
        some (Char.ofNat ((a.toNat % 8) * 262144 + (b.toNat % 64) * 4096
          + (c.toNat % 64) * 64 + d.toNat % 64), rest)
      else none
    | _, _ => none

/-- The number of bytes, at least one, of the longest start of a character
that heads bytes no character heads. -/
def stubLength : List UInt8 → Nat
  | [] => 1
  | a :: rest =>
    match rest with
    | [] => 1
    | b :: rest =>
      if lengthOf a ≤ 2 || !maySecond a b then 1
      else
        match rest with
        | [] => 2
        | c :: _ => if lengthOf a == 4 && isTail c then 3 else 2

/-- The glyphs of some bytes. `fuel` bounds the number of glyphs; each
takes a byte, so the number of bytes is enough. -/
def glyphsFrom : Nat → List UInt8 → List Glyph
  | 0, _ => []
  | _ + 1, [] => []
  | fuel + 1, a :: rest =>
    match scalar? (a :: rest) with
    | some (c, after) => some c :: glyphsFrom fuel after
    | none => none :: glyphsFrom fuel rest

/-- Bytes as glyphs. -/
def glyphs (bytes : List UInt8) : List Glyph :=
  glyphsFrom bytes.length bytes

/-- The characters of some bytes with each cut-off sequence replaced. -/
def lossyFrom : Nat → List UInt8 → List Char
  | 0, _ => []
  | _ + 1, [] => []
  | fuel + 1, a :: rest =>
    match scalar? (a :: rest) with
    | some (c, after) => c :: lossyFrom fuel after
    | none => '\uFFFD' :: lossyFrom fuel ((a :: rest).drop (stubLength (a :: rest)))

/-- Bytes as text: what is no UTF-8 is replaced by U+FFFD. -/
def lossy (bytes : List UInt8) : List Char :=
  lossyFrom bytes.length bytes

/-- A text as bytes. -/
def encode (cs : List Char) : List UInt8 :=
  cs.flatMap String.utf8EncodeChar

end CallAudit.Text.Utf8
