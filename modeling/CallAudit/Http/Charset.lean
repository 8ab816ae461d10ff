/-
CallAudit.Http.Charset — the text of a body.

* `Charset` — the character sets that bodies come in.
* `Charset.ofName`, `Charset.ofContentType` — the character set of a name,
  and the one a content type names; UTF-8 if it names none.
* `Charset.ofMark` — the character set that a byte order mark tells.
* `bodyText` — the text of some bytes in a character set.
-/
import CallAudit.Http.ContentType
import CallAudit.Text.Utf16
import CallAudit.Text.Utf8

namespace CallAudit.Http

/-- A character set. -/
inductive Charset where
  | utf8
  | utf16 (bigEndian : Bool)
  | windows1252
  /-- A set that is not read because what is harmless in one set is not in
  another. -/
  | unread
deriving DecidableEq, Repr

namespace Charset

/-- The names of UTF-16 with the lesser byte first. -/
def littleNames : List String :=
  ["csunicode", "iso-10646-ucs-2", "ucs-2", "unicode", "unicodefeff", "utf-16", "utf-16le"]

/-- The names of UTF-16 with the greater byte first. -/
def bigNames : List String :=
  ["unicodefffe", "utf-16be"]

/-- The names of Windows-1252. Latin-1 and ASCII are read as it. -/
def windowsNames : List String :=
  ["ansi_x3.4-1968", "ascii", "cp1252", "cp819", "csisolatin1", "ibm819", "iso-8859-1",
    "iso-ir-100", "iso8859-1", "iso88591", "iso_8859-1", "iso_8859-1:1987", "l1", "latin1",
    "us-ascii", "windows-1252", "x-cp1252"]

/-- The names of the sets that are not read. -/
def unreadNames : List String :=
  ["csiso2022kr", "hz-gb-2312", "iso-2022-cn", "iso-2022-cn-ext", "iso-2022-kr", "replacement"]

/-- The character set of a name, in any case and with blanks around it. -/
def ofName (name : List Char) : Charset :=
  let isBlank (c : Char) : Bool := [' ', '\t', '\n', '\x0c', '\r'].contains c
  let name := ((name.dropWhile isBlank).reverse.dropWhile isBlank).reverse
  let isOf (names : List String) : Bool := names.any fun w => Text.eqFold name w.toList
  if isOf littleNames then utf16 false
  else if isOf bigNames then utf16 true
  else if isOf windowsNames then windows1252
  else if isOf unreadNames then unread
  else utf8

/-- The character set that a content type names. -/
def ofContentType (contentType : Option String) : Charset :=
  match contentType.bind ContentType.charset? with
  | some name => ofName name
  | none => utf8

/-- The character set that the byte order mark at the head of some bytes
tells, and the bytes after the mark. -/
def ofMark : List UInt8 → Option (Charset × List UInt8)
  | 0xEF :: 0xBB :: 0xBF :: rest => some (utf8, rest)
  | 0xFF :: 0xFE :: rest => some (utf16 false, rest)
  | 0xFE :: 0xFF :: rest => some (utf16 true, rest)
  | _ => none

end Charset

/-- What Windows-1252 has where Latin-1 has control characters. -/
def windowsBlock : List Nat :=
  [0x20AC, 0x0081, 0x201A, 0x0192, 0x201E, 0x2026, 0x2020, 0x2021,
   0x02C6, 0x2030, 0x0160, 0x2039, 0x0152, 0x008D, 0x017D, 0x008F,
   0x0090, 0x2018, 0x2019, 0x201C, 0x201D, 0x2022, 0x2013, 0x2014,
   0x02DC, 0x2122, 0x0161, 0x203A, 0x0153, 0x009D, 0x017E, 0x0178]

/-- The character of a byte in Windows-1252. -/
def windowsChar (b : UInt8) : Char :=
  Char.ofNat ((if 0x80 ≤ b then windowsBlock[b.toNat - 0x80]? else none).getD b.toNat)

/-- The text of some bytes in a character set. Of a set that is not read
one U+FFFD stands for all of the text. -/
def Charset.decode : Charset → List UInt8 → List Char
  | utf8, bytes => Text.Utf8.lossy bytes
  | utf16 bigEndian, bytes => Text.Utf16.lossy bigEndian bytes
  | windows1252, bytes => bytes.map windowsChar
  | unread, [] => []
  | unread, _ :: _ => ['\uFFFD']

/-- The text of some bytes. A byte order mark at their head is left out,
and what it tells goes before what was named. -/
def bodyText (named : Charset) (bytes : List UInt8) : String :=
  let (charset, bytes) := (Charset.ofMark bytes).getD (named, bytes)
  String.ofList (charset.decode bytes)

end CallAudit.Http
