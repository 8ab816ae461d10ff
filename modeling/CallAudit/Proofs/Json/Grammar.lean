/-
CallAudit.Proofs.Json.Grammar — the texts that denote a value.

The grammar says which texts denote which values, and nothing about how a
text is read. A phrase is related to a text that begins with it and to what
follows it there, so that phrases are put together without cutting texts
into pieces.

* `Space` — the white space that may stand between tokens.
* `Letters` — the characters of a string as they may be spelled in quotes.
* `Numeral.Spelled` — a number in digits.
* `Writes` — a value, the items of an array or the members of an object at
  the head of a text.
* `Written` — a whole text, with white space around a value.
* `Denotes` — a text that denotes a value, whatever order it gives the
  members of objects in.
-/
import CallAudit.Json.Printer
import CallAudit.Json.Reader
import CallAudit.Number.Decimal

namespace CallAudit.Json

open CallAudit.Number (isDigit digitValue digitsValue)
open CallAudit.Text.Utf16 (isLead isTrail join)

/-! ## White space -/

/-- The four characters that mean nothing between tokens. -/
def isSpace (c : Char) : Bool :=
  c == ' ' || c == '\n' || c == '\t' || c == '\r'

/-- A text, and the same text without some of the white space at its head. -/
inductive Space : List Char → List Char → Prop where
  | none (t : List Char) : Space t t
  | char {c : Char} {t u : List Char} : isSpace c = true → Space t u → Space (c :: t) u

/-! ## Strings -/

/-- The characters of a string, and a spelling of them. A character may stand
for itself, be escaped by a letter, or be spelled as one or two units of
sixteen bits. -/
inductive Letters : List Char → List Char → Prop where
  | nil : Letters [] []
  | plain {c : Char} {cs t : List Char} : 32 ≤ c.toNat → c ≠ '"' → c ≠ '\\' → Letters cs t →
      Letters (c :: cs) (c :: t)
  | letter {e c : Char} {cs t : List Char} : escaped? e = some c → Letters cs t →
      Letters (c :: cs) ('\\' :: e :: t)
  | unit {a b c d : Char} {n : Nat} {cs t : List Char} : hex4? a b c d = some n →
      isLead n = false → isTrail n = false → Letters cs t →
      Letters (Char.ofNat n :: cs) ('\\' :: 'u' :: a :: b :: c :: d :: t)
  | pair {a b c d e f g h : Char} {high low : Nat} {cs t : List Char} :
      hex4? a b c d = some high → isLead high = true →
      hex4? e f g h = some low → isTrail low = true → Letters cs t →
      Letters (join high low :: cs)
        ('\\' :: 'u' :: a :: b :: c :: d :: '\\' :: 'u' :: e :: f :: g :: h :: t)

/-! ## Numbers -/

/-- A run of digits, at least one. -/
structure Digits (ds : List Char) : Prop where
  ne_nil : ds ≠ []
  digits : ∀ d ∈ ds, isDigit d = true

/-- A sign, which is written only if it is a minus. -/
inductive Sign : Bool → List Char → Prop where
  | plus : Sign false []
  | minus : Sign true ['-']

/-- The digits after a point, if there is one. -/
inductive Part : Option (List Nat) → List Char → Prop where
  | none : Part none []
  | point {ds : List Char} : Digits ds → Part (some (ds.map digitValue)) ('.' :: ds)

/-- An exponent, if there is one. -/
inductive Exponent : Option Int → List Char → Prop where
  | none : Exponent none []
  | plain {e : Char} {ds : List Char} : e = 'e' ∨ e = 'E' → Digits ds →
      Exponent (some (digitsValue ds)) (e :: ds)
  | plus {e : Char} {ds : List Char} : e = 'e' ∨ e = 'E' → Digits ds →
      Exponent (some (digitsValue ds)) (e :: '+' :: ds)
  | minus {e : Char} {ds : List Char} : e = 'e' ∨ e = 'E' → Digits ds →
      Exponent (some (-(digitsValue ds : Int))) (e :: '-' :: ds)

/-- A number and a spelling of it. No zero stands before other digits. -/
inductive Numeral.Spelled : Numeral → List Char → Prop where
  | mk {neg : Bool} {part : Option (List Nat)} {exp : Option Int} {sign ds p e : List Char} :
      Sign neg sign → Digits ds → (ds.head? = some '0' → ds = ['0']) → Part part p →
      Exponent exp e → Spelled ⟨neg, ds.map digitValue, part, exp⟩ (sign ++ (ds ++ (p ++ e)))

/-! ## Values -/

/-- What a text may begin with: a value, the items of an array after its
bracket, or the members of an object after its bracket. -/
inductive Phrase where
  | value (v : Value)
  | items (vs : List Value)
  | members (ms : List (String × Value))

/-- A phrase, a text that begins with it, and what follows it there. A
number denotes the value that its digits have, if they have one. -/
inductive Writes : Phrase → List Char → List Char → Prop where
  | null (u : List Char) : Writes (.value .null) ('n' :: 'u' :: 'l' :: 'l' :: u) u
  | true (u : List Char) : Writes (.value (.bool true)) ('t' :: 'r' :: 'u' :: 'e' :: u) u
  | false (u : List Char) :
      Writes (.value (.bool false)) ('f' :: 'a' :: 'l' :: 's' :: 'e' :: u) u
  | number {x : Numeral} {n : Number} {t : List Char} (u : List Char) : x.Spelled t →
      x.value = some n → Writes (.value (.number n)) (t ++ u) u
  | string {cs t : List Char} (u : List Char) : Letters cs t →
      Writes (.value (.string (String.ofList cs))) ('"' :: (t ++ '"' :: u)) u
  | emptyArray {t u : List Char} : Space t (']' :: u) → Writes (.value (.array [])) ('[' :: t) u
  | array {vs : List Value} {s t u : List Char} : Space s t → Writes (.items vs) t u →
      Writes (.value (.array vs)) ('[' :: s) u
  | emptyObject {t u : List Char} : Space t ('\x7d' :: u) →
      Writes (.value (.object [])) ('\x7b' :: t) u
  | object {ms : List (String × Value)} {s t u : List Char} : Space s t →
      Writes (.members ms) t u → Writes (.value (.object ms)) ('\x7b' :: s) u
  | lastItem {v : Value} {t s u : List Char} : Writes (.value v) t s → Space s (']' :: u) →
      Writes (.items [v]) t u
  | item {v : Value} {vs : List Value} {t s a b u : List Char} : Writes (.value v) t s →
      Space s (',' :: a) → Space a b → Writes (.items vs) b u → Writes (.items (v :: vs)) t u
  | lastMember {name k : List Char} {v : Value} {r s t w u : List Char} : Letters name k →
      Space r (':' :: s) → Space s t → Writes (.value v) t w → Space w ('\x7d' :: u) →
      Writes (.members [(String.ofList name, v)]) ('"' :: (k ++ '"' :: r)) u
  | member {name k : List Char} {v : Value} {ms : List (String × Value)}
      {r s t w a b u : List Char} : Letters name k → Space r (':' :: s) → Space s t →
      Writes (.value v) t w → Space w (',' :: a) → Space a b → Writes (.members ms) b u →
      Writes (.members ((String.ofList name, v) :: ms)) ('"' :: (k ++ '"' :: r)) u

/-! ## Whole texts -/

/-- A text of a value, with the members of its objects in the order of the
text. -/
def Written (t : String) (v : Value) : Prop :=
  ∃ s u, Space t.toList s ∧ Writes (.value v) s u ∧ Space u []

/-- The members of an object have different names. Whatever the objects
within them have for names is not looked at. -/
def Value.NamesDistinct : Value → Prop
  | .object ms => (ms.map Prod.fst).Nodup
  | _ => True

/-- A text that denotes a value. It may give the members of objects in any
order, but no name twice. -/
def Denotes (t : String) (v : Value) : Prop :=
  ∃ w, Written t w ∧ w.NamesDistinct ∧ w.ordered = v.ordered

/-! ## What a text begins with -/

/-- The character that begins a value, an item or a member is neither white
space nor one that ends or separates. -/
def IsFirst (c : Char) : Prop :=
  isSpace c = false ∧ c ≠ ',' ∧ c ≠ ']' ∧ c ≠ '\x7d'

theorem isFirst_of_isDigit {c : Char} (h : isDigit c = true) : IsFirst c := by
  have hne : ∀ d, isDigit d = false → c ≠ d := by
    rintro d hd rfl
    rw [h] at hd
    cases hd
  refine ⟨?_, hne ',' rfl, hne ']' rfl, hne '\x7d' rfl⟩
  simp [isSpace, hne ' ' rfl, hne '\n' rfl, hne '\t' rfl, hne '\r' rfl]

theorem Numeral.Spelled.begins {x : Numeral} {t : List Char} (h : x.Spelled t) :
    ∃ c rest, t = c :: rest ∧ (c = '-' ∨ isDigit c = true) := by
  obtain ⟨hsign, hds, -, -, -⟩ := h
  cases hsign with
  | plus =>
    rename_i ds p e
    cases ds with
    | nil => exact absurd rfl hds.ne_nil
    | cons d ds => exact ⟨d, _, rfl, .inr (hds.digits d List.mem_cons_self)⟩
  | minus => exact ⟨'-', _, rfl, .inl rfl⟩

end CallAudit.Json
