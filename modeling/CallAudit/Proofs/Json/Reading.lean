/-
CallAudit.Proofs.Json.Reading — the reader reads what the grammar derives.

A string, a number and a word are read in one go, each as far as it goes:
what follows a number must not go on with it (`Follows`), and what follows a
value in a text never does. Arrays and objects are read with fuel, of which
a figure needs no more than three for each of its characters.

* `readQuoted_plain`, `readQuoted_letter`, `readQuoted_unit` — what is read
  of a string in one step, whatever was read before it.
* `readQuoted_letters`, `readQuoted_stray`, `readNumeral_spelled` — the
  tokens.
* `read_of_shows` — a text is read as the node it shows, and what follows it
  is left.
* `decodeText_shown`, `decodeText_written` — decoding a whole text is
  decoding the node it shows; for a text of a value this is the value's node.
-/
import CallAudit.Proofs.Json.Nodes

namespace CallAudit.Json

open CallAudit.Number (isDigit digitValue digitsValue)
open CallAudit.Text.Utf16 (isLead isTrail join)

/-! ## White space -/

theorem isSpace_iff {c : Char} :
    isSpace c = true ↔ c = ' ' ∨ c = '\n' ∨ c = '\t' ∨ c = '\r' := by
  simp [isSpace, or_assoc]

theorem skipSpace_cons (c : Char) (rest : List Text.Utf8.Glyph) :
    skipSpace (some c :: rest) = if isSpace c then skipSpace rest else some c :: rest := by
  simp only [skipSpace, isSpace_iff, Option.some.injEq]

theorem skipSpace_of_not {c : Char} (h : isSpace c = false) (rest : List Text.Utf8.Glyph) :
    skipSpace (some c :: rest) = some c :: rest := by
  rw [skipSpace_cons, h]
  rfl

theorem skipSpace_space {t u : List Char} (h : Space t u) :
    skipSpace (t.map some) = skipSpace (u.map some) := by
  induction h with
  | none t => rfl
  | char hc _ ih => rw [List.map_cons, skipSpace_cons, if_pos hc, ih]

/-- White space is skipped up to the token after it. -/
theorem skipSpace_token {t u : List Char} {c : Char} (h : Space t (c :: u))
    (hc : isSpace c = false) : skipSpace (t.map some) = some c :: u.map some := by
  rw [skipSpace_space h, List.map_cons, skipSpace_of_not hc]

theorem Space.length_le {t u : List Char} (h : Space t u) : u.length ≤ t.length :=
  h.suffix.length_le

/-! ## Strings -/

section Steps

variable {lead : Option Nat} {stray : Bool} {kept : Except Fault (List Char)}
  {rest : List Text.Utf8.Glyph}

theorem readQuoted_quote :
    readQuoted lead stray kept (some '"' :: rest)
      = ((if lead.isSome || stray then failed kept .malformed else kept).map List.reverse,
          .ok rest) := by
  rw [readQuoted]

theorem readQuoted_plain {c : Char} (hlow : 32 ≤ c.toNat) (hquote : c ≠ '"') (hback : c ≠ '\\') :
    readQuoted lead stray kept (some c :: rest)
      = readQuoted none stray (push (if lead.isSome then failed kept .malformed else kept) c)
          rest := by
  rw [readQuoted]
  · simp only [Nat.not_lt.mpr hlow, if_false]
  all_goals simp [hquote, hback]

theorem readQuoted_letter {e c : Char} (hc : escaped? e = some c) :
    readQuoted lead stray kept (some '\\' :: some e :: rest)
      = readQuoted none stray (push (if lead.isSome then failed kept .malformed else kept) c)
          rest := by
  have hu : e ≠ 'u' := by
    rintro rfl
    cases hc
  rw [readQuoted]
  · simp only [hc]
  all_goals simp [hu]

/-- Four digits are a character, the first half of a pair, or the second half
of one that was begun. -/
theorem readQuoted_unit {a b c d : Char} {n : Nat} (hn : hex4? a b c d = some n) :
    readQuoted lead stray kept
        (some '\\' :: some 'u' :: some a :: some b :: some c :: some d :: rest)
      = lead.elim
          (if isLead n then readQuoted (some n) stray kept rest
            else readQuoted none stray
              (if isTrail n then failed kept .malformed else push kept (Char.ofNat n)) rest)
          fun high => readQuoted none stray
            (if isTrail n then push kept (join high n) else failed kept .malformed) rest := by
  rw [readQuoted]
  simp only [hn]
  cases lead with
  | none =>
    simp only [Option.elim]
    split
    · rfl
    · split <;> rfl
  | some high =>
    simp only [Option.elim]
    split <;> rfl

end Steps

/-- A string is read up to its closing quote. -/
theorem readQuoted_letters {cs t : List Char} (h : Letters cs t) (kept u : List Char) :
    readQuoted none false (.ok kept) ((t ++ '"' :: u).map some)
      = (.ok (kept.reverse ++ cs), .ok (u.map some)) := by
  induction h generalizing kept with
  | nil => simp [readQuoted_quote, Except.map]
  | @plain c cs t hlow hquote hback _ ih =>
    rw [List.cons_append, List.map_cons, readQuoted_plain hlow hquote hback]
    simpa [push, Except.map] using ih (c :: kept)
  | @letter e c cs t hc _ ih =>
    simp only [List.cons_append, List.map_cons, readQuoted_letter hc]
    simpa [push, Except.map] using ih (c :: kept)
  | @unit a b c d n cs t hn hlead htrail _ ih =>
    simp only [List.cons_append, List.map_cons, readQuoted_unit hn]
    simpa [hlead, htrail, push, Except.map] using ih (Char.ofNat n :: kept)
  | @pair a b c d e f g h high low cs t hhigh hlead hlow htrail _ ih =>
    simp only [List.cons_append, List.map_cons, readQuoted_unit hhigh, readQuoted_unit hlow]
    simpa [hlead, htrail, push, Except.map] using ih (join high low :: kept)

theorem readString_letters {cs t : List Char} (h : Letters cs t) (u : List Char) :
    readString ((t ++ '"' :: u).map some)
      = (.whole (.ok (String.ofList cs)), some (u.map some)) := by
  rw [readString, readQuoted_letters h [] u]
  rfl

/-- A string that is no text stays so up to its closing quote. -/
theorem readQuoted_failed {t : List Char} (h : Spelling t) (lead : Option Nat) (u : List Char) :
    readQuoted lead false (.error .malformed) ((t ++ '"' :: u).map some)
      = (.error .malformed, .ok (u.map some)) := by
  induction h generalizing lead with
  | nil => simp [readQuoted_quote, failed, Except.map]
  | plain hlow hquote hback _ ih =>
    rw [List.cons_append, List.map_cons, readQuoted_plain hlow hquote hback]
    simpa [push, failed, Except.map] using ih none
  | letter hc _ ih =>
    simp only [List.cons_append, List.map_cons, readQuoted_letter hc]
    simpa [push, failed, Except.map] using ih none
  | @unit a b c d n t hn _ ih =>
    simp only [List.cons_append, List.map_cons, readQuoted_unit hn]
    cases lead with
    | none =>
      by_cases hlead : isLead n = true
      · simpa [hlead] using ih (some n)
      · simpa [hlead, push, failed, Except.map] using ih none
    | some high => simpa [push, failed, Except.map] using ih none

/-- What completes half of a surrogate pair: the other half, and a text. -/
def Completes (t : List Char) : Prop :=
  ∃ e f g h low cs rest, t = '\\' :: 'u' :: e :: f :: g :: h :: rest ∧
    hex4? e f g h = some low ∧ isTrail low = true ∧ Letters cs rest

/-- A string that is no text is read to its end all the same. The two parts
go together: a half at its beginning has to be completed by what is left. -/
theorem readQuoted_stray {t : List Char} (h : Spelling t) (u : List Char) :
    ((∀ cs, ¬ Letters cs t) → ∀ kept,
      readQuoted none false (.ok kept) ((t ++ '"' :: u).map some)
        = (.error .malformed, .ok (u.map some)))
    ∧ (¬ Completes t → ∀ high kept,
      readQuoted (some high) false (.ok kept) ((t ++ '"' :: u).map some)
        = (.error .malformed, .ok (u.map some))) := by
  induction h with
  | nil =>
    refine ⟨fun hno => absurd .nil (hno []), fun _ high kept => ?_⟩
    simp [readQuoted_quote, failed, Except.map]
  | @plain c t hlow hquote hback ht ih =>
    refine ⟨fun hno kept => ?_, fun _ high kept => ?_⟩
    all_goals rw [List.cons_append, List.map_cons, readQuoted_plain hlow hquote hback]
    · exact ih.1 (fun cs h => hno _ (.plain hlow hquote hback h)) (c :: kept)
    · exact readQuoted_failed ht none u
  | @letter e c t hc ht ih =>
    refine ⟨fun hno kept => ?_, fun _ high kept => ?_⟩
    all_goals simp only [List.cons_append, List.map_cons, readQuoted_letter hc]
    · exact ih.1 (fun cs h => hno _ (.letter hc h)) (c :: kept)
    · exact readQuoted_failed ht none u
  | @unit a b c d n t hn ht ih =>
    refine ⟨fun hno kept => ?_, fun hopen high kept => ?_⟩
    all_goals simp only [List.cons_append, List.map_cons, readQuoted_unit hn]
    · by_cases hlead : isLead n = true
      · -- half of a pair that nothing completes
        have hopen : ¬ Completes t := by
          rintro ⟨e, f, g, h, low, cs, rest, rfl, hlow, htrail, hrest⟩
          exact hno _ (.pair hn hlead hlow htrail hrest)
        simpa [hlead] using ih.2 hopen n kept
      · by_cases htrail : isTrail n = true
        · simpa [hlead, htrail, failed] using readQuoted_failed ht none u
        · have hrest := ih.1 (fun cs h => hno _ (.unit hn (by simpa using hlead)
            (by simpa using htrail) h)) (Char.ofNat n :: kept)
          simpa [hlead, htrail, push, Except.map] using hrest
    · by_cases htrail : isTrail n = true
      · have hrest := ih.1 (fun cs h => hopen ⟨a, b, c, d, n, cs, t, rfl, hn, htrail, h⟩)
          (join high n :: kept)
        simpa [htrail, push, Except.map] using hrest
      · simpa [htrail, failed] using readQuoted_failed ht none u

/-- A string in quotes is read, with a text or without one. -/
theorem readString_quoted {q : Quotation} {t : List Char} (h : Quoted q t) (u : List Char) :
    readString ((t ++ '"' :: u).map some) = (q, some (u.map some)) := by
  cases h with
  | text hletters => exact readString_letters hletters u
  | stray hspelling hno =>
    rw [readString, (readQuoted_stray hspelling u).1 hno []]
    rfl

/-! ## Numbers -/

theorem decimal?_some (c : Char) :
    decimal? (some c) = if isDigit c then some (digitValue c) else none := by
  simp [decimal?, isDigit, digitValue]

/-- What does not go on with a number. -/
structure Follows (u : List Char) : Prop where
  digit : ∀ c ∈ u.head?, isDigit c = false
  point : u.head? ≠ some '.'
  letter : ∀ c ∈ u.head?, ¬(c = 'e' ∨ c = 'E')

theorem takeDigits_digits {ds : List Char} (hds : ∀ d ∈ ds, isDigit d = true) {u : List Char}
    (hu : ∀ c ∈ u.head?, isDigit c = false) :
    takeDigits ((ds ++ u).map some) = (ds.map digitValue, u.map some) := by
  induction ds with
  | nil =>
    cases u with
    | nil => rfl
    | cons c u =>
      have hc : isDigit c = false := hu c rfl
      simp [takeDigits, decimal?_some, hc]
  | cons d ds ih =>
    have hd : isDigit d = true := hds d List.mem_cons_self
    have := ih fun e he => hds e (List.mem_cons_of_mem _ he)
    simp only [List.cons_append, List.map_cons, takeDigits, decimal?_some, hd, if_true, this]

theorem needDigits_digits {ds : List Char} (hds : Digits ds) {u : List Char}
    (hu : ∀ c ∈ u.head?, isDigit c = false) :
    needDigits ((ds ++ u).map some) = .ok (ds.map digitValue, u.map some) := by
  rw [needDigits, takeDigits_digits hds.digits hu]
  obtain ⟨d, ds, rfl⟩ := List.exists_cons_of_ne_nil hds.ne_nil
  rfl

theorem eq_zero_of_digitValue {d : Char} (hd : isDigit d = true) (h : digitValue d = 0) :
    d = '0' := by
  have hlow : 48 ≤ d.toNat := by
    simp only [isDigit, Bool.and_eq_true, decide_eq_true_eq] at hd
    exact hd.1
  have hcode : d.toNat = 48 := by
    simp only [digitValue] at h
    omega
  exact Char.toNat_inj.mp hcode

theorem readWhole_digits {ds : List Char} (hds : Digits ds)
    (hzero : ds.head? = some '0' → ds = ['0']) {u : List Char}
    (hu : ∀ c ∈ u.head?, isDigit c = false) :
    readWhole ((ds ++ u).map some) = .ok (ds.map digitValue, u.map some) := by
  simp only [readWhole, needDigits_digits hds hu, bind, Except.bind]
  split
  · rename_i hshape
    -- a zero before other digits
    cases ds with
    | nil => cases hshape
    | cons d ds =>
      obtain ⟨hvalue, hmore⟩ := List.cons.inj hshape
      obtain rfl := eq_zero_of_digitValue (hds.digits d List.mem_cons_self) hvalue
      obtain ⟨-, rfl⟩ := List.cons.inj (hzero rfl)
      cases hmore
  · rfl

theorem readPart_part {part : Option (List Nat)} {p : List Char} (h : Part part p)
    {u : List Char} (hdigit : ∀ c ∈ u.head?, isDigit c = false) (hpoint : u.head? ≠ some '.') :
    readPart ((p ++ u).map some) = .ok (part, u.map some) := by
  cases h with
  | none =>
    cases u with
    | nil => rfl
    | cons c u =>
      have hc : c ≠ '.' := fun h => hpoint (congrArg some h)
      simp [readPart, hc]
  | point hds =>
    simp only [List.cons_append, List.map_cons, readPart, needDigits_digits hds hdigit]
    rfl

/-- The value of an exponent is that of its digits. -/
theorem foldl_digitValue (ds : List Char) :
    (ds.map digitValue).foldl (fun n d => 10 * n + d) 0 = digitsValue ds := by
  rw [List.foldl_map, digitsValue]

theorem readExponent_exponent {exp : Option Int} {e : List Char} (h : Exponent exp e)
    {u : List Char} (hu : Follows u) :
    readExponent ((e ++ u).map some) = .ok (exp, u.map some) := by
  cases h with
  | none =>
    cases u with
    | nil => rfl
    | cons c u =>
      have hc := hu.letter c rfl
      simp only [List.nil_append, List.map_cons, readExponent, hc, if_false]
  | @plain c ds he hds =>
    have hread := needDigits_digits hds hu.digit
    obtain ⟨d, ds, rfl⟩ := List.exists_cons_of_ne_nil hds.ne_nil
    have hd := hds.digits d List.mem_cons_self
    -- a digit is no sign
    have hminus : d ≠ '-' := by
      rintro rfl
      cases hd
    have hplus : d ≠ '+' := by
      rintro rfl
      cases hd
    simp only [List.cons_append, List.map_cons] at hread
    simp only [List.cons_append, List.map_cons, readExponent, he, if_true]
    split
    · rename_i heq
      simp [hminus] at heq
    · rename_i heq
      simp [hplus] at heq
    · rw [← foldl_digitValue]
      simp only [hread, bind, Except.bind]
      rfl
  | plus he hds | minus he hds =>
    have hread := needDigits_digits hds hu.digit
    simp only [List.cons_append, List.map_cons, readExponent, he, if_true, hread, bind,
      Except.bind, foldl_digitValue]
    rfl

/-- No digit follows the digits before the point. -/
theorem Part.noDigit {part : Option (List Nat)} {p : List Char} (h : Part part p) {u : List Char}
    (hu : ∀ c ∈ u.head?, isDigit c = false) : ∀ c ∈ (p ++ u).head?, isDigit c = false := by
  cases h with
  | none => exact hu
  | point _ =>
    rintro _ ⟨⟩
    rfl

/-- Neither a digit nor a point follows the digits after the point. -/
theorem Exponent.noDigit {exp : Option Int} {e : List Char} (h : Exponent exp e) {u : List Char}
    (hu : Follows u) :
    (∀ c ∈ (e ++ u).head?, isDigit c = false) ∧ (e ++ u).head? ≠ some '.' := by
  cases h with
  | none => exact ⟨hu.digit, hu.point⟩
  | plain he _ | plus he _ | minus he _ =>
    rcases he with rfl | rfl <;> exact ⟨by rintro _ ⟨⟩; rfl, nofun⟩

theorem readUnsigned_spelled {ds p e : List Char} {part : Option (List Nat)} {exp : Option Int}
    (hds : Digits ds) (hzero : ds.head? = some '0' → ds = ['0']) (hpart : Part part p)
    (hexp : Exponent exp e) {u : List Char} (hu : Follows u) (neg : Bool) :
    readUnsigned neg ((ds ++ (p ++ (e ++ u))).map some)
      = .ok (⟨neg, ds.map digitValue, part, exp⟩, u.map some) := by
  obtain ⟨hdigit, hpoint⟩ := hexp.noDigit hu
  simp only [readUnsigned, bind, Except.bind, readWhole_digits hds hzero (hpart.noDigit hdigit),
    readPart_part hpart hdigit hpoint, readExponent_exponent hexp hu]
  rfl

/-- A number is read from its spelling. -/
theorem readNumeral_spelled {x : Numeral} {t : List Char} (h : x.Spelled t) {u : List Char}
    (hu : Follows u) : readNumeral ((t ++ u).map some) = (.number x.value, some (u.map some)) := by
  obtain ⟨hsign, hds, hzero, hpart, hexp⟩ := h
  have hread := readUnsigned_spelled hds hzero hpart hexp hu
  cases hsign with
  | plus =>
    rename_i ds _ _
    obtain ⟨d, ds, rfl⟩ := List.exists_cons_of_ne_nil hds.ne_nil
    have hminus : d ≠ '-' := by
      rintro rfl
      cases hds.digits '-' List.mem_cons_self
    simp only [List.cons_append, List.map_cons] at hread
    simp [readNumeral, hminus, hread, -List.map_append]
  | minus =>
    simp only [readNumeral, List.cons_append, List.nil_append, List.append_assoc, List.map_cons,
      hread]

/-! ## Words -/

theorem readWord_word (node : Node) (word u : List Char) :
    readWord node word ((word ++ u).map some) = (node, some (u.map some)) := by
  induction word with
  | nil => rfl
  | cons c word ih => simpa [readWord] using ih

/-! ## What follows a value -/

theorem follows_nil : Follows [] := ⟨nofun, nofun, nofun⟩

theorem follows_token {c : Char} (h : c = ',' ∨ c = ']' ∨ c = '\x7d') (u : List Char) :
    Follows (c :: u) := by
  rcases h with rfl | rfl | rfl <;>
    exact ⟨by rintro _ ⟨⟩; rfl, nofun, by rintro _ ⟨⟩; decide⟩

theorem Space.follows {t u : List Char} (h : Space t u) (hu : Follows u) : Follows t := by
  cases h with
  | none => exact hu
  | @char c t u hc _ =>
    rcases isSpace_iff.mp hc with rfl | rfl | rfl | rfl <;>
      exact ⟨by rintro _ ⟨⟩; rfl, nofun, by rintro _ ⟨⟩; decide⟩

/-! ## Brackets and commas -/

theorem readNode_space {t u : List Char} (h : Space t u) (fuel : Nat) :
    readNode fuel (t.map some) = readNode fuel (u.map some) := by
  cases fuel with
  | zero => rfl
  | succ fuel => simp only [readNode, skipSpace_space h]

section
variable {s a b u : List Char} {c : Char}

theorem readItems_open (h : Space s (c :: u)) (hc : IsFirst c) (fuel : Nat) :
    readItems (fuel + 1) true (s.map some) = readItem fuel ((c :: u).map some) := by
  obtain ⟨hspace, -, hend, -⟩ := hc
  rw [readItems, skipSpace_token h hspace]
  simp [hend]

theorem readItems_close (h : Space s (']' :: u)) (first : Bool) (fuel : Nat) :
    readItems (fuel + 1) first (s.map some) = (.closed, some (u.map some)) := by
  rw [readItems, skipSpace_token h rfl]
  rfl

theorem readItems_comma (h : Space s (',' :: a)) (hitem : Space a (c :: u)) (hc : IsFirst c)
    (fuel : Nat) :
    readItems (fuel + 1) false (s.map some) = readItem fuel ((c :: u).map some) := by
  obtain ⟨hspace, -, hend, -⟩ := hc
  rw [readItems, skipSpace_token h rfl]
  simp [skipSpace_token hitem hspace, hend]

theorem readMembers_open (h : Space s (c :: u)) (hc : IsFirst c) (fuel : Nat) :
    readMembers (fuel + 1) true (s.map some) = readMember fuel ((c :: u).map some) := by
  obtain ⟨hspace, -, -, hend⟩ := hc
  rw [readMembers, skipSpace_token h hspace]
  simp [hend]

theorem readMembers_close (h : Space s ('\x7d' :: u)) (first : Bool) (fuel : Nat) :
    readMembers (fuel + 1) first (s.map some) = (.closed, some (u.map some)) := by
  rw [readMembers, skipSpace_token h rfl]
  rfl

theorem readMembers_comma (h : Space s (',' :: a)) (hmember : Space a (c :: u)) (hc : IsFirst c)
    (fuel : Nat) :
    readMembers (fuel + 1) false (s.map some) = readMember fuel ((c :: u).map some) := by
  obtain ⟨hspace, -, -, hend⟩ := hc
  rw [readMembers, skipSpace_token h rfl]
  simp [skipSpace_token hmember hspace, hend]

/-! ## One step of a value -/

theorem readNode_array {items : Items} {after : Option (List Text.Utf8.Glyph)} {fuel : Nat}
    (h : readItems fuel true (s.map some) = (items, after)) :
    readNode (fuel + 1) (('[' :: s).map some) = (.array items, after) := by
  rw [List.map_cons, readNode, skipSpace_of_not rfl]
  simp only [h]

theorem readNode_object {members : Members} {after : Option (List Text.Utf8.Glyph)} {fuel : Nat}
    (h : readMembers fuel true (s.map some) = (members, after)) :
    readNode (fuel + 1) (('\x7b' :: s).map some) = (.object members, after) := by
  rw [List.map_cons, readNode, skipSpace_of_not rfl]
  simp only [h]

theorem readItem_cons {node : Node} {items : Items} {after : Option (List Text.Utf8.Glyph)}
    {fuel : Nat} (hitem : readNode fuel (s.map some) = (node, some (u.map some)))
    (hrest : readItems fuel false (u.map some) = (items, after)) :
    readItem (fuel + 1) (s.map some) = (.cons node items, after) := by
  rw [readItem, hitem]
  simp only [hrest]

theorem readMember_cons {name : Quotation} {k : List Char} {node : Node} {members : Members}
    {after : Option (List Text.Utf8.Glyph)} {fuel : Nat} (hname : Quoted name k)
    (hcolon : Space s (':' :: a)) (hspace : Space a b)
    (hvalue : readNode fuel (b.map some) = (node, some (u.map some)))
    (hrest : readMembers fuel false (u.map some) = (members, after)) :
    readMember (fuel + 1) (('"' :: (k ++ '"' :: s)).map some)
      = (.cons name node members, after) := by
  rw [List.map_cons, readMember, skipSpace_of_not rfl]
  simp only [readString_quoted hname, skipSpace_token hcolon rfl, readNode_space hspace, hvalue,
    hrest]

/-- A digit or a minus sign begins nothing but a number. -/
theorem readNode_number {c : Char} (hc : c = '-' ∨ isDigit c = true) (fuel : Nat)
    (rest : List Text.Utf8.Glyph) :
    readNode (fuel + 1) (some c :: rest) = readNumeral (some c :: rest) := by
  have hspace : isSpace c = false := by
    rcases hc with rfl | hc
    · rfl
    · exact (isFirst_of_isDigit hc).1
  have hnumber : some c = some '-' ∨ (decimal? (some c)).isSome = true := by
    rcases hc with rfl | hc
    · exact .inl rfl
    · exact .inr (by simp [decimal?_some, hc])
  rw [readNode, skipSpace_of_not hspace]
  split
  case h_1 heq => cases heq
  case h_8 heq =>
    obtain ⟨rfl, rfl⟩ := List.cons.inj heq
    rw [if_pos hnumber]
  -- neither a digit nor a minus sign
  all_goals
    rename_i heq
    cases heq
    exact absurd hc (by decide)

end

/-! ## Values -/

/-- A figure takes some of the text. -/
theorem Shows.length_lt {p : Figure} {t u : List Char} (h : Shows p t u) :
    u.length < t.length := by
  induction h with
  | null | true | false =>
    simp only [List.length_cons]
    omega
  | number u hspelled =>
    obtain ⟨c, rest, rfl, -⟩ := hspelled.begins
    simp only [List.cons_append, List.length_cons, List.length_append]
    omega
  | string =>
    simp only [List.length_cons, List.length_append]
    omega
  | emptyArray hspace | emptyObject hspace =>
    have hend := hspace.length_le
    simp only [List.length_cons] at hend ⊢
    omega
  | array hspace _ ih | object hspace _ ih =>
    have hfirst := hspace.length_le
    simp only [List.length_cons]
    omega
  | lastItem _ hend ih =>
    have hclose := hend.length_le
    simp only [List.length_cons] at hclose
    omega
  | item _ hcomma hspace _ ih ihs =>
    have hafter := hcomma.length_le
    have hnext := hspace.length_le
    simp only [List.length_cons] at hafter
    omega
  | lastMember _ hcolon hspace _ hend ih =>
    have hpoint := hcolon.length_le
    have hvalue := hspace.length_le
    have hclose := hend.length_le
    simp only [List.length_cons, List.length_append] at hpoint hclose ⊢
    omega
  | member _ hcolon hspace _ hcomma hblank _ ih ihs =>
    have hpoint := hcolon.length_le
    have hvalue := hspace.length_le
    have hafter := hcomma.length_le
    have hnext := hblank.length_le
    simp only [List.length_cons, List.length_append] at hpoint hafter ⊢
    omega

/-- A figure is read from the texts that show it, with three times as much
fuel as it has characters there. -/
def Figure.Read (p : Figure) (t u : List Char) : Prop :=
  ∀ fuel, 3 * t.length ≤ fuel + 3 * u.length →
    match p with
    | .node n => Follows u → readNode fuel (t.map some) = (n, some (u.map some))
    | .items ns => readItem fuel (t.map some) = (ns, some (u.map some))
    | .members ms => readMember fuel (t.map some) = (ms, some (u.map some))

/-- So there is fuel for three steps at least. -/
theorem Shows.exists_fuel {p : Figure} {t u : List Char} (h : Shows p t u) {fuel : Nat}
    (hfuel : 3 * t.length ≤ fuel + 3 * u.length) : ∃ k, fuel = k + 3 := by
  have := h.length_lt
  exact ⟨fuel - 3, by omega⟩

/-- The fuel is spent as the text is: three for each item or member, of which
there is a character at least, and one for each bracket. -/
theorem read_of_shows {p : Figure} {t u : List Char} (h : Shows p t u) : p.Read t u := by
  induction h with
  | null u =>
    rintro fuel hfuel -
    obtain ⟨k, rfl⟩ := (Shows.null u).exists_fuel hfuel
    rw [List.map_cons, readNode, skipSpace_of_not rfl]
    exact readWord_word .null ['u', 'l', 'l'] u
  | true u =>
    rintro fuel hfuel -
    obtain ⟨k, rfl⟩ := (Shows.true u).exists_fuel hfuel
    rw [List.map_cons, readNode, skipSpace_of_not rfl]
    exact readWord_word (.bool Bool.true) ['r', 'u', 'e'] u
  | false u =>
    rintro fuel hfuel -
    obtain ⟨k, rfl⟩ := (Shows.false u).exists_fuel hfuel
    rw [List.map_cons, readNode, skipSpace_of_not rfl]
    exact readWord_word (.bool Bool.false) ['a', 'l', 's', 'e'] u
  | number u hspelled =>
    rintro fuel hfuel hu
    obtain ⟨k, rfl⟩ := (Shows.number u hspelled).exists_fuel hfuel
    have hread := readNumeral_spelled hspelled hu
    obtain ⟨c, rest, rfl, hc⟩ := hspelled.begins
    simp only [List.cons_append, List.map_cons] at hread ⊢
    rw [readNode_number hc, hread]
  | string u hquoted =>
    rintro fuel hfuel -
    obtain ⟨k, rfl⟩ := (Shows.string u hquoted).exists_fuel hfuel
    rw [List.map_cons, readNode, skipSpace_of_not rfl]
    simp only [readString_quoted hquoted]
  | emptyArray hspace =>
    rintro fuel hfuel -
    obtain ⟨k, rfl⟩ := (Shows.emptyArray hspace).exists_fuel hfuel
    exact readNode_array (readItems_close hspace _ _)
  | array hspace hitems ih =>
    rintro fuel hfuel -
    obtain ⟨k, rfl⟩ := (Shows.array hspace hitems).exists_fuel hfuel
    have hfirst := hspace.length_le
    simp only [List.length_cons] at hfuel
    have hread := ih (k + 1) (by omega)
    obtain ⟨c, t, rfl, hc⟩ := hitems.begins
    exact readNode_array ((readItems_open hspace hc _).trans hread)
  | emptyObject hspace =>
    rintro fuel hfuel -
    obtain ⟨k, rfl⟩ := (Shows.emptyObject hspace).exists_fuel hfuel
    exact readNode_object (readMembers_close hspace _ _)
  | object hspace hmembers ih =>
    rintro fuel hfuel -
    obtain ⟨k, rfl⟩ := (Shows.object hspace hmembers).exists_fuel hfuel
    have hfirst := hspace.length_le
    simp only [List.length_cons] at hfuel
    have hread := ih (k + 1) (by omega)
    obtain ⟨c, t, rfl, hc⟩ := hmembers.begins
    exact readNode_object ((readMembers_open hspace hc _).trans hread)
  | lastItem hv hend ih =>
    intro fuel hfuel
    obtain ⟨k, rfl⟩ := (Shows.lastItem hv hend).exists_fuel hfuel
    have hclose := hend.length_le
    simp only [List.length_cons] at hclose
    have hread := ih (k + 2) (by omega) (hend.follows (follows_token (by decide) _))
    exact readItem_cons hread (readItems_close hend _ _)
  | item hv hcomma hspace hitems ih ihs =>
    intro fuel hfuel
    obtain ⟨k, rfl⟩ := (Shows.item hv hcomma hspace hitems).exists_fuel hfuel
    have hafter := hcomma.length_le
    have hnext := hspace.length_le
    have hless := hv.length_lt
    have hrestless := hitems.length_lt
    simp only [List.length_cons] at hafter
    have hread := ih (k + 2) (by omega) (hcomma.follows (follows_token (by decide) _))
    have hrest := ihs (k + 1) (by omega)
    obtain ⟨c, b, rfl, hc⟩ := hitems.begins
    exact readItem_cons hread ((readItems_comma hcomma hspace hc _).trans hrest)
  | lastMember hname hcolon hspace hv hend ih =>
    intro fuel hfuel
    obtain ⟨k, rfl⟩ := (Shows.lastMember hname hcolon hspace hv hend).exists_fuel hfuel
    have hpoint := hcolon.length_le
    have hvalue := hspace.length_le
    have hclose := hend.length_le
    simp only [List.length_cons, List.length_append] at hpoint hclose hfuel
    have hread := ih (k + 2) (by omega) (hend.follows (follows_token (by decide) _))
    exact readMember_cons hname hcolon hspace hread (readMembers_close hend _ _)
  | member hname hcolon hspace hv hcomma hblank hmembers ih ihs =>
    intro fuel hfuel
    obtain ⟨k, rfl⟩ :=
      (Shows.member hname hcolon hspace hv hcomma hblank hmembers).exists_fuel hfuel
    have hpoint := hcolon.length_le
    have hvalue := hspace.length_le
    have hafter := hcomma.length_le
    have hnext := hblank.length_le
    have hless := hv.length_lt
    have hrestless := hmembers.length_lt
    simp only [List.length_cons, List.length_append] at hpoint hafter hfuel
    have hread := ih (k + 2) (by omega) (hcomma.follows (follows_token (by decide) _))
    have hrest := ihs (k + 1) (by omega)
    obtain ⟨c, b, rfl, hc⟩ := hmembers.begins
    exact readMember_cons hname hcolon hspace hread
      ((readMembers_comma hcomma hblank hc _).trans hrest)

/-! ## Whole texts -/

/-- **Reading.** To decode a text is to decode the node that it shows. -/
theorem decodeText_shown {t : List Char} {n : Node} (h : Shown t n) {α : Type}
    (decode : Node → Except Fault α) : decodeText decode (t.map some) = decode n := by
  obtain ⟨s, u, hbefore, hn, hafter⟩ := h
  have hlen := hbefore.length_le
  have hread : readText (t.map some) = (n, some (u.map some)) := by
    rw [readText, readNode_space hbefore]
    refine read_of_shows hn _ ?_ (hafter.follows follows_nil)
    rw [List.length_map]
    omega
  have hend : skipSpace (u.map some) = [] := skipSpace_space hafter
  simp only [decodeText, hread, Option.map_some, hend]
  cases decode n <;> rfl

/-- So it is to decode the node of the value that the text is written for. -/
theorem decodeText_written {t : String} {v : Value} (h : Written t v) {α : Type}
    (decode : Node → Except Fault α) :
    decodeText decode (t.toList.map some) = decode v.node :=
  decodeText_shown h.shown decode

end CallAudit.Json
