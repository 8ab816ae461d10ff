/-
CallAudit.Proofs.Number.Zero — texts that spell zero, and numbers that are
not written as one.

Zero can be spelled with any number of digits, with a point, with a sign and
with an exponent, and there may be blanks around it. What all these spellings
have in common is that no digit but zeros stands before the exponent
(`zeros_of_magnitude`); so a text with another digit there is not one of them
(`IsNonzero`), and a number other than zero is written with such a digit.

* `SpellsZero` — a text that is the number zero.
* `IsNonzero`, `not_spellsZero` — a digit other than zero.
* `isNonzero_text`, `spellsZero_text` — the text of a binary number other than
  zero, and of a zero.
-/
import CallAudit.Proofs.Json.Printing
import CallAudit.Proofs.Json.Reading
import CallAudit.Proofs.Number.Shortest
import CallAudit.Proofs.Text.Blank

namespace CallAudit.Number

open CallAudit.Text (trim isBlank allBlank isBlank_of_isDigit trim_eq_self)

/-! ## Spellings of zero -/

/-- A text that is the number zero, of either sign. -/
def SpellsZero (s : String) : Prop :=
  ∃ neg exp, real? (trim s.toList) = some (.finite neg 0 exp)

theorem foldl_eq_zero {ds : List Char} {n : Nat}
    (h : ds.foldl (fun n d => 10 * n + digitValue d) n = 0) :
    n = 0 ∧ ∀ d ∈ ds, digitValue d = 0 := by
  induction ds generalizing n with
  | nil => exact ⟨h, fun d hd => absurd hd List.not_mem_nil⟩
  | cons d ds ih =>
    obtain ⟨hfirst, hrest⟩ := ih h
    have hsum : 10 * n + digitValue d = 0 := hfirst
    exact ⟨by omega, List.forall_mem_cons.mpr ⟨by omega, hrest⟩⟩

/-- Digits that make zero are zeros. -/
theorem zeros_of_digitsValue {ds : List Char} (hds : ∀ d ∈ ds, isDigit d = true)
    (h : digitsValue ds = 0) : ∀ d ∈ ds, d = '0' :=
  fun d hd => Json.eq_zero_of_digitValue (hds d hd) ((foldl_eq_zero h).2 d hd)

/-- An exponent begins with its letter, if there is one. -/
theorem head_of_exponent {cs : List Char} {e : Int} (h : exponent? cs = some e) :
    ∀ c ∈ cs.head?, c = 'e' ∨ c = 'E' := by
  cases cs with
  | nil => exact fun c hc => nomatch hc
  | cons c cs =>
    rintro d ⟨⟩
    by_contra hletter
    simp only [exponent?, hletter, if_false] at h
    cases h

/-- What is left after the digits before the point: the digits after it and
what follows them. -/
def pointAndTail (rest : List Char) : List Char × List Char :=
  match rest with
  | '.' :: more => (more.takeWhile isDigit, more.dropWhile isDigit)
  | _ => ([], rest)

theorem pointAndTail_spec (rest : List Char) :
    ∃ part tail, pointAndTail rest = (part, tail) ∧ (∀ d ∈ part, isDigit d = true)
      ∧ (rest = '.' :: (part ++ tail) ∨ part = [] ∧ rest = tail) := by
  unfold pointAndTail
  split
  · rename_i more
    exact ⟨_, _, rfl, fun d hd => List.mem_takeWhile_imp hd,
      .inl (by rw [List.takeWhile_append_dropWhile])⟩
  · exact ⟨[], rest, rfl, fun d hd => absurd hd List.not_mem_nil, .inr ⟨rfl, rfl⟩⟩

theorem magnitude?_eq (neg : Bool) (cs : List Char) :
    magnitude? neg cs =
      let lower := cs.map Text.foldCase
      let whole := cs.takeWhile isDigit
      let (part, tail) := pointAndTail (cs.dropWhile isDigit)
      if lower = "inf".toList ∨ lower = "infinity".toList then some (.infinite neg)
      else if lower = "nan".toList then some .nan
      else if whole.isEmpty && part.isEmpty then none
      else (exponent? tail).map fun e =>
        .finite neg (digitsValue (whole ++ part)) (e - part.length) := rfl

/-- Before the exponent of a zero there is nothing but zeros and a point. -/
theorem zeros_of_magnitude {neg n : Bool} {cs : List Char} {e : Int}
    (h : magnitude? neg cs = some (.finite n 0 e)) :
    ∃ zeros tail, cs = zeros ++ tail ∧ (∀ c ∈ zeros, c = '0' ∨ c = '.')
      ∧ ∀ c ∈ tail.head?, c = 'e' ∨ c = 'E' := by
  obtain ⟨part, tail, hpoint, hpart, hrest⟩ := pointAndTail_spec (cs.dropWhile isDigit)
  have hcs : cs = cs.takeWhile isDigit ++ cs.dropWhile isDigit :=
    List.takeWhile_append_dropWhile.symm
  have hdigits : ∀ d ∈ cs.takeWhile isDigit ++ part, isDigit d = true := fun d hd =>
    (List.mem_append.mp hd).elim List.mem_takeWhile_imp (hpart d)
  simp only [magnitude?_eq, hpoint] at h
  split at h
  · cases h
  split at h
  · cases h
  split at h
  · cases h
  obtain ⟨exp, hexp, hfinite⟩ := Option.map_eq_some_iff.mp h
  have hvalue : digitsValue (cs.takeWhile isDigit ++ part) = 0 := (Real.finite.inj hfinite).2.1
  have hzeros := zeros_of_digitsValue hdigits hvalue
  rcases hrest with hrest | ⟨rfl, hrest⟩
  · refine ⟨cs.takeWhile isDigit ++ '.' :: part, tail, ?_, ?_, head_of_exponent hexp⟩
    · rw [List.append_assoc, List.cons_append, ← hrest]
      exact hcs
    · intro c hc
      rcases List.mem_append.mp hc with hc | hc
      · exact .inl (hzeros c (List.mem_append_left _ hc))
      · rcases List.mem_cons.mp hc with rfl | hc
        · exact .inr rfl
        · exact .inl (hzeros c (List.mem_append_right _ hc))
  · refine ⟨cs.takeWhile isDigit, tail, hrest ▸ hcs, fun c hc => ?_, head_of_exponent hexp⟩
    exact .inl (hzeros c (List.mem_append_left _ hc))

/-! ## A digit other than zero -/

/-- A number with a digit other than zero, before which there is nothing but
a sign, zeros and a point. -/
structure IsNonzero (cs : List Char) : Prop where
  digit : ∃ sign zeros d more, cs = sign ++ (zeros ++ d :: more) ∧ (sign = [] ∨ sign = ['-'])
    ∧ (∀ c ∈ zeros, c = '0' ∨ c = '.') ∧ isDigit d = true ∧ d ≠ '0'
  unblank : ∀ c ∈ cs, isBlank c = false

/-- The digit is not in what a zero has before its exponent. -/
theorem not_magnitude_zero {zeros more : List Char} {d : Char}
    (hzeros : ∀ c ∈ zeros, c = '0' ∨ c = '.') (hd : isDigit d = true) (hne : d ≠ '0')
    (neg n : Bool) (e : Int) : magnitude? neg (zeros ++ d :: more) ≠ some (.finite n 0 e) := by
  intro h
  obtain ⟨front, tail, hcs, hfront, htail⟩ := zeros_of_magnitude h
  have hother : ¬ (d = '0' ∨ d = '.') := by
    rintro (rfl | rfl)
    · exact hne rfl
    · cases hd
  have hletter : ¬ (d = 'e' ∨ d = 'E') := by
    rintro (rfl | rfl) <;> cases hd
  rcases List.append_eq_append_iff.mp hcs with ⟨more', rfl, hrest⟩ | ⟨more', rfl, hrest⟩
  · -- the exponent begins at the digit or after it
    cases more' with
    | nil =>
      have htailed : tail = d :: more := hrest.symm
      exact hletter (htail d (htailed ▸ rfl))
    | cons c more' =>
      obtain ⟨rfl, -⟩ := List.cons.inj hrest
      exact hother (hfront d (by simp))
  · -- the exponent begins among the zeros
    cases more' with
    | nil => exact hletter (htail d (hrest ▸ rfl))
    | cons c more' =>
      have hzero := hzeros c (by simp)
      have he := htail c (hrest ▸ rfl)
      rcases hzero with rfl | rfl <;> exact absurd he (by decide)

/-- A text that begins with a digit or a point has no sign. -/
theorem real?_unsigned {c : Char} (hplus : c ≠ '+') (hminus : c ≠ '-') (cs : List Char) :
    real? (c :: cs) = magnitude? false (c :: cs) := by
  simp [real?, hplus, hminus]

/-- Such a text is no zero. -/
theorem IsNonzero.not_spellsZero {cs : List Char} (h : IsNonzero cs) :
    ¬ SpellsZero (String.ofList cs) := by
  rintro ⟨neg, e, hzero⟩
  obtain ⟨sign, zeros, d, more, rfl, hsign, hzeros, hd, hne⟩ := h.digit
  rw [String.toList_ofList, trim_eq_self h.unblank] at hzero
  rcases hsign with rfl | rfl
  · have hunsigned : real? (zeros ++ d :: more) = magnitude? false (zeros ++ d :: more) := by
      cases zeros with
      | nil =>
        refine real?_unsigned ?_ ?_ more
        · rintro rfl
          cases hd
        · rintro rfl
          cases hd
      | cons c zeros =>
        have hc := hzeros c List.mem_cons_self
        rcases hc with rfl | rfl <;> exact real?_unsigned (by decide) (by decide) _
    rw [List.nil_append, hunsigned] at hzero
    exact not_magnitude_zero hzeros hd hne _ _ _ hzero
  · exact not_magnitude_zero hzeros hd hne _ _ _ hzero

/-- Nor is it blank. -/
theorem IsNonzero.not_allBlank {cs : List Char} (h : IsNonzero cs) :
    allBlank (String.ofList cs) = false := by
  obtain ⟨sign, zeros, d, more, rfl, -, -, hd, -⟩ := h.digit
  rw [allBlank, String.toList_ofList, List.all_eq_false]
  exact ⟨d, by simp, by simp [isBlank_of_isDigit hd]⟩

/-! ## Numbers in writing -/

/-- The digits of a number other than zero begin with another digit. -/
theorem toDigits_cons {n : Nat} (hn : n ≠ 0) :
    ∃ d more, Nat.toDigits 10 n = d :: more ∧ isDigit d = true ∧ d ≠ '0'
      ∧ ∀ c ∈ more, isDigit c = true := by
  obtain ⟨d, more, hdigits⟩ := List.exists_cons_of_ne_nil (Nat.toDigits_ne_nil (b := 10) (n := n))
  have hall := (Json.digits_toDigits n).digits
  rw [hdigits] at hall
  obtain ⟨hd, hmore⟩ := List.forall_mem_cons.mp hall
  refine ⟨d, more, hdigits, hd, ?_, hmore⟩
  rintro rfl
  exact hn (Json.head?_toDigits (by rw [hdigits]; rfl))

theorem isBlank_toDigits (n : Nat) : ∀ c ∈ Nat.toDigits 10 n, isBlank c = false :=
  fun c hc => isBlank_of_isDigit ((Json.digits_toDigits n).digits c hc)

theorem isNonzero_of_parts {sign zeros more : List Char} {d : Char}
    (hsign : sign = [] ∨ sign = ['-']) (hzeros : ∀ c ∈ zeros, c = '0' ∨ c = '.')
    (hd : isDigit d = true) (hne : d ≠ '0') (hmore : ∀ c ∈ more, isBlank c = false) :
    IsNonzero (sign ++ (zeros ++ d :: more)) where
  digit := ⟨sign, zeros, d, more, rfl, hsign, hzeros, hd, hne⟩
  unblank := by
    refine List.forall_mem_append.mpr ⟨?_, List.forall_mem_append.mpr ⟨fun c hc => ?_, ?_⟩⟩
    · rcases hsign with rfl | rfl
      · exact fun c hc => absurd hc List.not_mem_nil
      · exact List.forall_mem_singleton.mpr rfl
    · rcases hzeros c hc with rfl | rfl <;> rfl
    · exact List.forall_mem_cons.mpr ⟨isBlank_of_isDigit hd, hmore⟩

theorem isNonzero_intText {n : Int} (hn : n ≠ 0) : IsNonzero (Json.intText n) := by
  obtain ⟨d, more, hdigits, hd, hne, hmore⟩ := toDigits_cons (Int.natAbs_ne_zero.mpr hn)
  have hzeros : ∀ c ∈ ([] : List Char), c = '0' ∨ c = '.' := fun c hc => absurd hc List.not_mem_nil
  have hblank : ∀ c ∈ more, isBlank c = false := fun c hc => isBlank_of_isDigit (hmore c hc)
  unfold Json.intText
  split
  · rw [hdigits]
    exact isNonzero_of_parts (.inr rfl) hzeros hd hne hblank
  · rw [hdigits]
    exact isNonzero_of_parts (.inl rfl) hzeros hd hne hblank

/-- Only zeros and a point are put before the digits of a number that is
written with a point. -/
theorem positional_cons {d : Char} {more : List Char} (hmore : ∀ c ∈ more, isBlank c = false)
    (point : Int) :
    ∃ zeros rest, positional (d :: more) point = zeros ++ d :: rest
      ∧ (∀ c ∈ zeros, c = '0' ∨ c = '.') ∧ ∀ c ∈ rest, isBlank c = false := by
  have hpad : ∀ k, ∀ c ∈ List.replicate k '0', c = '0' := fun _ _ hc => List.eq_of_mem_replicate hc
  unfold positional
  split
  · refine ⟨'0' :: '.' :: List.replicate (-point).toNat '0', more, by simp, ?_, hmore⟩
    exact List.forall_mem_cons.mpr ⟨.inl rfl,
      List.forall_mem_cons.mpr ⟨.inr rfl, fun c hc => .inl (hpad _ c hc)⟩⟩
  split
  · refine ⟨[], _, rfl, fun c hc => absurd hc List.not_mem_nil, ?_⟩
    have hpoint : ∀ c ∈ ['.', '0'], isBlank c = false :=
      List.forall_mem_cons.mpr ⟨rfl, List.forall_mem_singleton.mpr rfl⟩
    refine List.forall_mem_append.mpr ⟨List.forall_mem_append.mpr ⟨hmore, fun c hc => ?_⟩, hpoint⟩
    rw [hpad _ c hc]
    rfl
  · obtain ⟨k, hk⟩ : ∃ k, point.toNat = k + 1 := ⟨point.toNat - 1, by omega⟩
    rw [hk]
    refine ⟨[], more.take k ++ '.' :: more.drop k, rfl, fun c hc => absurd hc List.not_mem_nil, ?_⟩
    refine List.forall_mem_append.mpr ⟨fun c hc => hmore c (List.mem_of_mem_take hc), ?_⟩
    exact List.forall_mem_cons.mpr ⟨rfl, fun c hc => hmore c (List.mem_of_mem_drop hc)⟩

/-- Nothing is put before the digits of a number that is written with an
exponent. -/
theorem scientific_cons {d : Char} {more : List Char} (hmore : ∀ c ∈ more, isBlank c = false)
    (point : Int) :
    ∃ rest, scientific (d :: more) point = d :: rest ∧ ∀ c ∈ rest, isBlank c = false := by
  have htail : ∀ c ∈ 'e' :: (if point - 1 < 0 then '-' else '+') ::
      Nat.toDigits 10 (point - 1).natAbs, isBlank c = false := by
    refine List.forall_mem_cons.mpr ⟨rfl, List.forall_mem_cons.mpr ⟨?_, isBlank_toDigits _⟩⟩
    split <;> rfl
  cases more with
  | nil => exact ⟨_, rfl, htail⟩
  | cons c more =>
    exact ⟨_, rfl, List.forall_mem_cons.mpr ⟨rfl, List.forall_mem_append.mpr ⟨hmore, htail⟩⟩⟩

/-- In either way only zeros and a point are put before them. -/
theorem written_cons {d : Char} {more : List Char} (hmore : ∀ c ∈ more, isBlank c = false)
    (style : Notation) (point : Int) :
    ∃ zeros rest, (if -style.before < point ∧ point ≤ style.after then positional (d :: more) point
        else scientific (d :: more) point) = zeros ++ d :: rest
      ∧ (∀ c ∈ zeros, c = '0' ∨ c = '.') ∧ ∀ c ∈ rest, isBlank c = false := by
  split
  · exact positional_cons hmore point
  · obtain ⟨rest, heq, hrest⟩ := scientific_cons hmore point
    exact ⟨[], rest, heq, fun c hc => absurd hc List.not_mem_nil, hrest⟩

/-- **Numbers in writing.** A binary number other than zero is written with a
digit other than zero. -/
theorem isNonzero_text {x : Binary} (hx : x.mant ≠ 0) (he : -1074 ≤ x.exp) (style : Notation) :
    IsNonzero (x.text .double style) := by
  obtain ⟨d, more, hdigits, hd, hne, hmore⟩ := toDigits_cons (shortest_ne_zero hx he)
  obtain ⟨zeros, rest, hwritten, hzeros, hrest⟩ := written_cons (d := d)
    (fun c hc => isBlank_of_isDigit (hmore c hc)) style
    ((Format.double.shortest x).2 + (d :: more).length)
  have hsign : (if x.neg then ['-'] else []) = [] ∨ (if x.neg then ['-'] else []) = ['-'] := by
    cases x.neg <;> simp
  simp only [Binary.text, hx, if_false, hdigits, hwritten]
  exact isNonzero_of_parts hsign hzeros hd hne hrest

/-- A zero is written as one, with a point. -/
theorem spellsZero_text {x : Binary} (hx : x.mant = 0) (style : Notation) :
    SpellsZero (String.ofList (x.text .double style)) := by
  have htext : x.text .double style = (if x.neg then ['-'] else []) ++ ['0', '.', '0'] := by
    simp only [Binary.text, hx, if_true]
  rw [htext]
  cases x.neg
  · exact ⟨false, -1, by decide⟩
  · exact ⟨true, -1, by decide⟩

end CallAudit.Number
