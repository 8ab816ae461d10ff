/-
CallAudit.Proofs.Json.Numerals — the numbers that numerals stand for.

* `Numeral.IsInt` — a numeral of digits alone, and the whole number it is.
* `realOf_zero` — zero stays zero at any power of ten.
* `value_of_isInt` — a whole number that fits in 64 bits is read as it is; a
  zero with a minus sign is read as a zero, too.
-/
import CallAudit.Proofs.Json.Printing
import CallAudit.Proofs.Number.Nearest

namespace CallAudit.Json

open CallAudit.Number (Binary Format signed)

/-! ## Zero -/

theorem times_zero (neg : Bool) (e : Int) (y : Binary) :
    (Binary.mk neg 0 e).times .double y = some ⟨neg != y.neg, 0, -1074⟩ := by
  simp [Binary.times, Number.scaled, Format.ofRatio, Format.nearest, Format.double]

theorem over_zero (neg : Bool) (e : Int) (y : Binary) :
    (Binary.mk neg 0 e).over .double y = some ⟨neg != y.neg, 0, -1074⟩ := by
  simp [Binary.over, Number.scaled, Format.ofRatio, Format.nearest, Format.double]

theorem realOf_zero (neg : Bool) (e : Int) : realOf neg 0 e = some (.real ⟨neg, 0, -1074⟩) := by
  have hzero : Format.double.ofRatio false 0 1 = some ⟨false, 0, -1074⟩ := by
    simp [Format.ofRatio, Format.nearest, Format.double]
  rw [realOf, hzero, Option.bind_some, scaleTen]
  split
  · split
    · rw [times_zero]
      rfl
    · rw [over_zero]
      rfl
  · rfl

/-! ## Whole numbers -/

/-- A numeral without a point and without an exponent, and the whole number
that its digits and its sign make. -/
structure Numeral.IsInt (x : Numeral) (n : Int) : Prop where
  part : x.part = none
  exp : x.exp = none
  value : signed x.neg (x.whole.foldl (fun n d => 10 * n + d) 0) = n

theorem natAbs_signed (neg : Bool) (n : Nat) : (signed neg n).natAbs = n := by
  cases neg <;> simp [signed]

/-- The digits of a whole number stand for it. -/
theorem isInt_wholeNumeral (n : Int) : (wholeNumeral n).IsInt n where
  part := rfl
  exp := rfl
  value := by
    have hdigits : ((Nat.toDigits 10 n.natAbs).map Number.digitValue).foldl
        (fun n d => 10 * n + d) 0 = n.natAbs := by
      rw [List.foldl_map]
      exact Nat.ofDigitChars_ten_toDigits
    rw [wholeNumeral, hdigits]
    exact Number.signed_natAbs n

/-- A number that fits in 64 bits with a sign is read as it is, but for the
zero with a minus sign. -/
theorem value_of_isInt {x : Numeral} {n : Int} (h : x.IsInt n)
    (hfits : n.natAbs ≤ 9223372036854775808) :
    x.value = some (.whole n) ∨ n = 0 ∧ x.value = some (.real ⟨true, 0, -1074⟩) := by
  obtain ⟨neg, whole, part, exp⟩ := x
  obtain ⟨hpart, hexp, hvalue⟩ := h
  simp only at hpart hexp hvalue
  have habs : whole.foldl (fun n d => 10 * n + d) 0 = n.natAbs := by
    rw [← hvalue, natAbs_signed]
  have hgather : gatherWhole 0 whole = (n.natAbs, 0) := by
    rw [gatherWhole_fits (by unfold maxWord; omega), habs]
  rw [habs] at hvalue
  simp only [Numeral.value, hpart, hexp, hgather, Nat.lt_irrefl, if_false]
  cases neg with
  | false =>
    have hsame : (n.natAbs : Int) = n := hvalue
    simp [hsame]
  | true =>
    have hsame : -(n.natAbs : Int) = n := hvalue
    by_cases hzero : n = 0
    · subst hzero
      exact .inr ⟨rfl, realOf_zero true 0⟩
    · have hsmall : 0 < n.natAbs ∧ n.natAbs ≤ 9223372036854775808 := by omega
      left
      simp only [Bool.not_true, Bool.false_eq_true, if_false, hsmall, and_self, if_true, hsame]

end CallAudit.Json
