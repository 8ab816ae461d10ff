/-
CallAudit.Proofs.Number.Nearest — binary numbers that hold a whole number.

A whole number of no more than fifty-three bits is a binary number of
sixty-four bits as it is: its power of two is taken so that nothing is cut
off, and the next larger one, two to the fifty-third, is a power of two. So
rounding it once more gives the same whole number.

* `nearest_of_exp` — the nearest number, once its power of two is known.
* `least_le_of_nearest` — its power of two is never below the format's least.
* `nearest_whole` — nothing of a whole number of fifty-three bits is lost.
* `rounded_toBinary` — a whole number is what its binary number rounds to.
-/
import CallAudit.Json.Value
import Mathlib.Tactic.Ring

namespace CallAudit.Number

/-! ## The nearest number -/

/-- The nearest number at a power of two at which its mantissa does not pass
the bits there are. -/
theorem nearest_of_exp {f : Format} {n d m : Nat} {e : Int} (hpos : 0 < n)
    (hexp : max f.least (leadingPower n d - ((f.bits : Int) - 1)) = e)
    (hmant : halfEven (scaled n d (-e)).1 (scaled n d (-e)).2 = m) (hbits : m < 2 ^ f.bits)
    (hmost : e ≤ f.most) : f.nearest n d = some (m, e) := by
  have hcarry : ¬ m = twoTo f.bits := Nat.ne_of_lt hbits
  simp only [Format.nearest, Nat.ne_of_gt hpos, if_false, hexp, hmant, hcarry,
    Int.not_lt.mpr hmost]

/-- Its power of two is no smaller than the format's least. -/
theorem least_le_of_nearest {f : Format} {n d m : Nat} {e : Int}
    (h : f.nearest n d = some (m, e)) : f.least ≤ e := by
  simp only [Format.nearest] at h
  split at h
  · obtain ⟨-, rfl⟩ := Prod.mk.inj (Option.some.inj h)
    exact Int.le_refl _
  split at h
  · -- a carry makes it one larger
    split at h
    · cases h
    · obtain ⟨-, rfl⟩ := Prod.mk.inj (Option.some.inj h)
      exact Int.le_trans (Int.le_max_left _ _) (Int.le_add_of_nonneg_right (by decide))
  · split at h
    · cases h
    · obtain ⟨-, rfl⟩ := Prod.mk.inj (Option.some.inj h)
      exact Int.le_max_left _ _

theorem least_le_of_ofRatio {f : Format} {neg : Bool} {n d : Nat} {x : Binary}
    (h : f.ofRatio neg n d = some x) : f.least ≤ x.exp := by
  obtain ⟨⟨m, e⟩, hnearest, rfl⟩ := Option.map_eq_some_iff.mp h
  exact least_le_of_nearest hnearest

/-! ## Whole numbers -/

theorem leadingPower_one {n : Nat} (hpos : 0 < n) : leadingPower n 1 = n.log2 := by
  have hlog : Nat.log2 1 = 0 := by decide
  have hle : 1 * twoTo n.log2 ≤ n * twoTo 0 := by
    simpa [twoTo] using Nat.log2_self_le (Nat.ne_of_gt hpos)
  have hback : (-(n.log2 : Int)).toNat = 0 := by omega
  simp only [leadingPower, scaled, hlog, Int.ofNat_zero, Int.sub_zero, Int.toNat_natCast, hback,
    hle, if_true]

/-- What is whole already is not rounded. -/
theorem halfEven_one (n : Nat) : halfEven n 1 = n := by
  simp [halfEven, Nat.mod_one]

/-- Of a whole number of fifty-three bits nothing is cut off. -/
theorem nearest_whole {n : Nat} (hpos : 0 < n) (hn : n < 2 ^ 53) :
    Format.double.nearest n 1 = some (n * 2 ^ (52 - n.log2), -((52 - n.log2 : Nat) : Int)) := by
  have hlog : n.log2 < 53 := (Nat.log2_lt (Nat.ne_of_gt hpos)).mpr hn
  have hback : (-((52 - n.log2 : Nat) : Int)).toNat = 0 := by omega
  refine nearest_of_exp hpos ?_ ?_ ?_ ?_
  · rw [leadingPower_one hpos]
    simp only [Format.double]
    omega
  · rw [Int.neg_neg, scaled, hback, Int.toNat_natCast]
    exact halfEven_one _
  · calc n * 2 ^ (52 - n.log2) < 2 ^ (n.log2 + 1) * 2 ^ (52 - n.log2) :=
          Nat.mul_lt_mul_of_pos_right Nat.lt_log2_self (Nat.two_pow_pos _)
      _ = 2 ^ 53 := by rw [← Nat.pow_add]; congr 1; omega
  · simp only [Format.double]
    omega

/-- The half that is added in rounding does not reach the next whole
number. -/
theorem rounded_quotient (n : Nat) {d : Nat} (hd : 0 < d) : (2 * (n * d) + d) / (2 * d) = n := by
  have hsum : 2 * (n * d) + d = d + n * (2 * d) := by ring
  rw [hsum, Nat.add_mul_div_right _ _ (by omega), Nat.div_eq_of_lt (by omega), Nat.zero_add]

theorem rounded_scaled (neg : Bool) (n k : Nat) :
    Binary.rounded ⟨neg, n * 2 ^ k, -(k : Int)⟩ = signed neg n := by
  have hback : (-(k : Int)).toNat = 0 := by omega
  have hquotient := rounded_quotient n (Nat.two_pow_pos k)
  simp only [Binary.rounded, Binary.ratio, scaled, hback, Int.neg_neg, Int.toNat_natCast, twoTo,
    Nat.pow_eq, Nat.pow_zero, Nat.mul_one, Nat.one_mul, hquotient]

theorem signed_natAbs (n : Int) : signed (n < 0) n.natAbs = n := by
  simp only [signed, decide_eq_true_eq]
  split <;> omega

/-- **Exactness.** A whole number between the largest powers of two is what
the binary number nearest to it rounds to. -/
theorem rounded_toBinary {n : Int} (h : n.natAbs ≤ 2 ^ 53) :
    (Json.Number.toBinary (.whole n)).rounded = n := by
  rcases Nat.lt_or_eq_of_le h with hlt | hpower
  · rcases Nat.eq_zero_or_pos n.natAbs with hzero | hpos
    · obtain rfl := Int.natAbs_eq_zero.mp hzero
      have hround := rounded_scaled false 0 1074
      rw [Nat.zero_mul] at hround
      exact hround
    · have hround := rounded_scaled (n < 0) n.natAbs (52 - n.natAbs.log2)
      rw [signed_natAbs] at hround
      simpa only [Json.Number.toBinary, Format.ofRatio, nearest_whole hpos hlt, Option.map_some,
        Option.getD_some] using hround
  · rcases Int.natAbs_eq_iff.mp hpower with rfl | rfl <;> decide

end CallAudit.Number
