/-
CallAudit.Proofs.Number.Shortest — the shortest decimal of a number other
than zero is other than zero.

The search for the shortest decimal starts at the power of ten at the head of
the number and goes down from there. A decimal that it finds on a grid is
never zero; where it finds none it gives the number itself on the last grid,
which is fine enough for the number to have digits there. Both searches have
a limit, which is high enough for numbers of sixty-four bits, but not for
every mantissa and exponent: what is shown is shown from the format's least
exponent up.

* `Reaches` — a quotient is a power of ten at least.
* `leadingTen_reaches` — the power at the head is one that is reached.
* `shortest_ne_zero` — the shortest decimal.
-/
import CallAudit.Number.Shortest
import Mathlib.Data.Nat.Digits.Defs

namespace CallAudit.Number

/-! ## Powers of ten -/

/-- The quotient `n / d` is at least `10 ^ g`. -/
def Reaches (n d : Nat) (g : Int) : Prop :=
  d * tenTo g.toNat ≤ n * tenTo (-g).toNat

theorem tenTo_le {m n : Nat} (h : m ≤ n) : tenTo m ≤ tenTo n :=
  Nat.pow_le_pow_right (by decide) h

theorem Reaches.mono {n d : Nat} {g g' : Int} (h : Reaches n d g) (hle : g' ≤ g) :
    Reaches n d g' :=
  calc d * tenTo g'.toNat ≤ d * tenTo g.toNat := Nat.mul_le_mul_left d (tenTo_le (by omega))
    _ ≤ n * tenTo (-g).toNat := h
    _ ≤ n * tenTo (-g').toNat := Nat.mul_le_mul_left n (tenTo_le (by omega))

/-- The search for the power at the head ends at one that is reached, if its
limit lets it come as far. -/
theorem leadingTen_reaches {n d : Nat} {fuel : Nat} {guess : Int}
    (h : Reaches n d (guess - fuel)) : Reaches n d (leadingTen n d (fuel + 1) guess) := by
  induction fuel generalizing guess with
  | zero =>
    rw [Int.ofNat_zero, Int.sub_zero] at h
    have hfirst : leadingTen n d 1 guess = guess := if_pos h
    rw [hfirst]
    exact h
  | succ fuel ih =>
    rw [leadingTen]
    split
    · assumption
    · have hless : guess - (fuel + 1 : Nat) = guess - 1 - fuel := by omega
      exact ih (hless ▸ h)

/-- A whole number has its first digit at the power of ten that its other
digits take. -/
theorem pow_length_le {n : Nat} (hn : 0 < n) : 10 ^ ((Nat.toDigits 10 n).length - 1) ≤ n := by
  rcases Nat.eq_zero_or_pos ((Nat.toDigits 10 n).length - 1) with hone | hmore
  · rw [hone]
    exact hn
  · by_contra hlt
    have := Nat.toDigits_length 10 n _ hmore (Nat.lt_of_not_le hlt)
    omega

/-- So the search starts at most one above the power at the head. -/
theorem reaches_length {n d : Nat} (hd : 0 < d) (hdn : d ≤ n) :
    Reaches n d ((Nat.toDigits 10 (n / d)).length - 1) := by
  have hlength : 0 < (Nat.toDigits 10 (n / d)).length :=
    List.length_pos_iff.mpr Nat.toDigits_ne_nil
  have hup : (((Nat.toDigits 10 (n / d)).length : Int) - 1).toNat
      = (Nat.toDigits 10 (n / d)).length - 1 := by omega
  have hdown : (-(((Nat.toDigits 10 (n / d)).length : Int) - 1)).toNat = 0 := by omega
  have hpow := pow_length_le (Nat.div_pos hdn hd)
  rw [Reaches, hup, hdown]
  calc d * tenTo ((Nat.toDigits 10 (n / d)).length - 1) ≤ d * (n / d) := Nat.mul_le_mul_left d hpow
    _ ≤ n := Nat.mul_div_le n d
    _ = n * tenTo 0 := (Nat.mul_one n).symm

/-! ## Grids -/

/-- A decimal that is found on a grid is not zero. -/
theorem onGrid_ne_zero {lo mid hi den : Nat} {ends : Bool} {power : Int} {c : Nat}
    (h : onGrid lo mid hi den ends power = some c) : c ≠ 0 := by
  simp only [onGrid] at h
  split at h
  · rename_i hinside _
    rw [Bool.and_eq_true, bne_iff_ne] at hinside
    -- the nearer one of two
    split at h
    · obtain rfl := Option.some.inj h
      exact hinside.2
    · obtain rfl := Option.some.inj h
      exact Nat.succ_ne_zero _
  · rename_i hinside _
    rw [Bool.and_eq_true, bne_iff_ne] at hinside
    obtain rfl := Option.some.inj h
    exact hinside.2
  · obtain rfl := Option.some.inj h
    exact Nat.succ_ne_zero _
  · cases h

/-- Nor is the number itself on the last grid, if the grid is fine enough. -/
theorem searchGrids_ne_zero {lo mid hi den : Nat} {ends : Bool} (hden : 0 < den) {fuel : Nat}
    {power : Int} (h : Reaches mid den (power - fuel)) :
    (searchGrids lo mid hi den ends fuel power).1 ≠ 0 := by
  induction fuel generalizing power with
  | zero =>
    rw [Int.ofNat_zero, Int.sub_zero] at h
    have hgrid : 0 < den * tenTo power.toNat := Nat.mul_pos hden (Nat.pow_pos (by decide))
    exact Nat.ne_of_gt (Nat.div_pos h hgrid)
  | succ fuel ih =>
    rw [searchGrids]
    split
    · rename_i c hc
      exact onGrid_ne_zero hc
    · have hless : power - (fuel + 1 : Nat) = power - 1 - fuel := by omega
      exact ih (hless ▸ h)

/-! ## The shortest decimal -/

/-- Three powers of two are less than one of ten. -/
theorem twoTo_le_tenTo {m n : Nat} (h : m ≤ 3 * n) : twoTo m ≤ tenTo n :=
  calc twoTo m ≤ 2 ^ (3 * n) := Nat.pow_le_pow_right (by decide) h
    _ = (2 ^ 3) ^ n := Nat.pow_mul 2 3 n
    _ ≤ tenTo n := Nat.pow_le_pow_left (by decide) n

/-- A binary number is no smaller than a power of ten that depends on its
exponent alone. -/
theorem reaches_scaled {m : Nat} (hm : 0 < m) {e : Int} {k : Nat} (he : -(3 * k : Int) ≤ e) :
    Reaches (scaled (4 * m) 4 e).1 (scaled (4 * m) 4 e).2 (-k) := by
  have hpow : twoTo (-e).toNat ≤ tenTo k := twoTo_le_tenTo (by omega)
  have hmant : 4 ≤ 4 * m * twoTo e.toNat :=
    calc 4 ≤ 4 * m := by omega
      _ ≤ 4 * m * twoTo e.toNat := Nat.le_mul_of_pos_right _ (Nat.two_pow_pos _)
  have hup : (-(k : Int)).toNat = 0 := by omega
  rw [Reaches, scaled, hup, Int.neg_neg, Int.toNat_natCast]
  calc 4 * twoTo (-e).toNat * tenTo 0 = 4 * twoTo (-e).toNat := Nat.mul_one _
    _ ≤ 4 * m * twoTo e.toNat * tenTo k := Nat.mul_le_mul hmant hpow

/-- **The shortest decimal.** A number of sixty-four bits other than zero is
not written as zero. -/
theorem shortest_ne_zero {x : Binary} (hx : x.mant ≠ 0) (he : -1074 ≤ x.exp) :
    (Format.double.shortest x).1 ≠ 0 := by
  obtain ⟨mid, den, hscaled⟩ : ∃ mid den, scaled (4 * x.mant) 4 x.exp = (mid, den) := ⟨_, _, rfl⟩
  have hthird : -(3 * (358 : Nat) : Int) ≤ x.exp := by omega
  have hleast := reaches_scaled (Nat.pos_of_ne_zero hx) hthird
  rw [hscaled] at hleast
  have hden : 0 < den := by
    obtain ⟨-, rfl⟩ := Prod.mk.inj hscaled
    exact Nat.mul_pos (by decide) (Nat.two_pow_pos _)
  have htop : Reaches mid den (leadingTen mid den 800 (Nat.toDigits 10 (mid / den)).length) := by
    refine leadingTen_reaches ?_
    rcases Nat.lt_or_ge mid den with hsmall | hlarge
    · have hdigits : (Nat.toDigits 10 (mid / den)).length = 1 := by
        rw [Nat.div_eq_of_lt hsmall]
        rfl
      rw [hdigits]
      exact hleast.mono (by decide)
    · exact (reaches_length hden hlarge).mono (by omega)
  simp only [Format.shortest, hscaled]
  refine searchGrids_ne_zero hden (htop.mono ?_)
  omega

end CallAudit.Number
