/-
CallAudit.Proofs.Time.Reading — instants are read back from the text they
are stored with.

A number that is written in a fixed number of digits is read back from
them, whatever follows (`digits?_padded`), and so is a fraction that has
lost the zeros at its end (`fraction?_shortFraction`) or has three, six or
nine digits (`fraction?_fractionText`). The parts of a text are then read
one after the other (`read?_parts`), for any fraction and any way to say
that the offset is none.

* `read?_offsetText` — an instant of the years from one to 9999 is read
  back. A leap second is told by a minute of sixty seconds, so only an
  instant outside leap seconds is sure to be the same one.
* `read?_zulu` — an instant of the years from zero to 9999 outside leap
  seconds is read back from the text with the letter Z.
* `Instant.year_le` — a later instant is in no earlier year.
-/
import CallAudit.Proofs.Text.Blank
import CallAudit.Proofs.Time.Calendar
import CallAudit.Time.Format
import Mathlib.Algebra.Group.Nat.Defs
import Mathlib.Data.List.TakeWhile

namespace CallAudit.Time

open CallAudit.Number (isDigit digitsValue)
open CallAudit.Text (trimStart isBlank isBlank_of_isDigit)

/-! ## Digits -/

theorem length_padded {width n : Nat} (hw : 0 < width) (h : n < 10 ^ width) :
    (padded width n).length = width := by
  have hlen := (Nat.length_toDigits_le_iff (by omega : 1 < 10) hw).mpr h
  simp only [padded, List.length_append, List.length_replicate]
  omega

theorem isDigit_of_mem_padded {width n : Nat} {c : Char} (h : c ∈ padded width n) :
    isDigit c = true := by
  rcases List.mem_append.mp h with h | h
  · rw [(List.mem_replicate.mp h).2]
    rfl
  · exact Nat.isDigit_of_mem_toDigits (by omega) (by omega) h

/-- A number is the value of its digits, with zeros before them or not. -/
theorem digitsValue_padded (width n : Nat) : digitsValue (padded width n) = n := by
  show Nat.ofDigitChars 10 (padded width n) 0 = n
  rw [padded, Nat.ofDigitChars_append, Nat.ofDigitChars_replicate_zero, Nat.mul_zero,
    Nat.ofDigitChars_ten_toDigits]

theorem digits?_padded {width n : Nat} (hw : 0 < width) (h : n < 10 ^ width) (rest : List Char) :
    digits? width (padded width n ++ rest) = some (n, rest) := by
  have hlen := length_padded hw h
  have htake : ((padded width n ++ rest).take width).takeWhile isDigit = padded width n := by
    rw [List.take_left' hlen]
    exact List.takeWhile_eq_self_iff.mpr fun c hc => isDigit_of_mem_padded hc
  have hne : (padded width n).isEmpty = false := by
    rw [List.isEmpty_eq_false_iff, ← List.length_pos_iff, hlen]
    exact hw
  simp only [digits?, htake, hne, Bool.false_eq_true, if_false, digitsValue_padded,
    List.drop_left]

/-- A padded number begins with a digit. -/
theorem padded_eq_cons {width n : Nat} (hw : 0 < width) (h : n < 10 ^ width) :
    ∃ c cs, padded width n = c :: cs ∧ isDigit c = true := by
  cases hds : padded width n with
  | nil =>
    have hlen := length_padded hw h
    rw [hds, List.length_nil] at hlen
    omega
  | cons c cs => exact ⟨c, cs, rfl, isDigit_of_mem_padded (hds ▸ List.mem_cons_self)⟩

theorem trimStart_padded {width n : Nat} (hw : 0 < width) (h : n < 10 ^ width)
    (rest : List Char) : trimStart (padded width n ++ rest) = padded width n ++ rest := by
  obtain ⟨c, cs, hds, hc⟩ := padded_eq_cons hw h
  rw [hds, List.cons_append, trimStart, List.dropWhile_cons, isBlank_of_isDigit hc]
  rfl

/-! ## Parts of a text -/

theorem part?_padded {n : Nat} (h : n < 100) (rest : List Char) :
    part? (padded 2 n ++ rest) = some (n, rest) := by
  rw [part?, trimStart_padded (by omega) h, digits?_padded (by omega) h]

theorem separator?_cons {c : Char} (hc : isBlank c = false) (rest : List Char) :
    separator? c (c :: rest) = some rest := by
  simp [separator?, trimStart, hc]

theorem year?_padded {n : Nat} (h : n ≤ 9999) (rest : List Char) :
    year? (padded 4 n ++ rest) = some ((n : Int), rest) := by
  have hlt : n < 10 ^ 4 := by omega
  have hread : digits? 4 (padded 4 n ++ rest) = some (n, rest) :=
    digits?_padded (by omega) hlt rest
  obtain ⟨c, cs, hds, hc⟩ := padded_eq_cons (by omega : 0 < 4) hlt
  rw [year?, trimStart_padded (by omega) hlt]
  rw [hds, List.cons_append] at hread ⊢
  -- a sign is no digit
  split
  · rename_i heq
    cases heq
    cases hc
  · rename_i heq
    cases heq
    cases hc
  · rw [hread]
    rfl

/-! ## Fractions -/

/-- A text is what is left without the zeros at its end, and zeros. -/
theorem eq_append_zeros (cs : List Char) : ∃ k,
    cs = (cs.reverse.dropWhile (· == '0')).reverse ++ List.replicate k '0' := by
  have hzeros : cs.reverse.takeWhile (· == '0')
      = List.replicate (cs.reverse.takeWhile (· == '0')).length '0' :=
    List.eq_replicate_of_mem fun c hc => by simpa using List.mem_takeWhile_imp hc
  refine ⟨(cs.reverse.takeWhile (· == '0')).length, ?_⟩
  rw [← List.reverse_replicate, ← hzeros, ← List.reverse_append, List.takeWhile_append_dropWhile,
    List.reverse_reverse]

/-- Where there is no point there is no fraction. -/
theorem fraction?_none {c : Char} (hpoint : c ≠ '.') (rest : List Char) :
    fraction? (c :: rest) = some (0, c :: rest) := by
  rw [fraction?.eq_def]
  split
  · rename_i heq
    cases heq
    exact absurd rfl hpoint
  · rfl

/-- The digits after a point are read up to what is no digit. -/
theorem fraction?_digits {ds : List Char} (hdigits : ∀ d ∈ ds, isDigit d = true) (hne : ds ≠ [])
    (hlen : ds.length ≤ 9) {c : Char} (hc : isDigit c = false) (rest : List Char) :
    fraction? ('.' :: (ds ++ c :: rest))
      = some (digitsValue ds * 10 ^ (9 - ds.length), c :: rest) := by
  have htake : (ds ++ c :: rest).takeWhile isDigit = ds := by
    rw [List.takeWhile_append_of_pos hdigits, List.takeWhile_cons, hc]
    exact List.append_nil ds
  have hempty : ds.isEmpty = false := List.isEmpty_eq_false_iff.mpr hne
  simp only [fraction?, htake, hempty, Bool.false_eq_true, if_false,
    List.take_of_length_le hlen, List.drop_left, Number.tenTo]
  rfl

/-- A fraction is read back, up to what is neither a digit nor a point. -/
theorem fraction?_shortFraction {nano : Nat} (h : nano < 1000000000) {c : Char}
    (hc : isDigit c = false) (hpoint : c ≠ '.') (rest : List Char) :
    fraction? (shortFraction nano ++ c :: rest) = some (nano, c :: rest) := by
  unfold shortFraction
  split
  · rename_i hzero
    rw [hzero]
    exact fraction?_none hpoint rest
  · rename_i hpos
    obtain ⟨k, hk⟩ := eq_append_zeros (padded 9 nano)
    generalize (List.dropWhile (· == '0') (padded 9 nano).reverse).reverse = ds at hk ⊢
    have hlen : ds.length + k = 9 := by
      have := congrArg List.length hk
      rw [length_padded (by omega) (by omega)] at this
      simpa using this.symm
    have hvalue : digitsValue ds * 10 ^ k = nano := by
      have := congrArg digitsValue hk
      rw [digitsValue_padded] at this
      rw [this, Nat.mul_comm]
      exact (Nat.ofDigitChars_append _ ▸ Nat.ofDigitChars_replicate_zero).symm
    have hdigits : ∀ d ∈ ds, isDigit d = true := fun d hd =>
      isDigit_of_mem_padded (hk ▸ List.mem_append_left _ hd)
    have hne : ds ≠ [] := by
      rintro rfl
      exact hpos (Nat.zero_mul _ ▸ hvalue.symm)
    rw [List.cons_append, fraction?_digits hdigits hne (by omega) hc,
      show 9 - ds.length = k by omega, hvalue]

/-- A fraction of a few digits that are exact is read back. -/
theorem fraction?_padded (width : Nat) {nano : Nat} (hw : 0 < width ∧ width ≤ 9)
    (h : nano < 1000000000) (hexact : nano % 10 ^ (9 - width) = 0) {c : Char}
    (hc : isDigit c = false) (rest : List Char) :
    fraction? ('.' :: (padded width (nano / 10 ^ (9 - width)) ++ c :: rest))
      = some (nano, c :: rest) := by
  have hlen : (padded width (nano / 10 ^ (9 - width))).length = width := by
    refine length_padded hw.1 (Nat.div_lt_of_lt_mul ?_)
    rwa [← Nat.pow_add, show 9 - width + width = 9 by omega]
  have hne : padded width (nano / 10 ^ (9 - width)) ≠ [] := by
    rw [← List.length_pos_iff, hlen]
    exact hw.1
  rw [fraction?_digits (fun _ => isDigit_of_mem_padded) hne (by omega) hc, hlen,
    digitsValue_padded, Nat.div_mul_cancel (Nat.dvd_of_mod_eq_zero hexact)]

/-- A fraction in three, six or nine digits is read back. -/
theorem fraction?_fractionText {nano : Nat} (h : nano < 1000000000) {c : Char}
    (hc : isDigit c = false) (hpoint : c ≠ '.') (rest : List Char) :
    fraction? (fractionText nano ++ c :: rest) = some (nano, c :: rest) := by
  unfold fractionText
  split
  case isTrue hzero =>
    rw [hzero]
    exact fraction?_none hpoint rest
  split
  case isTrue hmillis => exact fraction?_padded 3 (by omega) h hmillis hc rest
  split
  case isTrue hmicros => exact fraction?_padded 6 (by omega) h hmicros hc rest
  case isFalse =>
    have := fraction?_padded 9 (by omega) h (Nat.mod_one nano) hc rest
    simpa using this

/-! ## Whole texts -/

theorem bind_of_some {α β : Type} {x : Option α} {v : α} (h : x = some v) (f : α → Option β) :
    (x >>= f) = f v := by
  rw [h]
  rfl

/-- A text is read part by part. A minute of sixty seconds has a leap second
at its end. -/
theorem read?_parts {n : Int} (hyear : 0 ≤ (dateOf n).year ∧ (dateOf n).year ≤ 9999)
    {hour minute second nano : Nat} (hclock : hour < 24 ∧ minute < 60 ∧ second ≤ 60)
    {tail zone : List Char} (hfraction : fraction? tail = some (nano, zone))
    (hzone : offset? zone = some (0, [])) :
    read? (padded 4 (dateOf n).year.natAbs ++ '-' :: (padded 2 (dateOf n).month ++ '-' ::
      (padded 2 (dateOf n).day ++ 'T' :: (padded 2 hour ++ ':' :: (padded 2 minute ++ ':' ::
        (padded 2 second ++ tail))))))
      = some (if second = 60 then
          .at_ (n * 86400 + (hour * 3600 + minute * 60 + 59 : Nat)) (nano + 1000000000)
        else .at_ (n * 86400 + (hour * 3600 + minute * 60 + second : Nat)) nano) := by
  have hdate := isDate_dateOf n
  have hmonth := month_dateOf n
  have hday : (dateOf n).day ≤ 31 := by
    simp only [isDate, Bool.and_eq_true, decide_eq_true_eq] at hdate
    exact Nat.le_trans hdate.2 (daysInMonth_le _ _)
  have hnat : ((dateOf n).year.natAbs : Int) = (dateOf n).year := by omega
  have hyear' : isYear (dateOf n).year = true := by
    simp only [isYear, Bool.and_eq_true, decide_eq_true_eq]
    omega
  have hminus : isBlank '-' = false := rfl
  have hcolon : isBlank ':' = false := rfl
  -- part by part, since the rest of a reading is a function of what was read before
  rw [read?]
  refine (bind_of_some (year?_padded (by omega) _) _).trans ?_
  refine (bind_of_some (separator?_cons hminus _) _).trans ?_
  refine (bind_of_some (part?_padded (by omega) _) _).trans ?_
  refine (bind_of_some (separator?_cons hminus _) _).trans ?_
  refine (bind_of_some (part?_padded (by omega) _) _).trans ?_
  refine (if_pos (Or.inl rfl)).trans ?_
  refine (bind_of_some rfl _).trans ?_
  refine (bind_of_some (part?_padded (by omega) _) _).trans ?_
  refine (bind_of_some (separator?_cons hcolon _) _).trans ?_
  refine (bind_of_some (part?_padded (by omega) _) _).trans ?_
  refine (bind_of_some (separator?_cons hcolon _) _).trans ?_
  refine (bind_of_some (part?_padded (by omega) _) _).trans ?_
  refine (bind_of_some hfraction _).trans ?_
  refine (bind_of_some hzone _).trans ?_
  rw [hnat]
  have hsame : (⟨(dateOf n).year, (dateOf n).month, (dateOf n).day⟩ : Date) = dateOf n := rfl
  -- a second of the day leaves the day as it is
  have hwithin : ∀ k : Nat, k < 86400 → isYear (dateOf ((n * 86400 + k - 0) / 86400)).year = true :=
    fun k hk => by rw [show (n * 86400 + k - 0) / 86400 = n by omega, hyear']
  have hparts : (decide (hour < 24) && decide (minute < 60) && decide (second ≤ 60)) = true := by
    simp [hclock]
  simp only [hsame, hyear', hdate, hparts, dayOf_dateOf, trimStart, List.dropWhile_nil,
    List.isEmpty_nil, Bool.and_self, Bool.not_true, Bool.false_eq_true, if_false]
  by_cases hleap : second = 60
  · simp only [hleap, if_true]
    rw [if_neg (by decide), if_pos (hwithin _ (by omega)), Int.sub_zero]
  · simp only [hleap, if_false]
    rw [if_neg (by decide), if_pos (hwithin _ (by omega)), Int.sub_zero]

/-! ## Instants -/

namespace Instant

/-- The year of an instant. -/
def year (t : Instant) : Int :=
  t.clock.date.year

/-- A later instant is in no earlier year. -/
theorem year_le {t u : Instant} (h : t ≤ u) : t.year ≤ u.year := by
  have hticks : t.ticks ≤ u.ticks := h
  refine year_mono ?_
  simp only [second, perSecond]
  omega

theorem nano_lt (t : Instant) : t.nano < 2000000000 := by
  simp only [nano, perSecond]
  omega

/-- An instant is put together again from its second and nanosecond. -/
theorem at_second_nano (t : Instant) : at_ t.second t.nano = t := by
  obtain ⟨ticks⟩ := t
  simp only [at_, second, nano, perSecond, mk.injEq]
  omega

/-- The text of an instant by the clock, with a fraction and a zone. -/
def stamp (t : Instant) (tail : List Char) : List Char :=
  padded 4 t.year.natAbs ++ '-' :: (padded 2 t.clock.date.month ++ '-' ::
    (padded 2 t.clock.date.day ++ 'T' :: (t.clock.time ++ tail)))

theorem clock_nano_lt (t : Instant) : t.clock.nano < 1000000000 := by
  have := t.nano_lt
  simp only [clock]
  split <;> omega

/-- **Reading back.** An instant of the years from zero to 9999 is read by
the clock. -/
theorem read?_stamp {t : Instant} (h : 0 ≤ t.year ∧ t.year ≤ 9999) {tail zone : List Char}
    (hfraction : fraction? tail = some (t.clock.nano, zone))
    (hzone : offset? zone = some (0, [])) :
    ∃ u, CallAudit.Time.read? (t.stamp tail) = some u ∧ (t.nano < 1000000000 → u = t) := by
  have hofDay : (t.second % 86400).toNat < 86400 := by omega
  have hsecond : t.second / 86400 * 86400 + (t.second % 86400).toNat = t.second := by omega
  have hclock : t.clock.hour < 24 ∧ t.clock.minute < 60 ∧ t.clock.second ≤ 60 := by
    simp only [clock]
    split <;> omega
  have hread := read?_parts (n := t.second / 86400) h hclock hfraction hzone
  have htext : t.stamp tail = padded 4 (dateOf (t.second / 86400)).year.natAbs ++ '-' ::
      (padded 2 (dateOf (t.second / 86400)).month ++ '-' ::
        (padded 2 (dateOf (t.second / 86400)).day ++ 'T' :: (padded 2 t.clock.hour ++ ':' ::
          (padded 2 t.clock.minute ++ ':' :: (padded 2 t.clock.second ++ tail))))) := by
    have hdate : t.clock.date = dateOf (t.second / 86400) := rfl
    simp only [stamp, year, hdate, Clock.time, List.append_assoc, List.cons_append]
  rw [htext, hread]
  refine ⟨_, rfl, fun hplain => ?_⟩
  -- outside a leap second the second of the minute is below sixty
  have hplain' : ¬ 1000000000 ≤ t.nano := by omega
  have hnano' : t.clock.nano = t.nano := by simp [clock, hplain']
  have hsecond' : t.clock.second = (t.second % 86400).toNat % 60 := by simp [clock, hplain']
  have hsum : t.clock.hour * 3600 + t.clock.minute * 60 + t.clock.second
      = (t.second % 86400).toNat := by
    rw [hsecond']
    simp only [clock]
    omega
  rw [if_neg (by omega), hsum, hnano', hsecond, at_second_nano]

/-- An instant of the years from one to 9999 is read from the text it is
stored with. -/
theorem read?_offsetText {t : Instant} (h : 1 ≤ t.year ∧ t.year ≤ 9999) :
    ∃ u, read? t.offsetText = some u ∧ (t.nano < 1000000000 → u = t) := by
  have hbefore : ¬ t.clock.date.year ≤ 0 := by
    have : 1 ≤ t.clock.date.year := h.1
    omega
  have htext : t.offsetText.toList
      = t.stamp (shortFraction t.clock.nano ++ ['+', '0', '0', ':', '0', '0']) := by
    simp only [offsetText, stamp, year, String.toList_ofList, List.append_assoc, List.cons_append,
      hbefore, if_false, List.append_nil]
  rw [read?, htext]
  exact read?_stamp ⟨by omega, h.2⟩
    (fraction?_shortFraction t.clock_nano_lt (rfl : isDigit '+' = false) (by decide) _)
    (by decide)

/-- An instant of the years from zero to 9999, outside leap seconds, is read
from its text with the letter Z. -/
theorem read?_zulu {t : Instant} (h : 0 ≤ t.year ∧ t.year ≤ 9999) (hplain : t.nano < 1000000000) :
    read? t.zulu = some t := by
  have hyear : 0 ≤ t.clock.date.year ∧ t.clock.date.year ≤ 9999 := h
  have htext : t.zulu.toList = t.stamp (fractionText t.clock.nano ++ ['Z']) := by
    simp only [zulu, stamp, year, Date.text, yearText, hyear, String.toList_ofList,
      List.append_assoc, List.cons_append, and_self, if_true]
  have hfraction := fraction?_fractionText t.clock_nano_lt (rfl : isDigit 'Z' = false)
    (by decide) []
  obtain ⟨u, hu, hsame⟩ := read?_stamp h hfraction (by decide)
  rw [read?, htext, hu, hsame hplain]

end Instant

end CallAudit.Time
