/-
CallAudit.Proofs.Time.Calendar — the date of a day and the day of a date.

* `daysBeforeYear_add` — the days before a year, by the periods of four
  hundred, one hundred, four and one years the year is made up of.
* `monthOf_spec` — the month and day of a day of the year: the days before
  the month and the day itself add up to the day of the year.
* `isDate_dateOf`, `dayOf_dateOf` — a day has a date, and is the day of this
  date.
* `year_mono` — a later day is in no earlier year.
-/
import CallAudit.Time.Calendar

namespace CallAudit.Time

/-! ## Years -/

theorem daysBeforeYear_add {eras centuries fours ones : Int} (hc : 0 ≤ centuries ∧ centuries ≤ 3)
    (hf : 0 ≤ fours ∧ fours ≤ 24) (ho : 0 ≤ ones ∧ ones ≤ 3) :
    daysBeforeYear (eras * 400 + centuries * 100 + fours * 4 + ones + 1)
      = eras * 146097 + centuries * 36524 + fours * 1461 + ones * 365 := by
  simp only [daysBeforeYear]
  omega

/-- The number of days of a year. -/
def daysInYear (year : Int) : Nat :=
  if isLeap year then 366 else 365

theorem isLeap_iff {year : Int} :
    isLeap year = true ↔ year % 4 = 0 ∧ (year % 100 ≠ 0 ∨ year % 400 = 0) := by
  simp [isLeap]

theorem isLeap_add {eras centuries fours ones : Int} (hc : 0 ≤ centuries ∧ centuries ≤ 3)
    (hf : 0 ≤ fours ∧ fours ≤ 24) (ho : 0 ≤ ones ∧ ones ≤ 3) :
    isLeap (eras * 400 + centuries * 100 + fours * 4 + ones + 1) = true ↔
      ones = 3 ∧ (fours ≠ 24 ∨ centuries = 3) := by
  rw [isLeap_iff]
  omega

/-- A year begins when the year before it is over. -/
theorem daysBeforeYear_succ (year : Int) :
    daysBeforeYear (year + 1) = daysBeforeYear year + daysInYear year := by
  have hleap : ((daysInYear year : Nat) : Int)
      = if year % 4 = 0 ∧ (year % 100 ≠ 0 ∨ year % 400 = 0) then 366 else 365 := by
    simp only [daysInYear, isLeap_iff]
    split <;> rfl
  rw [hleap]
  simp only [daysBeforeYear]
  split <;> omega

/-! ## Months -/

theorem daysBeforeMonth_twelve (year : Int) :
    daysBeforeMonth year 12 + daysInMonth year 12 = daysInYear year := by
  simp only [daysBeforeMonth, daysInMonth, daysInYear]
  split <;> rfl

/-- The search for a month adds up: the days before the month that is found,
and those of the month, are the days before the one it began with and the
days to be counted off. Only at its end the day may be beyond the month. -/
theorem monthOf_spec (year : Int) (fuel month n : Nat) :
    month ≤ (monthOf year fuel month n).1 ∧ (monthOf year fuel month n).1 ≤ month + fuel
      ∧ 1 ≤ (monthOf year fuel month n).2
      ∧ daysBeforeMonth year (monthOf year fuel month n).1 + (monthOf year fuel month n).2
        = daysBeforeMonth year month + n + 1
      ∧ ((monthOf year fuel month n).2 ≤ daysInMonth year (monthOf year fuel month n).1
        ∨ (monthOf year fuel month n).1 = month + fuel) := by
  fun_induction monthOf year fuel month n with
  | case1 month n => simp only; omega
  | case2 fuel month n hwithin => simp only; omega
  | case3 fuel month n hbeyond ih =>
    simp only [daysBeforeMonth] at ih
    omega

/-! ## Days -/

/-- The date of a day is found in its year. -/
theorem dateOf_eq (n : Int) : ∃ (year : Int) (d : Nat),
    dateOf n = ⟨year, (monthOf year 11 1 d).1, (monthOf year 11 1 d).2⟩
      ∧ n + epochDays = daysBeforeYear year + d ∧ d < daysInYear year := by
  refine ⟨_, _, rfl, ?_, ?_⟩
  · rw [daysBeforeYear_add] <;> omega
  · rw [daysInYear]
    split
    · omega
    · rename_i hleap
      rw [isLeap_add] at hleap <;> omega

/-- A day has a date. -/
theorem isDate_dateOf (n : Int) : isDate (dateOf n) = true := by
  obtain ⟨year, d, hdate, -, hd⟩ := dateOf_eq n
  obtain ⟨-, -, hone, hsum, hwithin⟩ := monthOf_spec year 11 1 d
  have hfirst : daysBeforeMonth year 1 = 0 := rfl
  simp only [hdate, isDate, Bool.and_eq_true, decide_eq_true_eq]
  refine ⟨hone, ?_⟩
  rcases hwithin with hwithin | hlast
  · exact hwithin
  · -- in December the rest of the year is left
    have htwelve := daysBeforeMonth_twelve year
    simp only [Nat.reduceAdd] at hlast
    rw [hlast, hfirst] at hsum
    rw [hlast]
    omega

theorem month_dateOf (n : Int) : 1 ≤ (dateOf n).month ∧ (dateOf n).month ≤ 12 := by
  obtain ⟨year, d, hdate, -, -⟩ := dateOf_eq n
  obtain ⟨hlo, hhi, -⟩ := monthOf_spec year 11 1 d
  rw [hdate]
  exact ⟨hlo, hhi⟩

/-- A day is the day of its date. -/
theorem dayOf_dateOf (n : Int) : dayOf (dateOf n) = n := by
  obtain ⟨year, d, hdate, hday, -⟩ := dateOf_eq n
  obtain ⟨-, -, -, hsum, -⟩ := monthOf_spec year 11 1 d
  have hfirst : daysBeforeMonth year 1 = 0 := rfl
  simp only [hdate, dayOf]
  omega

theorem daysInMonth_le (year : Int) (month : Nat) : daysInMonth year month ≤ 31 := by
  fun_cases daysInMonth year month <;> omega

theorem daysBeforeYear_mono {a b : Int} (h : a ≤ b) : daysBeforeYear a ≤ daysBeforeYear b := by
  simp only [daysBeforeYear]
  omega

/-- A day is in its year. -/
theorem year_spec (n : Int) : daysBeforeYear (dateOf n).year ≤ n + epochDays
    ∧ n + epochDays < daysBeforeYear ((dateOf n).year + 1) := by
  obtain ⟨year, d, hdate, hday, hd⟩ := dateOf_eq n
  simp only [hdate, daysBeforeYear_succ]
  omega

/-- A later day is in no earlier year. -/
theorem year_mono {m n : Int} (h : m ≤ n) : (dateOf m).year ≤ (dateOf n).year := by
  obtain ⟨hm, -⟩ := year_spec m
  obtain ⟨-, hn⟩ := year_spec n
  refine Int.not_lt.mp fun hlt => ?_
  have := daysBeforeYear_mono (show (dateOf n).year + 1 ≤ (dateOf m).year by omega)
  omega

end CallAudit.Time
