/-
CallAudit.Proofs.Text.Blank — trimming what is trimmed.

A name, an identifier or a number goes through several hands, and each trims
it. After the first it stays as it is.

* `trim_eq_self` — there is nothing to trim where there are no blanks, as in
  digits (`isBlank_of_isDigit`).
* `trim_trim`, `nonBlank_idem` — what is trimmed already stays as it is.
* `Tidy`, `tidy_of_toList_eq` — what is left by trimming, if anything is.
-/
import CallAudit.Number.Decimal
import Mathlib.Data.List.DropRight

namespace CallAudit.Text

open CallAudit.Number (isDigit)

/-! ## Texts without blanks -/

/-- What begins with a digit does not begin with a blank. -/
theorem isBlank_of_isDigit {c : Char} (h : isDigit c = true) : isBlank c = false := by
  have hlo : 48 ≤ c.toNat := by
    simp only [isDigit, Bool.and_eq_true, decide_eq_true_eq] at h
    exact h.1
  have hhi : c.toNat ≤ 57 := by
    simp only [isDigit, Bool.and_eq_true, decide_eq_true_eq] at h
    exact h.2
  simp only [isBlank, Bool.or_eq_false_iff, Bool.and_eq_false_iff, decide_eq_false_iff_not,
    beq_eq_false_iff_ne]
  omega

/-- A text without blanks is trimmed already. -/
theorem trim_eq_self {cs : List Char} (h : ∀ c ∈ cs, isBlank c = false) : trim cs = cs := by
  have hkept : ∀ cs : List Char, (∀ c ∈ cs, isBlank c = false) → cs.dropWhile isBlank = cs := by
    intro cs hcs
    cases cs with
    | nil => rfl
    | cons c rest => rw [List.dropWhile_cons, hcs c List.mem_cons_self]; rfl
  have hback : ∀ c ∈ cs.reverse, isBlank c = false := fun c hc => h c (List.mem_reverse.mp hc)
  rw [trim, trimStart, hkept _ h, trimEnd, hkept _ hback, List.reverse_reverse]

theorem trimmed_eq_self {s : String} (h : ∀ c ∈ s.toList, isBlank c = false) : trimmed s = s := by
  rw [trimmed, trim_eq_self h, String.ofList_toList]

/-! ## Trimming twice -/

/-- What a text starts with after trimming is no blank. -/
theorem isBlank_of_trimStart {cs rest : List Char} {c : Char} (h : trimStart cs = c :: rest) :
    isBlank c = false := by
  induction cs with
  | nil => cases h
  | cons d cs ih =>
    rw [trimStart, List.dropWhile_cons] at h
    split at h
    · exact ih h
    · rename_i hd
      obtain ⟨rfl, -⟩ := List.cons.inj h
      simpa using hd

/-- What is no blank stays in front. -/
theorem trimEnd_cons {c : Char} (hc : isBlank c = false) (cs : List Char) :
    trimEnd (c :: cs) = c :: trimEnd cs := by
  simp only [trimEnd, List.reverse_cons, List.dropWhile_append]
  split
  · rename_i hempty
    simp [List.isEmpty_iff.mp hempty, hc]
  · simp

theorem trim_trim (cs : List Char) : trim (trim cs) = trim cs := by
  cases h : trimStart cs with
  | nil =>
    have htrim : trim cs = [] := by rw [trim, h]; rfl
    rw [htrim]
    rfl
  | cons c rest =>
    have hc := isBlank_of_trimStart h
    have htrim : trim cs = c :: trimEnd rest := by rw [trim, h, trimEnd_cons hc]
    have hstart : trimStart (c :: trimEnd rest) = c :: trimEnd rest := by simp [trimStart, hc]
    have hend : trimEnd (trimEnd rest) = trimEnd rest := List.rdropWhile_idempotent isBlank rest
    rw [htrim, trim, hstart, trimEnd_cons hc, hend]

/-- A text that is not blank is trimmed once. -/
theorem nonBlank_idem {s t : String} (h : nonBlank s = some t) : nonBlank t = some t := by
  unfold nonBlank at h
  split at h
  · cases h
  · rename_i hempty
    obtain rfl := Option.some.inj h
    have hsame : trimmed (trimmed s) = trimmed s := by simp [trimmed, trim_trim]
    rw [nonBlank, hsame, if_neg hempty]

/-! ## What trimming leaves -/

theorem trim_sublist (cs : List Char) : (trim cs).Sublist cs := by
  have hend : (trimEnd (trimStart cs)).Sublist (trimStart cs) := by
    simpa [trimEnd] using (List.dropWhile_sublist (l := (trimStart cs).reverse) isBlank).reverse
  exact hend.trans (List.dropWhile_sublist isBlank)

/-- Nothing is left of blanks, and only of them. -/
theorem trim_eq_nil_iff {cs : List Char} : trim cs = [] ↔ cs.all isBlank = true := by
  rw [List.all_eq_true, ← List.dropWhile_eq_nil_iff]
  constructor
  · intro h
    cases hstart : trimStart cs with
    | nil => exact hstart
    | cons c rest =>
      rw [trim, hstart, trimEnd_cons (isBlank_of_trimStart hstart)] at h
      cases h
  · intro h
    rw [trim, trimStart, h]
    rfl

/-- A string that is not blank and has no blanks around it. -/
structure Tidy (s : String) : Prop where
  notBlank : allBlank s = false
  trimmed : trimmed s = s

/-- What is left by trimming is tidy. -/
theorem tidy_of_toList_eq {s : String} {cs : List Char} (h : s.toList = trim cs)
    (hne : trim cs ≠ []) : Tidy s where
  notBlank := by
    rw [allBlank, h, ← Bool.not_eq_true, ← trim_eq_nil_iff, trim_trim]
    exact hne
  trimmed := by
    rw [Text.trimmed, h, trim_trim, ← h, String.ofList_toList]

theorem tidy_trimmed {s : String} (h : allBlank s = false) : Tidy (trimmed s) :=
  tidy_of_toList_eq String.toList_ofList fun hnil => by
    rw [trim_eq_nil_iff] at hnil
    rw [allBlank, hnil] at h
    cases h

/-- A string is trimmed unless nothing is left of it. -/
theorem nonBlank_eq_some {s t : String} :
    nonBlank s = some t ↔ t.toList = trim s.toList ∧ trim s.toList ≠ [] := by
  have hempty : (trimmed s).isEmpty = true ↔ trim s.toList = [] := by
    rw [String.isEmpty_iff, trimmed, ← String.toList_inj, String.toList_ofList]
    rfl
  have hsame : t.toList = trim s.toList ↔ trimmed s = t := by
    rw [trimmed, ← String.toList_inj, String.toList_ofList, eq_comm]
  rw [nonBlank, hsame, ne_eq, ← hempty]
  split
  · rename_i h
    simp [h]
  · rename_i h
    simp [h]

end CallAudit.Text
