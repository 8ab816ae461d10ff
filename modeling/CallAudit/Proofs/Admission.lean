/-
CallAudit.Proofs.Admission — what the guard holds after a call was admitted
or released.

A guard holds each call once, so the list in it is a set. Both operations
are given by the calls that are held afterwards, and `filter_of_admitted`,
`filter_release` say that they leave any part of the set alone that the call
does not belong to, with the order it is kept in.
-/
import CallAudit.Admission
import Mathlib.Data.List.Nodup

namespace CallAudit

namespace Guard

theorem eq_of_calls {g h : Guard} (same : g.calls = h.calls) : g = h := by
  cases g
  cases h
  cases same
  rfl

theorem holds_iff {g : Guard} {call : String} : g.holds call = true ↔ call ∈ g.calls := by
  simp [holds]

theorem holds_eq_false_iff {g : Guard} {call : String} :
    g.holds call = false ↔ call ∉ g.calls := by
  simp [holds]

/-- A call is admitted exactly if it is not held, and is put first. -/
theorem admit?_eq_some {g h : Guard} {call : String} :
    g.admit? call = some h ↔ g.holds call = false ∧ h.calls = call :: g.calls := by
  unfold admit?
  rw [holds_eq_false_iff]
  split
  · rename_i hheld
    simp [hheld]
  · rename_i hfree
    simp only [Option.some.injEq, hfree, not_false_eq_true, true_and]
    constructor
    · rintro rfl
      rfl
    · exact fun hcalls => (eq_of_calls hcalls).symm

theorem admit?_eq_none {g : Guard} {call : String} :
    g.admit? call = none ↔ g.holds call = true := by
  unfold admit?
  rw [holds_iff]
  split
  · rename_i hheld
    simp [hheld]
  · rename_i hfree
    simp [hfree]

theorem holds_of_admitted {g h : Guard} {call : String} (admitted : g.admit? call = some h)
    (other : String) : h.holds other = true ↔ other = call ∨ g.holds other = true := by
  rw [holds_iff, holds_iff, (admit?_eq_some.mp admitted).2, List.mem_cons]

theorem holds_release (g : Guard) (call other : String) :
    (g.release call).holds other = true ↔ g.holds other = true ∧ other ≠ call := by
  simp [holds_iff, release]

/-- A part of the set that a call is not of stays as it is when the call is
admitted. -/
theorem filter_of_admitted {g h : Guard} {call : String} (admitted : g.admit? call = some h)
    {p : String → Bool} (hp : p call = false) : h.calls.filter p = g.calls.filter p := by
  rw [(admit?_eq_some.mp admitted).2, List.filter_cons_of_neg (by simp [hp])]

theorem filter_release (g : Guard) {call : String} {p : String → Bool} (hp : p call = false) :
    (g.release call).calls.filter p = g.calls.filter p := by
  rw [release, List.filter_filter]
  refine List.filter_congr fun other _ => ?_
  by_cases hsame : other = call
  · simp [hsame, hp]
  · simp [hsame]

end Guard

end CallAudit
