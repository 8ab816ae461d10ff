/-
CallAudit.Proofs.Store.ResumePoint — where a rule resumes after its jobs
were reaped.

A rule resumes at its watermark once it has one, and at its start before.
Reaping never moves a watermark back, but the first watermark of a rule is
set from its jobs alone, and its start plays no part in it. Rules are edited
while they have jobs, so the start may lie after the calls of these jobs.

* `FallsBack` — the one case in which a rule resumes earlier than before: it
  has no watermark, and all of its jobs that are done are about calls that
  were stored before its start.
* `Resumes` — a rule before and after its jobs are reaped, and the calls
  that it had covered.
* `resumes_reap` — every rule of every store, whatever its rows are.
-/
import CallAudit.Proofs.Store.Qualifying
import CallAudit.Proofs.Store.Reaping

namespace CallAudit

open CallAudit.Time (Instant)

namespace Store

/-- A rule has no watermark yet, and its start is after all of its jobs that
are done, of which there are some. -/
structure FallsBack (s : Store) (e : RuleEntry) : Prop where
  unmarked : e.watermark = none
  done : s.doneTimes e.id ≠ []
  early : ∀ t ∈ s.doneTimes e.id, t < e.start

/-- A rule `e` of a store, and what it is when the store has been reaped. -/
structure Resumes (s : Store) (e d : RuleEntry) : Prop where
  entry : d = e.marked d.watermark
  /-- It resumes earlier than before exactly if it falls back. -/
  earlier : d.resumeAt < e.resumeAt ↔ s.FallsBack e
  /-- Then it resumes at the newest of its jobs that were done. -/
  newest : s.FallsBack e → Newest (s.doneTimes e.id) (some d.resumeAt)
  /-- A call that it had covered qualifies exactly if it falls back, and the
  call suits it and was stored after that job. -/
  covered : ∀ c : Call, ∀ t ∈ c.storedAt, t ≤ e.resumeAt →
    (s.reap.1.Qualifies d c ↔ s.FallsBack e ∧ s.reap.1.Suits e c ∧ d.resumeAt < t)

/-- The first watermark of a rule is before its start exactly if all of its
jobs that are done are. -/
theorem fallsBack_iff {s : Store} {e : RuleEntry} (unmarked : e.watermark = none) {t : Instant}
    (hnewest : Newest (s.doneTimes e.id) (some t)) : s.FallsBack e ↔ t < e.start := by
  obtain ⟨hmem, hall⟩ := hnewest
  constructor
  · exact fun h => h.early t hmem
  · intro hlt
    exact ⟨unmarked, List.ne_nil_of_mem hmem, fun u hu => Instant.lt_of_le_of_lt (hall u hu) hlt⟩

/-- Where a rule resumes when its jobs were reaped: no earlier than before,
or at the newest of them. -/
theorem resumeAt_movedMark (s : Store) (e : RuleEntry) :
    (¬ s.FallsBack e ∧ e.resumeAt ≤ (e.marked (s.movedMark e.id e.watermark)).resumeAt)
      ∨ (s.FallsBack e ∧ (e.marked (s.movedMark e.id e.watermark)).resumeAt < e.resumeAt
          ∧ Newest (s.doneTimes e.id)
              (some (e.marked (s.movedMark e.id e.watermark)).resumeAt)) := by
  cases hw : e.watermark with
  | some w =>
    obtain ⟨w', hw', hle⟩ := s.le_movedMark e.id w
    refine Or.inl ⟨fun h => ?_, ?_⟩
    · rw [h.unmarked] at hw
      cases hw
    · rw [hw', RuleEntry.resumeAt, hw]
      exact hle
  | none =>
    have hstart : e.resumeAt = e.start := by rw [RuleEntry.resumeAt, hw]; rfl
    have hnewest : Newest (s.doneTimes e.id) (s.movedMark e.id none) :=
      s.newest_movedMark e.id none
    cases hm : s.movedMark e.id none with
    | none =>
      rw [hm] at hnewest
      exact Or.inl ⟨fun h => h.done hnewest, hstart ▸ Int.le_refl _⟩
    | some t =>
      rw [hm] at hnewest
      have hiff := fallsBack_iff hw hnewest
      by_cases hlt : t < e.start
      · exact Or.inr ⟨hiff.mpr hlt, hstart ▸ hlt, hnewest⟩
      · exact Or.inl ⟨fun h => hlt (hiff.mp h), hstart ▸ Instant.not_lt_iff_le.mp hlt⟩

theorem resumes_marked (s : Store) (e : RuleEntry) :
    s.Resumes e (e.marked (s.movedMark e.id e.watermark)) := by
  rcases s.resumeAt_movedMark e with ⟨hnot, hle⟩ | ⟨hfalls, hlt, hnewest⟩
  · exact
      { entry := rfl
        earlier := iff_of_false (Instant.not_lt_iff_le.mpr hle) hnot
        newest := fun h => absurd h hnot
        covered := fun c t ht hpast => by
          have hnotlt := Instant.not_lt_iff_le.mpr (Instant.le_trans hpast hle)
          rw [qualifies_marked_iff ht]
          exact iff_of_false (fun h => hnotlt h.2) (fun h => hnot h.1) }
  · exact
      { entry := rfl
        earlier := iff_of_true hlt hfalls
        newest := fun _ => hnewest
        covered := fun c t ht _ => by
          rw [qualifies_marked_iff ht]
          exact (and_iff_right hfalls).symm }

/-- **Resuming.** Whatever the rows of a store are, a rule resumes no earlier
when they were reaped than before, unless it had no watermark and its start
is after all of its jobs that are done. Only then do calls qualify that it
had covered: those that suit it and were stored after these jobs. -/
theorem resumes_reap (s : Store) : List.Forall₂ s.Resumes s.rules s.reap.1.rules := by
  rw [reap_rules, List.forall₂_map_right_iff]
  exact List.forall₂_same.mpr fun e _ => s.resumes_marked e

/-- A rule whose start was moved on while it had a job. -/
def postponed : RuleEntry :=
  { soleRule with start := ⟨20⟩ }

/-- The job is done. Another call was stored after that of the job and
before the new start. -/
def postponedStore : Store where
  rules := [postponed]
  calls := [olderCall, { olderCall with id := "between", storedAt := some ⟨15⟩ }]
  recordings := [⟨1, 1, "older"⟩, ⟨2, 1, "between"⟩]
  jobs := [⟨1, 1, 1, 3, .object [("call_id", .string "older")], ⟨10⟩⟩]
  nextJob := 2

/-- When the job is reaped, the rule resumes before its start, and the call
between qualifies, which had been covered. -/
theorem resumes_before_start :
    postponedStore.Keyed ∧ postponedStore.Numbered
      ∧ postponedStore.rules.map (·.resumeAt) = [⟨20⟩]
      ∧ postponedStore.reap.1.rules.map (·.resumeAt) = [⟨10⟩]
      ∧ ∃ c ∈ postponedStore.calls,
          (∀ e ∈ postponedStore.rules, ¬ postponedStore.Qualifies e c)
            ∧ ∀ d ∈ postponedStore.reap.1.rules, postponedStore.reap.1.Qualifies d c := by
  refine ⟨⟨by decide, by decide⟩, ⟨by decide, by decide⟩, rfl, rfl, ?_⟩
  decide +kernel

end Store

end CallAudit
