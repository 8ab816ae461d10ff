/-
CallAudit.Proofs.Store.SoleEnqueuer — what holds of the jobs while one
enqueuer makes them.

With one enqueuer the bound on the jobs of a rule is the ceiling itself. The
rest is told of the rows one by one: a row is inserted queued and with
parameters that can be read, and only its state ever changes.

* `Store.Columns` — what the columns of the tables hold.
* `legible_newRows` — the parameters of a new row can be read. Their times
  are those of a call and of the point its rule resumes from, so both have
  to be in the years that can be read back. A rule never resumes earlier
  than at the start, so it is enough to look at it there.
* `one_job_each` — the invariant.
* `unreadable_start` — a rule that starts before year one is given jobs with
  parameters that cannot be read.
-/
import CallAudit.Proofs.Job.Snapshot
import CallAudit.Proofs.Store.Passes

namespace CallAudit

open CallAudit.Time (Instant)

namespace Store

/-- The numbers of rules have 32 bits and those of recordings 64. -/
structure Columns (s : Store) : Prop where
  rules : ∀ e ∈ s.rules, (e.view 0).Fits
  recordings : ∀ f ∈ s.recordings, IsLong f.id

end Store

namespace Shared

open Store

variable {k : Nat} {s₀ : Store} {ceiling : Int}

/-- A new row of a rule that resumes in year one or later has parameters that
can be read, and they name the call the row is about. -/
theorem legible_newRows (keys : s₀.Keyed) (columns : s₀.Columns) (positive : 0 ≤ ceiling)
    (long : ceiling ≤ 9223372036854775807)
    (calls : ∀ c ∈ s₀.calls, ∀ t ∈ c.storedAt, 1 ≤ t.year ∧ t.year ≤ 9999) {x : Shared k}
    (h : Bounded s₀ ceiling x) {who : Fin k} {r : Rule} (hr : r ∈ x.pending who) {j : Row}
    (hj : j ∈ x.store.newRows r (r.headroom ceiling)) {d : RuleEntry} (hd : d ∈ s₀.rules)
    (hrule : j.rule = d.id) (resumes : 1 ≤ d.resumeAt.year) :
    ∃ p, j.params? = some p
      ∧ j.params.memberText "call_id" = some p.callId := by
  obtain ⟨reaped, books⟩ := h.books
  obtain ⟨⟨e, he, hen, w, n, hle, rfl⟩, hactive⟩ := h.listed who r hr
  obtain rfl : d = e := keys.rule_eq hd he (hrule.symm.trans (rule_newRows hj))
  obtain ⟨v, hv, position, hlo, hhi, hparams⟩ := params_rowsFor _ _ _ _ j hj
  have hbacklog := mem_backlog_of_mem_chosen hv
  obtain ⟨hseeks, hlt, -⟩ := books.seeks_of_wanted? he hle hbacklog
  have hfits : ((d.marked w).view n).Fits :=
    ⟨(columns.rules d he).minDuration, (columns.rules d he).scorecard⟩
  have hrecording : IsLong v.recording := by
    obtain ⟨-, hwanted⟩ := wanted_of_mem_backlog hbacklog
    have hfound := (wanted?_eq_some.mp hwanted).2.2.1
    rw [books.recordingOf?_eq] at hfound
    obtain ⟨f, hf, hid, -⟩ := recordingOf?_eq_some hfound
    exact hid ▸ columns.recordings f hf
  have hposition : IsLong position := by
    -- positions are counted from one, and there are no more of them than the headroom
    have hlen := List.length_take_le (((d.marked w).view n).headroom ceiling).toNat
      (x.store.backlog ((d.marked w).view n))
    have hroom := headroom_le positive hactive
    rw [chosen] at hhi
    constructor <;> omega
  have hyear := calls _ hseeks.call _ hseeks.stored
  have hsince : 1 ≤ (d.marked w).resumeAt.year ∧ (d.marked w).resumeAt.year ≤ 9999 := by
    have hlater := Instant.year_le hle
    have hbefore := Instant.year_le (Instant.le_of_lt hlt)
    omega
  obtain ⟨t, ht, -⟩ := Instant.read?_offsetText hyear
  obtain ⟨u, hu, -⟩ := Instant.read?_offsetText hsince
  refine ⟨_, params?_paramsFor hfits hrecording hposition ht hu hparams, ?_⟩
  rw [hparams, memberText_paramsFor]
  rfl

/-- **The jobs of one enqueuer.** Let every call be stored in the years from
one to 9999. From an empty jobs table on, after any statements of one
enqueuer and of the rest of the scheduler, no rule has two jobs for a call,
no rule has more jobs than the ceiling, and every job is queued, in progress
or done. The parameters of every job can be read whose rule resumed in year
one or later. -/
theorem one_job_each (keys : s₀.Keyed) (columns : s₀.Columns) (empty : s₀.jobs = [])
    (positive : 1 ≤ ceiling) (long : ceiling ≤ 9223372036854775807)
    (calls : ∀ c ∈ s₀.calls, ∀ t ∈ c.storedAt, 1 ≤ t.year ∧ t.year ≤ 9999)
    (actions : List (Action 1)) :
    let s := (run ceiling s₀ actions).store
    (s.jobs.map fun j => (j.rule, j.params.memberText "call_id")).Nodup
      ∧ (∀ q, (s.activeOf q : Int) ≤ ceiling)
      ∧ (∀ j ∈ s.jobs, j.state = 0 ∨ j.state = 1 ∨ j.state = 3)
      ∧ ∀ j ∈ s.jobs, ∃ e ∈ s₀.rules, e.id = j.rule ∧ (1 ≤ e.resumeAt.year →
          ∃ p, j.params? = some p
            ∧ j.params.memberText "call_id" = some p.callId) := by
  intro s
  have hc : 0 ≤ ceiling := by omega
  have h := bounded_run keys empty hc actions
  obtain ⟨reaped, books⟩ := h.books
  refine ⟨books.subjects, ?_, ?_, ?_⟩
  · intro q
    have := h.activeOf_le hc q
    rwa [Nat.cast_one, Int.one_mul] at this
  · refine forall_rows keys empty hc ?_ ?_ actions
    · intro x _ who r _ j hj
      exact Or.inl (state_rowsFor _ _ _ _ j hj)
    · intro j p _
      cases p
      · exact Or.inl rfl
      · exact Or.inr (Or.inl rfl)
      · exact Or.inr (Or.inr rfl)
  · intro j hj
    obtain ⟨e, c, hseeks, -, hsub⟩ := books.stems j hj
    refine ⟨e, hseeks.rule, (congrArg Prod.fst hsub).symm, fun resumes => ?_⟩
    refine forall_rows (motive := fun j => j.rule = e.id → ∃ p,
      j.params? = some p ∧ j.params.memberText "call_id" = some p.callId)
      keys empty hc ?_ (fun j p hj => hj) actions j hj (congrArg Prod.fst hsub)
    intro x hx who r hr j hj hrule
    exact legible_newRows keys columns hc long calls hx hr hj hseeks.rule hrule resumes

theorem oneCall_columns : oneCall.Columns where
  rules := by
    intro e he
    obtain rfl := List.mem_singleton.mp he
    exact ⟨by decide, by decide⟩
  recordings := by
    simp [oneCall, twoCalls, IsLong]

/-- The job of the only call is done and can be read. -/
theorem one_job_each_done :
    let s := (run 1 oneCall [.list 0, .enqueue 0 0, .claim 1, .markDone 1] : Shared 1).store
    ∃ j ∈ s.jobs, j.state = 3 ∧ ∃ p, j.params? = some p
      ∧ j.params.memberText "call_id" = some p.callId := by
  intro s
  obtain ⟨j, hj, hdone⟩ : ∃ j ∈ s.jobs, j.state = 3 := by decide +kernel
  obtain ⟨-, -, -, hread⟩ := one_job_each oneCall_keyed oneCall_columns rfl
    (by decide : (1 : Int) ≤ 1) (by decide) (by decide +kernel)
    [.list 0, .enqueue 0 0, .claim 1, .markDone 1]
  obtain ⟨e, he, -, hread⟩ := hread j hj
  obtain rfl := List.mem_singleton.mp he
  exact ⟨j, hj, hdone, hread (by decide +kernel)⟩

/-- The only call, and a rule that starts in the year before year one. -/
def earlyStart : Store :=
  { oneCall with
    rules := [{ soleRule with start := .at_ (-62167219200) 0 }]
    calls := [{ olderCall with storedAt := some .epoch }] }

/-- The year is told with a mark that is not read back, so the parameters of
the job are missing. -/
theorem unreadable_start :
    earlyStart.Keyed ∧ earlyStart.Columns ∧ earlyStart.jobs = []
      ∧ (∀ c ∈ earlyStart.calls, ∀ t ∈ c.storedAt, 1 ≤ t.year ∧ t.year ≤ 9999)
      ∧ ∃ j ∈ (run 1 earlyStart [.list 0, .enqueue 0 0] : Shared 1).store.jobs,
          j.params? = none := by
  refine ⟨⟨by decide, by decide⟩, ⟨?_, ?_⟩, rfl, by decide +kernel, by decide +kernel⟩
  · intro e he
    obtain rfl := List.mem_singleton.mp he
    exact ⟨by decide, by decide⟩
  · exact oneCall_columns.recordings

end Shared

end CallAudit
