/-
CallAudit.Proofs.Store.ColdStart — what is audited again after a start.

A worker that starts discards all jobs, those that are done included. What a
rule has had audited is then known from its watermark alone, and the
watermark is moved when jobs are reaped, not when they are done. So there
are two kinds of calls that had a job when a run was cut off:

* those that the rule has passed, because a job of it was reaped whose call
  was stored then or later: they are not given a job again, whatever follows
  (`ahead_of_inserted`). A call whose own job was reaped is one of them.
* all others: they are given a job again by the first pass that has room,
  also those whose job was done (`inserted_of_not_passed`).

`cold_start_iff` is both together, and `done_job_given_again` a run in which
a job is done and its call given another.
-/
import CallAudit.Proofs.Store.Dealing

namespace CallAudit

open CallAudit.Time (Instant)

namespace Store

/-- Rows arrive only in a pass. -/
theorem Effect.pass_of_arrivals {s s' : Store} {op : Operation} (h : s.Effect op s') {j : Row}
    (hj : j ∈ s.arrivals s') : ∃ ceiling, Enqueued (s.runnable ceiling) s s' := by
  have hnone : (∀ k ∈ s'.jobs, ∃ i ∈ s.jobs, i.id = k.id) →
      ∃ ceiling, Enqueued (s.runnable ceiling) s s' := by
    intro hold
    rw [arrivals_eq_nil hold] at hj
    cases hj
  cases h with
  | pass hpass => exact ⟨_, hpass⟩
  | fails => exact hnone fun k hk => ⟨k, hk, rfl⟩
  | claim batch =>
    rw [arrivals_eq_nil_of_bare (s.claim_bare batch)] at hj
    cases hj
  | markDone job =>
    rw [arrivals_eq_nil_of_bare (s.markDone_bare job)] at hj
    cases hj
  | release job => exact hnone fun k hk => ⟨k, (List.mem_filter.mp hk).1, rfl⟩
  | reap => exact hnone fun k hk => ⟨k, (List.mem_filter.mp hk).1, rfl⟩
  | discardAll => exact hnone fun k hk => absurd hk List.not_mem_nil

/-- Jobs that are given in a pass are about calls that were stored after all
of the rule that were reaped. -/
theorem Books.ahead_of_enqueued {s₀ s s' : Store} {reaped : List Row} (keys : s₀.Keyed)
    (books : Books s₀ reaped s) {ceiling : Int} (hpass : Enqueued (s.runnable ceiling) s s') :
    Books s₀ reaped s' ∧ ∀ j ∈ s'.jobs, j ∈ s.jobs
      ∨ ∀ i ∈ reaped, i.rule = j.rule → i.storedAt < j.storedAt := by
  induction hpass with
  | start => exact ⟨books, fun j hj => Or.inl hj⟩
  | number _ ih => exact ⟨ih.1.number, ih.2⟩
  | @jobs s' r limit _ hr ih =>
    obtain ⟨books', hahead⟩ := ih
    obtain ⟨d, hd, hen, rfl⟩ := mem_runnable hr
    refine ⟨books'.enqueueFor keys (books.listed hd hen _) limit, fun j hj => ?_⟩
    rcases List.mem_append.mp hj with hj | hj
    · exact hahead j hj
    · right
      intro i hi hrule
      obtain ⟨e, he, w, rfl, hw⟩ := books.entry hd
      obtain ⟨v, -, hsub, -, hlt, -⟩ := books'.fresh he hw.kept hj
      have hid : j.rule = e.id := congrArg Prod.fst hsub
      exact Instant.lt_of_le_of_lt (hw.covers i hi (hrule.trans hid)) hlt

end Store

namespace Chronicle

open Store

/-- What a worker begins with that starts after a run: a connection of its
own and no jobs. -/
def coldStart (h : Chronicle) : Connection :=
  (Connection.discardAll { store := h.store }).2

/-- Whatever follows, new rows are about calls that were stored after all of
the rule that had been reaped before. -/
theorem ahead_of_inserted {s₀ : Store} (keys : s₀.Keyed) {c : Connection} {reaped : List Row}
    (books : Books s₀ reaped c.store) (ops : List Operation) :
    ∀ k ∈ (of c ops).inserted, Stems s₀ k
      ∧ ∀ i ∈ reaped, i.rule = k.rule → i.storedAt < k.storedAt := by
  refine (of_induction (motive := fun h => Books s₀ (reaped ++ h.reaped) h.store
    ∧ ∀ k ∈ h.inserted, Stems s₀ k
      ∧ ∀ i ∈ reaped, i.rule = k.rule → i.storedAt < k.storedAt) ⟨?_, by simp⟩ ?_).2
  · rw [List.append_nil]
    exact books
  · rintro h op - ⟨books, hinserted⟩
    constructor
    · have hnext := books_next keys (h := { h with reaped := reaped ++ h.reaped }) books op
      simp only [next, List.append_assoc] at hnext ⊢
      exact hnext
    · intro k hk
      rcases List.mem_append.mp hk with hk | hk
      · exact hinserted k hk
      · obtain ⟨ceiling, hpass⟩ := (h.connection.perform_effect op).pass_of_arrivals hk
        obtain ⟨books', hahead⟩ := books.ahead_of_enqueued keys hpass
        obtain ⟨hmem, hnew⟩ := mem_of_arrivals hk
        refine ⟨books'.stems k hmem, fun i hi hrule => ?_⟩
        exact (hahead k hmem).resolve_left hnew i (List.mem_append_left _ hi) hrule

/-- A call that had a row when the jobs were discarded, and that its rule has
not passed, is given a job by the first pass that has room for all calls. -/
theorem inserted_of_not_passed {s₀ : Store} (keys : s₀.Keyed) {h : Chronicle}
    (books : Books s₀ h.reaped h.store) {j : Row} (hj : j ∈ h.store.jobs)
    (ahead : ¬ h.Passed j.rule j.storedAt) {ceiling : Int} (positive : 1 ≤ ceiling)
    (room : s₀.calls.length ≤ ceiling) :
    ∃ k ∈ (of h.coldStart [.enqueueAll ceiling]).inserted, k.subject = j.subject := by
  obtain ⟨e, call, hseeks, hen, hsub⟩ := books.stems j hj
  have hid : j.rule = e.id := congrArg Prod.fst hsub
  obtain ⟨w, hmem, hw⟩ := books.entry_of_start hseeks.rule
  have hlt : (e.marked w).resumeAt < j.storedAt := by
    rw [hw.resumeAt_lt_iff keys hseeks.rule (books.stems j hj) hid, ← hid]
    exact ahead
  -- without jobs the call is wanted, and the limit does not cut it off
  have cold : Books s₀ h.reaped h.store.discardAll := books.discardAll
  obtain ⟨f, hf⟩ := cold.wanted?_of_seeks hseeks 0 hlt rfl
  have hback : ⟨call, j.storedAt, f⟩ ∈ h.store.discardAll.backlog ((e.marked w).view 0) :=
    mem_backlog.mpr ⟨call, cold.calls ▸ hseeks.call, hf⟩
  have hlen : (h.store.discardAll.backlog ((e.marked w).view 0)).length ≤ s₀.calls.length := by
    rw [backlog, List.length_mergeSort, ← cold.calls]
    exact List.length_filterMap_le _ _
  have hchosen : ⟨call, j.storedAt, f⟩
      ∈ h.store.discardAll.chosen ((e.marked w).view 0) ceiling := by
    rw [chosen_eq_backlog (by omega)]
    exact hback
  obtain ⟨k, hk, hksub, -⟩ := (rows_enqueueAll_of_empty (cold.keyed keys) rfl positive).mpr
    ⟨e.marked w, hmem, hen, _, hchosen, rfl, rfl⟩
  refine ⟨k, ?_, hksub.trans hsub.symm⟩
  show k ∈ [] ++ h.store.discardAll.arrivals _
  rw [List.nil_append, arrivals_of_empty rfl]
  exact hk

/-- **Cold start.** When a run is cut off and a worker starts, a rule is
never again given a job for a call that it has passed, one whose own job was
reaped among them, whatever is done from then on. A call that had a row is
given another job exactly if its rule has not passed it, be its job done or
not: by the first pass if that has room for all calls. -/
theorem cold_start_iff {c : Connection} (keys : c.store.Keyed) (empty : c.store.jobs = [])
    (ops : List Operation) :
    let h := of c ops
    (∀ later, ∀ k ∈ (of h.coldStart later).inserted,
        ¬ h.Passed k.rule k.storedAt ∧ ∀ j ∈ h.reaped, j.subject ≠ k.subject)
      ∧ ∀ j ∈ h.store.jobs,
          ((∃ ceilings : List Int, ∃ k ∈ (of h.coldStart (ceilings.map .enqueueAll)).inserted,
              k.subject = j.subject) ↔ ¬ h.Passed j.rule j.storedAt)
            ∧ (¬ h.Passed j.rule j.storedAt → ∀ ceiling : Int, 1 ≤ ceiling →
                c.store.calls.length ≤ ceiling →
                ∃ k ∈ (of h.coldStart [.enqueueAll ceiling]).inserted, k.subject = j.subject) := by
  intro h
  have books : Books c.store h.reaped h.store := books_of keys empty ops
  have cold : Books c.store h.reaped h.coldStart.store := books.discardAll
  have hahead := fun later => ahead_of_inserted keys cold later
  -- two rows about one call carry the same time
  have htime : ∀ {j k : Row}, Stems c.store j → Stems c.store k → k.subject = j.subject →
      k.storedAt = j.storedAt := by
    rintro j k ⟨e, call, hseeks, -, hsub⟩ hk hsame
    exact hk.storedAt_eq keys hseeks.rule hseeks.call (hsame.trans hsub) hseeks.stored
  have hnot : ∀ later, ∀ k ∈ (of h.coldStart later).inserted, ¬ h.Passed k.rule k.storedAt := by
    rintro later k hk ⟨i, hi, hrule, hle⟩
    exact Instant.not_lt_iff_le.mpr hle ((hahead later k hk).2 i hi hrule)
  refine ⟨fun later k hk => ⟨hnot later k hk, fun j hj hsame => ?_⟩, fun j hj => ⟨⟨?_, ?_⟩, ?_⟩⟩
  · refine hnot later k hk ⟨j, hj, congrArg Prod.fst hsame, ?_⟩
    rw [htime (hahead later k hk).1 (books.gone j hj).1 hsame]
    exact Int.le_refl _
  · rintro ⟨ceilings, k, hk, hsame⟩
    have hrule : k.rule = j.rule := congrArg Prod.fst hsame
    rw [← hrule, ← htime (books.stems j hj) (hahead _ k hk).1 hsame]
    exact hnot _ k hk
  · intro ahead
    have positive : 1 ≤ (c.store.calls.length : Int) + 1 := by omega
    have room : (c.store.calls.length : Int) ≤ c.store.calls.length + 1 := by omega
    exact ⟨[_], inserted_of_not_passed keys books hj ahead positive room⟩
  · exact fun ahead ceiling positive room =>
      inserted_of_not_passed keys books hj ahead positive room

/-- Once its job is reaped, a call is given no other. -/
theorem cold_start_iff_reaped :
    let h := of { store := oneCall } [.enqueueAll 5, .claim 1, .markDone 1, .reap]
    h.reaped.length = 1 ∧ ∀ later, ∀ k ∈ (of h.coldStart later).inserted,
      k.subject ≠ (1, some "older") := by
  intro h
  obtain ⟨j, hj, hsub⟩ : ∃ j ∈ h.reaped, j.subject = (1, some "older") := by decide +kernel
  refine ⟨by decide +kernel, fun later k hk => ?_⟩
  have hnever := (cold_start_iff (c := { store := oneCall }) oneCall_keyed rfl
    [.enqueueAll 5, .claim 1, .markDone 1, .reap]).1 later k hk
  rw [← hsub]
  exact (hnever.2 j hj).symm

/-- The job of the only call is done, and after a start the call is given
another one. -/
theorem done_job_given_again :
    let h := of { store := oneCall } [.enqueueAll 5, .claim 1, .markDone 1]
    oneCall.Keyed ∧ oneCall.jobs = [] ∧ (∀ e ∈ h.store.rules, e.enabled = true)
      ∧ (∃ j ∈ h.store.jobs, isDone j = true ∧ j.subject = (1, some "older"))
      ∧ ∃ k ∈ (of h.coldStart [.enqueueAll 5]).inserted, k.subject = (1, some "older") :=
  ⟨oneCall_keyed, rfl, by decide +kernel, by decide +kernel, by decide +kernel⟩

end Chronicle

end CallAudit
