/-
CallAudit.Proofs.Store.Release — what becomes of a call whose job is dropped.

Dropping a job removes its row and touches no watermark, and the rule is
then free to be given another job for the call, unless its watermark has
passed the call in the meantime. Jobs of one rule end in any order, so a
newer job may have been done and reaped while the older one was in
progress.

* `hasJob_release`: no other row is about the call of a job that is dropped.
* `released_eligible_iff`: the call is wanted again exactly if no job of the
  rule was reaped whose call was stored then or later (`Passed`).
* `released_call_lost`: the run in which it is not.
-/
import CallAudit.Proofs.Store.Books

namespace CallAudit

open CallAudit.Time (Instant)

namespace Connection

/-- A job is dropped only where there was one in progress. -/
theorem release_ok {c : Connection} {job : Int} (h : (c.release job).1 = .ok true) :
    (c.release job).2.store = (c.store.release job).1
      ∧ ∃ j ∈ c.store.jobs, Store.isInProgress job j = true := by
  unfold release at *
  split at h
  · cases h
  · rename_i hkept
    simp only [hkept, Bool.false_eq_true, if_false]
    unfold carry at *
    split at h
    · cases h
    · rename_i hclosed
      simp only [hclosed, Bool.false_eq_true, if_false, true_and]
      simpa [Store.release] using h

end Connection

namespace Store

/-- The row of a job that is dropped was the only one about its call. -/
theorem hasJob_release {s₀ s : Store} {reaped : List Row} (books : Books s₀ reaped s) {j : Row}
    (hj : j ∈ s.jobs) (hprog : isInProgress j.id j = true) {rule : Int} {call : String}
    (hsub : j.subject = (rule, some call)) : (s.release j.id).1.hasJob rule call = false := by
  rw [hasJob_eq_false_iff]
  intro k hk hksub
  obtain ⟨hk, hleft⟩ := List.mem_filter.mp hk
  have hkj : k = j := List.inj_on_of_nodup_map books.subjects hk hj (hksub.trans hsub.symm)
  rw [hkj, hprog] at hleft
  cases hleft

end Store

namespace Chronicle

open Store

/-- A job of a rule was reaped whose call was stored at a time or later. -/
def Passed (h : Chronicle) (rule : Int) (t : Instant) : Prop :=
  ∃ k ∈ h.reaped, k.rule = rule ∧ t ≤ k.storedAt

/-- **Release.** When a job was dropped its call has no row under the rule
any more. Whether the rule wants it again, and is given a job for it if
there is room, depends on one thing: that no job of the rule was reaped
whose call was stored then or later. -/
theorem released_eligible_iff {c : Connection} (keys : c.store.Keyed) (empty : c.store.jobs = [])
    (ops : List Operation) {j : Row} (hj : j ∈ (of c ops).store.jobs)
    (released : ((of c ops).connection.release j.id).1 = .ok true) {d : RuleEntry}
    (hd : d ∈ (of c ops).store.rules) (hid : d.id = j.rule) (n : Int) :
    let s := ((of c ops).connection.release j.id).2.store
    ∃ call ∈ s.calls, j.subject = (d.id, some call.id) ∧ call.storedAt = some j.storedAt
      ∧ s.hasJob d.id call.id = false
      ∧ (d.resumeAt < j.storedAt ↔ ¬ (of c ops).Passed d.id j.storedAt)
      ∧ (s.eligible (d.view n) call = true ↔ ¬ (of c ops).Passed d.id j.storedAt)
      ∧ ∀ limit : Int, (s.backlog (d.view n)).length ≤ limit →
          (s.Gives (d.view n) limit call.id ↔ ¬ (of c ops).Passed d.id j.storedAt) := by
  have books := books_of keys empty ops
  obtain ⟨hs, i, hi, hprog⟩ := Connection.release_ok released
  -- the row that was in progress is the one that is asked about
  have hij : i = j := by
    refine List.inj_on_of_nodup_map books.ids hi hj ?_
    simp only [isInProgress, Bool.and_eq_true, decide_eq_true_eq] at hprog
    exact hprog.1
  subst hij
  rw [hs]
  intro s
  obtain ⟨e, he, w, rfl, hw⟩ := books.entry hd
  obtain ⟨d, call, hseeks, hen, hsub⟩ := books.stems i hi
  have hde : d = e :=
    keys.rule_eq hseeks.rule he ((congrArg Prod.fst hsub).symm.trans hid.symm)
  subst hde
  have after : Books c.store (of c ops).reaped s := books.release i.id
  have hno : s.hasJob d.id call.id = false := hasJob_release books hi hprog hsub
  have hahead : (d.marked w).resumeAt < i.storedAt ↔ ¬ (of c ops).Passed d.id i.storedAt :=
    hw.resumeAt_lt_iff keys he (books.stems i hi) hid.symm
  rw [RuleEntry.marked_id]
  refine ⟨call, after.calls ▸ hseeks.call, hsub, hseeks.stored, hno, hahead, ?_, ?_⟩
  · rw [← hahead, eligible, Option.isSome_iff_exists]
    constructor
    · rintro ⟨v, hv⟩
      obtain ⟨-, hst, -, -, hlt, -⟩ := wanted?_eq_some.mp hv
      rwa [Option.some.inj (hst.symm.trans hseeks.stored)] at hlt
    · intro hlt
      obtain ⟨f, hf⟩ := after.wanted?_of_seeks hseeks n hlt hno
      exact ⟨_, hf⟩
  · intro limit room
    rw [← hahead]
    constructor
    · intro hgives
      obtain ⟨t, hseeks', hlt, -⟩ := after.gives keys he hen hw.kept hseeks.call hgives
      rwa [Option.some.inj (hseeks'.stored.symm.trans hseeks.stored)] at hlt
    · exact fun hlt => after.gives_of_room keys hen hw.kept hseeks hlt hno room

/-- The job of the only call is dropped, and the call is given a new one. -/
theorem released_eligible_iff_alone :
    let h := of { store := oneCall } [.enqueueAll 5, .claim 1]
    ∃ d ∈ h.store.rules, ∃ call ∈ (h.connection.release 1).2.store.calls,
      (h.connection.release 1).2.store.Gives (d.view 0) 1 call.id := by
  intro h
  obtain ⟨j, hj, hid, hrule⟩ : ∃ j ∈ h.store.jobs, j.id = 1 ∧ j.rule = 1 := by
    decide +kernel
  obtain ⟨d, hd, hrule', room⟩ : ∃ d ∈ h.store.rules, d.id = 1 ∧
      ((h.connection.release 1).2.store.backlog (d.view 0)).length ≤ 1 := by
    decide +kernel
  have hreleased : (h.connection.release 1).1 = .ok true := by
    decide +kernel
  have hnone : h.reaped.length = 0 := by decide +kernel
  obtain ⟨call, hcall, -, -, -, -, -, hgives⟩ :=
    released_eligible_iff (c := { store := oneCall }) oneCall_keyed rfl _ hj
      (hid.symm ▸ hreleased) hd (hrule'.trans hrule.symm) 0
  rw [hid] at hcall hgives
  refine ⟨d, hd, call, hcall, (hgives 1 (Int.ofNat_le.mpr room)).mpr ?_⟩
  rintro ⟨k, hk, -⟩
  rw [List.eq_nil_of_length_eq_zero hnone] at hk
  cases hk

/-! ## A call that is lost -/

/-- Both calls are wanted, the older one first. -/
theorem twoCalls_backlog :
    twoCalls.backlog (soleRule.view 0) = [⟨olderCall, ⟨10⟩, 1⟩, ⟨newerCall, ⟨20⟩, 2⟩] := by
  have hwanted : twoCalls.calls.filterMap (twoCalls.wanted? (soleRule.view 0))
      = [⟨olderCall, ⟨10⟩, 1⟩, ⟨newerCall, ⟨20⟩, 2⟩] := by rfl
  rw [backlog, hwanted]
  exact List.mergeSort_of_pairwise (by decide)

/-- A pass over the rules gives both of them jobs. -/
theorem twoCalls_enqueueAll :
    (Connection.enqueueAll { store := twoCalls } 5).2 =
      { store :=
        { twoCalls with
          jobs := rowsFor (soleRule.view 0) 1 1 [⟨olderCall, ⟨10⟩, 1⟩, ⟨newerCall, ⟨20⟩, 2⟩]
          nextJob := 3 } } := by
  have hrunnable : Connection.runnable { store := twoCalls } 5
      = (.ok [soleRule.view 0], { store := twoCalls }) := by
    have hview : twoCalls.runnable 5 = [soleRule.view 0] := by decide +kernel
    simp [Connection.runnable, Connection.ask, Connection.carry, hview]
  have hchosen : twoCalls.chosen (soleRule.view 0) 5
      = [⟨olderCall, ⟨10⟩, 1⟩, ⟨newerCall, ⟨20⟩, 2⟩] := by
    rw [chosen, twoCalls_backlog]
    rfl
  have hheadroom : (soleRule.view 0).headroom 5 = 5 := rfl
  simp only [Connection.enqueueAll, hrunnable, List.foldl_cons, List.foldl_nil, hheadroom]
  have hjobs : twoCalls.jobs = [] := rfl
  have hnumber : twoCalls.nextJob = 1 := rfl
  simp [Connection.enqueueFor, Connection.carry, Store.enqueueFor, hchosen, hjobs, hnumber,
    length_rowsFor]

/-- The newer call is audited and its job reaped. Then the job of the older
one is dropped, and the rule does not want the call any more. -/
theorem released_call_lost :
    let h := of { store := twoCalls } [.enqueueAll 5, .claim 2, .markDone 2, .reap]
    (h.connection.release 1).1 = .ok true
      ∧ ∀ d ∈ (h.connection.release 1).2.store.rules, d.id = 1 ∧ d.enabled = true
          ∧ (h.connection.release 1).2.store.eligible (d.view 0) olderCall = false := by
  simp only [connection_of, List.foldl_cons, Connection.perform, twoCalls_enqueueAll]
  decide +kernel

end Chronicle

end CallAudit
