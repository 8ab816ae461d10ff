/-
CallAudit.Proofs.Store.ExactlyOnce — without restarts every call is audited
exactly once.

`audited_exactly_once` is about runs of passes over the rules, of handing
out, marking done and reaping, in any order and with any statements
failing. For a rule and a call it sought when the run began:

* at most one job is ever inserted;
* at any time the call is still ahead of the rule, or has a row, or its job
  was done and reaped.

Jobs are done in any order, and a watermark jumps to the newest job that is
reaped, over calls whose jobs are not. The invariant that makes this safe is
`Covered.closed`: what a rule was given jobs for is downward closed in the
time of storage, so whatever a watermark jumps over has been given a job
before. It is where the limit of a pass matters, since a limit cuts the
backlog at a point in time, and where it matters that no two calls of a
domain were stored at the same time (`StoredApart`): of two such calls a
limit could take one.
-/
import CallAudit.Proofs.Store.Books

namespace CallAudit

open CallAudit.Time (Instant)

namespace Store

/-- No two calls of a domain were stored at the same time. -/
def StoredApart (s : Store) : Prop :=
  ∀ b ∈ s.calls, ∀ c ∈ s.calls, b.domain = c.domain → b.storedAt = c.storedAt →
    b.storedAt.isSome → b.id = c.id

/-- A rule seeks at most one call of a time. -/
theorem Seeks.eq_of_storedAt {s : Store} (keys : s.Keyed) (apart : s.StoredApart)
    {e : RuleEntry} {b c : Call} {t : Instant} (hb : s.Seeks e b t) (hc : s.Seeks e c t) :
    b = c := by
  refine keys.call_eq hb.call hc.call (apart b hb.call c hc.call ?_ ?_ ?_)
  · rw [domain_of_passes hb.passes, domain_of_passes hc.passes]
  · rw [hb.stored, hc.stored]
  · rw [hb.stored]
    rfl

/-! ## The invariant -/

/-- The books together with the rows `made` since the start. -/
structure Covered (s₀ : Store) (made reaped : List Row) (s : Store) : Prop where
  books : Books s₀ reaped s
  /-- Nothing is in the table, or was reaped, that was not made. -/
  source : ∀ j, j ∈ s.jobs ∨ j ∈ reaped → ∃ k ∈ made, k.bare = j.bare
  /-- Nothing that was made is lost but by reaping. -/
  kept : ∀ k ∈ made, ∃ j, (j ∈ s.jobs ∨ j ∈ reaped) ∧ j.bare = k.bare
  once : (made.map Row.subject).Nodup
  /-- A call that a rule sought has a job if a later call of the rule has
  one. -/
  closed : ∀ e c t, s₀.Seeks e c t → ∀ k ∈ made, k.rule = e.id → t ≤ k.storedAt →
    ∃ k' ∈ made, k'.subject = (e.id, some c.id)

namespace Covered

variable {s₀ s : Store} {made reaped : List Row}

/-- A call that was given a job is no longer wanted: the job has a row, or
was reaped and the rule resumes at the call or after it. -/
theorem row_or_le_of_made (keys : s₀.Keyed) (h : Covered s₀ made reaped s) {e : RuleEntry}
    {c : Call} {t : Instant} (hseeks : s₀.Seeks e c t) {w : Option Instant}
    (hw : Marked e reaped w) {k : Row} (hk : k ∈ made) (hsub : k.subject = (e.id, some c.id)) :
    s.hasJob e.id c.id = true ∨
      ((∃ j ∈ reaped, j.subject = (e.id, some c.id)) ∧ t ≤ (e.marked w).resumeAt) := by
  obtain ⟨j, hj, hjk⟩ := h.kept k hk
  have hjsub : j.subject = (e.id, some c.id) := (Row.subject_eq_of_bare hjk).trans hsub
  rcases hj with hj | hj
  · exact Or.inl (hasJob_iff.mpr ⟨j, hj, hjsub⟩)
  · have ht : j.storedAt = t :=
      (h.books.gone j hj).1.storedAt_eq keys hseeks.rule hseeks.call hjsub hseeks.stored
    exact Or.inr ⟨⟨j, hj, hjsub⟩, ht ▸ hw.covers j hj (congrArg Prod.fst hjsub)⟩

/-- A call that a rule sought and that was not given a job is still wanted:
the rule has not passed it by, and it has no row. -/
theorem wanted_of_not_made (h : Covered s₀ made reaped s) {e : RuleEntry} {c : Call}
    {t : Instant} (hseeks : s₀.Seeks e c t) {w : Option Instant} (hw : Marked e reaped w)
    (hnot : ¬ ∃ k ∈ made, k.subject = (e.id, some c.id)) :
    (e.marked w).resumeAt < t ∧ s.hasJob e.id c.id = false := by
  constructor
  · rcases hw.source with rfl | ⟨j, hj, hrule, rfl⟩
    · exact hseeks.after
    · -- the watermark stands at a reaped job, and what is before that was made
      by_contra hpast
      obtain ⟨k, hk, hkj⟩ := h.source j (Or.inr hj)
      have hk_rule : k.rule = e.id :=
        (congrArg Prod.fst (Row.subject_eq_of_bare hkj)).trans hrule
      have hle : t ≤ k.storedAt := by
        rw [Row.storedAt_eq_of_bare hkj]
        exact Instant.not_lt_iff_le.mp hpast
      exact hnot (h.closed e c t hseeks k hk hk_rule hle)
  · rw [hasJob_eq_false_iff]
    intro j hj hsub
    obtain ⟨k, hk, hkj⟩ := h.source j (Or.inl hj)
    exact hnot ⟨k, hk, (Row.subject_eq_of_bare hkj).trans hsub⟩

/-! ## What keeps the invariant -/

theorem start (keys : s₀.Keyed) (empty : s₀.jobs = []) : Covered s₀ [] [] s₀ where
  books := .start keys empty
  source := by simp [empty]
  kept := by simp
  once := by simp
  closed := by simp

/-- States of rows and the numbers still to be given do not matter. -/
theorem of_bare (h : Covered s₀ made reaped s) {s' : Store} (books : Books s₀ reaped s')
    (hjobs : s'.jobs.map Row.bare = s.jobs.map Row.bare) : Covered s₀ made reaped s' where
  books := books
  source := by
    rintro j (hj | hj)
    · obtain ⟨i, hi, hij⟩ := exists_of_bare hjobs hj
      obtain ⟨k, hk, hki⟩ := h.source i (Or.inl hi)
      exact ⟨k, hk, hki.trans hij⟩
    · exact h.source j (Or.inr hj)
  kept := by
    intro k hk
    obtain ⟨j, hj | hj, hjk⟩ := h.kept k hk
    · obtain ⟨i, hi, hij⟩ := exists_of_bare hjobs.symm hj
      exact ⟨i, Or.inl hi, hij.trans hjk⟩
    · exact ⟨j, Or.inr hj, hjk⟩
  once := h.once
  closed := h.closed

/-- Reaping moves rows from the table to those reaped. -/
theorem reap (keys : s₀.Keyed) (h : Covered s₀ made reaped s) :
    Covered s₀ made (reaped ++ s.jobs.filter isDone) s.reap.1 where
  books := h.books.reap keys
  source := by
    rintro j (hj | hj)
    · exact h.source j (Or.inl (List.mem_filter.mp hj).1)
    · rcases List.mem_append.mp hj with hj | hj
      · exact h.source j (Or.inr hj)
      · exact h.source j (Or.inl (List.mem_filter.mp hj).1)
  kept := by
    intro k hk
    obtain ⟨j, hj | hj, hjk⟩ := h.kept k hk
    · refine ⟨j, ?_, hjk⟩
      cases hdone : isDone j with
      | true => exact Or.inr (List.mem_append_right _ (List.mem_filter.mpr ⟨hj, hdone⟩))
      | false => exact Or.inl (List.mem_filter.mpr ⟨hj, by simp [hdone]⟩)
    · exact ⟨j, Or.inr (List.mem_append_left _ hj), hjk⟩
  once := h.once
  closed := h.closed

/-- With a new row of a rule, every call that the rule sought and that was
not stored later has been given a job, or is given one now. -/
theorem made_up_to (keys : s₀.Keyed) (apart : s₀.StoredApart) (h : Covered s₀ made reaped s)
    {e : RuleEntry} {w : Option Instant} (hw : Marked e reaped w) {n limit : Int} {k : Row}
    (hk : k ∈ s.newRows ((e.marked w).view n) limit) {c : Call} {t : Instant}
    (hseeks : s₀.Seeks e c t) (hle : t ≤ k.storedAt) :
    ∃ k' ∈ made ++ s.newRows ((e.marked w).view n) limit, k'.subject = (e.id, some c.id) := by
  by_cases hmade : ∃ k' ∈ made, k'.subject = (e.id, some c.id)
  · obtain ⟨k', hk', hsub⟩ := hmade
    exact ⟨k', List.mem_append_left _ hk', hsub⟩
  · -- it is still wanted, so the limit has not cut it off
    obtain ⟨v, hv, hsub, hseeks', -, ht, -⟩ := h.books.fresh hseeks.rule hw.kept hk
    obtain ⟨hlt, hno⟩ := h.wanted_of_not_made hseeks hw hmade
    obtain ⟨f, hf⟩ := h.books.wanted?_of_seeks hseeks n hlt hno
    have hback : (⟨c, t, f⟩ : Wanted) ∈ s.backlog ((e.marked w).view n) :=
      mem_backlog.mpr ⟨c, h.books.calls ▸ hseeks.call, hf⟩
    by_cases hearlier : t < k.storedAt
    · have hchosen := mem_chosen_of_lt hv hback (ht ▸ hearlier)
      obtain ⟨j, hj, hjsub, -⟩ := subject_newRows.mpr ⟨_, hchosen, rfl, rfl⟩
      exact ⟨j, List.mem_append_right _ hj, hjsub⟩
    · -- stored at the same time, the two calls are one
      have hteq := Instant.eq_of_le_of_le hle (Instant.not_lt_iff_le.mp hearlier)
      have hcv := hseeks.eq_of_storedAt keys apart (hteq ▸ hseeks')
      exact ⟨k, List.mem_append_right _ hk, by rw [hsub, hcv]⟩

/-- A rule is given jobs as it is stored now. -/
theorem enqueueFor (keys : s₀.Keyed) (apart : s₀.StoredApart) (h : Covered s₀ made reaped s)
    {d : RuleEntry} (hd : d ∈ s.rules) (hen : d.enabled = true) (n limit : Int) :
    Covered s₀ (made ++ s.newRows (d.view n) limit) reaped (s.enqueueFor (d.view n) limit).1 := by
  have hbooks := h.books.enqueueFor keys (h.books.listed hd hen n) limit
  obtain ⟨e, he, w, rfl, hw⟩ := h.books.entry hd
  have hnew : ∀ j ∈ s.newRows ((e.marked w).view n) limit,
      j ∈ (s.enqueueFor ((e.marked w).view n) limit).1.jobs := fun j hj =>
    List.mem_append_right _ hj
  refine
    { books := hbooks, source := ?_, kept := ?_, once := ?_, closed := ?_ }
  · rintro j (hj | hj)
    · rcases List.mem_append.mp hj with hj | hj
      · obtain ⟨k, hk, hkj⟩ := h.source j (Or.inl hj)
        exact ⟨k, List.mem_append_left _ hk, hkj⟩
      · exact ⟨j, List.mem_append_right _ hj, rfl⟩
    · obtain ⟨k, hk, hkj⟩ := h.source j (Or.inr hj)
      exact ⟨k, List.mem_append_left _ hk, hkj⟩
  · intro k hk
    rcases List.mem_append.mp hk with hk | hk
    · obtain ⟨j, hj | hj, hjk⟩ := h.kept k hk
      · exact ⟨j, Or.inl (List.mem_append_left _ hj), hjk⟩
      · exact ⟨j, Or.inr hj, hjk⟩
    · exact ⟨k, Or.inl (hnew k hk), rfl⟩
  · rw [List.map_append]
    refine List.nodup_append.mpr
      ⟨h.once, nodup_subject_newRows (h.books.keyed keys) _ limit, ?_⟩
    intro a ha b hb hab
    obtain ⟨k, hk, rfl⟩ := List.mem_map.mp ha
    obtain ⟨j, hj, rfl⟩ := List.mem_map.mp hb
    obtain ⟨v, -, hsub, hseeks, hlt, -, hno⟩ := h.books.fresh he hw.kept hj
    rcases h.row_or_le_of_made keys hseeks hw hk (hab.trans hsub) with hrow | ⟨-, hle⟩
    · rw [hno] at hrow
      cases hrow
    · exact Instant.not_lt_iff_le.mpr hle hlt
  · intro d c t hseeks k hk hrule hle
    rcases List.mem_append.mp hk with hk | hk
    · obtain ⟨k', hk', hsub⟩ := h.closed d c t hseeks k hk hrule hle
      exact ⟨k', List.mem_append_left _ hk', hsub⟩
    · obtain ⟨v, -, hsub, -⟩ := h.books.fresh he hw.kept hk
      have hde : d = e :=
        keys.rule_eq hseeks.rule he (hrule.symm.trans (congrArg Prod.fst hsub))
      subst hde
      exact h.made_up_to keys apart hw hk hseeks hle

/-- A pass over the rules adds rows at the end and keeps the invariant. -/
theorem enqueued (keys : s₀.Keyed) (apart : s₀.StoredApart) (h : Covered s₀ made reaped s)
    {rules : List Rule} (hrules : ∀ r ∈ rules, ∃ d ∈ s.rules, d.enabled = true ∧ ∃ n, r = d.view n)
    {s' : Store} (pass : Enqueued rules s s') :
    s'.rules = s.rules ∧ ∃ new, s'.jobs = s.jobs ++ new ∧ Covered s₀ (made ++ new) reaped s' := by
  induction pass with
  | start => exact ⟨rfl, [], by simp, by simpa using h⟩
  | @jobs s' r limit _ hr ih =>
    obtain ⟨hsame, new, hjobs, hcov⟩ := ih
    obtain ⟨d, hd, hen, n, rfl⟩ := hrules r hr
    refine ⟨hsame, new ++ s'.newRows (d.view n) limit, ?_, ?_⟩
    · rw [enqueueFor_fst, hjobs, List.append_assoc]
    · rw [← List.append_assoc]
      exact hcov.enqueueFor keys apart (hsame ▸ hd) hen n limit
  | number _ ih =>
    obtain ⟨hsame, new, hjobs, hcov⟩ := ih
    exact ⟨hsame, new, hjobs, hcov.of_bare hcov.books.number rfl⟩

end Covered

end Store

/-! ## Whole runs -/

namespace Chronicle

open Store

theorem covered_next {s₀ : Store} (keys : s₀.Keyed) (apart : s₀.StoredApart) {h : Chronicle}
    (cov : Covered s₀ h.inserted h.reaped h.store) {op : Operation} (keeps : op.drops = false) :
    Covered s₀ (h.next op).inserted (h.next op).reaped (h.next op).store := by
  have hbooks := books_next keys cov.books op
  have heffect := h.connection.perform_effect op
  simp only [next, store] at hbooks ⊢
  generalize (h.connection.perform op).store = s at heffect hbooks ⊢
  cases heffect with
  | fails =>
    rw [departures_self, ite_self, arrivals_eq_nil_of_bare rfl, List.append_nil, List.append_nil]
    exact cov
  | pass hpass =>
    obtain ⟨-, new, hjobs, hcov⟩ := cov.enqueued keys apart (fun r hr => by
      obtain ⟨d, hd, hen, hr⟩ := mem_runnable hr
      exact ⟨d, hd, hen, _, hr⟩) hpass
    simp only [reduceCtorEq, if_false, List.append_nil, arrivals_append hjobs hcov.books.ids]
    exact hcov
  | claim batch =>
    have hbare := h.store.claim_bare batch
    simp only [reduceCtorEq, if_false, List.append_nil, arrivals_eq_nil_of_bare hbare]
      at hbooks ⊢
    exact cov.of_bare hbooks hbare
  | markDone job =>
    have hbare := h.store.markDone_bare job
    simp only [reduceCtorEq, if_false, List.append_nil, arrivals_eq_nil_of_bare hbare]
      at hbooks ⊢
    exact cov.of_bare hbooks hbare
  | reap =>
    rw [if_pos rfl, departures_reap cov.books.ids, arrivals_eq_nil, List.append_nil]
    · exact cov.reap keys
    · exact fun j hj => ⟨j, (List.mem_filter.mp hj).1, rfl⟩
  | release job => cases keeps
  | discardAll => cases keeps

/-- The invariant holds at the end of every run that drops no jobs. -/
theorem covered_of {c : Connection} (keys : c.store.Keyed) (apart : c.store.StoredApart)
    (empty : c.store.jobs = []) {ops : List Operation} (keeps : ∀ op ∈ ops, op.drops = false) :
    Covered c.store (of c ops).inserted (of c ops).reaped (of c ops).store :=
  of_induction (motive := fun h => Covered c.store h.inserted h.reaped h.store)
    (Covered.start keys empty) fun _ op hop cov => covered_next keys apart cov (keeps op hop)

/-- The number of jobs that were inserted for a rule and a call. -/
def jobsFor (h : Chronicle) (rule : Int) (call : String) : Nat :=
  (h.inserted.map Row.subject).count (rule, some call)

/-! ## Done means marked done -/

/-- A row is done only if it was done before or has just been marked so. -/
theorem done_next {h : Chronicle} {op : Operation} {j : Row} (hj : j ∈ (h.next op).store.jobs)
    (hdone : isDone j = true) :
    (∃ k ∈ h.store.jobs, k.id = j.id ∧ isDone k = true) ∨ op = .markDone j.id := by
  have heffect := h.connection.perform_effect op
  simp only [next, store] at hj
  generalize (h.connection.perform op).store = s at heffect hj
  cases heffect with
  | fails => exact Or.inl ⟨j, hj, rfl, hdone⟩
  | pass hpass =>
    left
    induction hpass with
    | start => exact ⟨j, hj, rfl, hdone⟩
    | jobs r limit _ _ ih =>
      rcases List.mem_append.mp hj with hj | hj
      · exact ih hj
      · rw [isDone, state_rowsFor _ _ _ _ j hj] at hdone
        cases hdone
    | number _ ih => exact ih hj
  | claim batch => exact Or.inl (done_of_claimRows _ _ j hj hdone)
  | markDone job =>
    obtain ⟨k, hk, rfl⟩ := List.mem_map.mp hj
    by_cases hprog : isInProgress job k = true
    · have hid : k.id = job := by
        simp only [isInProgress, Bool.and_eq_true, decide_eq_true_eq] at hprog
        exact hprog.1
      simp only [hprog, if_true, hid, or_true]
    · simp only [hprog, Bool.false_eq_true, if_false] at hdone ⊢
      exact Or.inl ⟨k, hk, rfl, hdone⟩
  | release job => exact Or.inl ⟨j, (List.mem_filter.mp hj).1, rfl, hdone⟩
  | reap => exact Or.inl ⟨j, (List.mem_filter.mp hj).1, rfl, hdone⟩
  | discardAll => cases hj

/-- Every job that is done, or was done when it was reaped, has been marked
done in the run. -/
theorem markDone_mem {c : Connection} (keys : c.store.Keyed) (empty : c.store.jobs = [])
    (ops : List Operation) : ∀ j, j ∈ (of c ops).store.jobs ∨ j ∈ (of c ops).reaped →
      isDone j = true → .markDone j.id ∈ ops := by
  refine (of_induction (motive := fun h => Books c.store h.reaped h.store
    ∧ ∀ j, j ∈ h.store.jobs ∨ j ∈ h.reaped → isDone j = true → .markDone j.id ∈ ops)
    ⟨.start keys empty, by simp [store, empty]⟩ ?_).2
  rintro h op hop ⟨books, ih⟩
  refine ⟨books_next keys books op, ?_⟩
  rintro j (hj | hj) hdone
  · rcases done_next hj hdone with ⟨k, hk, hid, hk_done⟩ | rfl
    · exact hid ▸ ih k (Or.inl hk) hk_done
    · exact hop
  · rcases List.mem_append.mp hj with hj | hj
    · exact ih j (Or.inr hj) hdone
    · split at hj
      · exact ih j (Or.inl (List.mem_filter.mp hj).1) hdone
      · cases hj

/-- **Exactly once.** Over any run without releases and restarts, a call that
a rule sought at its start is given at most one job. At any time the rule
still resumes before the call, or there is a row for it, or its job was
marked done and reaped. -/
theorem audited_exactly_once {c : Connection} (keys : c.store.Keyed)
    (apart : c.store.StoredApart) (empty : c.store.jobs = []) {ops : List Operation}
    (keeps : ∀ op ∈ ops, op.drops = false) {e : RuleEntry} {call : Call} {t : Instant}
    (seeks : c.store.Seeks e call t) :
    (of c ops).jobsFor e.id call.id ≤ 1 ∧
      ∃ d, (of c ops).store.rules.find? (·.id = e.id) = some d ∧
        (d.resumeAt < t ∨ (of c ops).store.hasJob e.id call.id = true ∨
          ∃ j ∈ (of c ops).reaped, j.subject = (e.id, some call.id) ∧ isDone j = true
            ∧ .markDone j.id ∈ ops) := by
  have cov := covered_of keys apart empty keeps
  constructor
  · exact List.nodup_iff_count_le_one.mp cov.once (e.id, some call.id)
  · obtain ⟨w, hmem, hw⟩ := cov.books.entry_of_start seeks.rule
    refine ⟨e.marked w, (cov.books.keyed keys).find?_rule (e := e.marked w) hmem, ?_⟩
    by_cases hmade : ∃ k ∈ (of c ops).inserted, k.subject = (e.id, some call.id)
    · obtain ⟨k, hk, hsub⟩ := hmade
      rcases cov.row_or_le_of_made keys seeks hw hk hsub with hrow | ⟨⟨j, hj, hjsub⟩, -⟩
      · exact Or.inr (Or.inl hrow)
      · have hdone := (cov.books.gone j hj).2
        exact Or.inr (Or.inr
          ⟨j, hj, hjsub, hdone, markDone_mem keys empty ops j (Or.inr hj) hdone⟩)
    · exact Or.inl (cov.wanted_of_not_made seeks hw hmade).1

/-- The newer call is done and reaped while the older one is still in
progress, so that the watermark has jumped over it. -/
theorem audited_exactly_once_overtaken :
    let ops : List Operation := [.enqueueAll 5, .claim 2, .markDone 2, .reap, .enqueueAll 5]
    (of { store := twoCalls } ops).jobsFor 1 "older" ≤ 1 ∧
      ∃ d, (of { store := twoCalls } ops).store.rules.find? (·.id = 1) = some d ∧
        (d.resumeAt < ⟨10⟩ ∨ (of { store := twoCalls } ops).store.hasJob 1 "older" = true ∨
          ∃ j ∈ (of { store := twoCalls } ops).reaped, j.subject = (1, some "older")
            ∧ isDone j = true ∧ .markDone j.id ∈ ops) :=
  have hseeks : twoCalls.Seeks soleRule olderCall ⟨10⟩ :=
    ⟨by simp [twoCalls], by simp [twoCalls], by decide, by decide, rfl, by decide⟩
  audited_exactly_once (c := { store := twoCalls }) twoCalls_keyed
    (by simp [StoredApart, twoCalls, olderCall, newerCall]) rfl (by decide) hseeks

end Chronicle

end CallAudit
