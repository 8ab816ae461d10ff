/-
CallAudit.Proofs.Store.Dealing — which calls a whole pass over the rules
gives jobs to.

A pass deals with one rule after the other, and each rule sees the rows that
the rules before it were given. That makes no difference: what is chosen for
a rule depends on its own rows only (`chosen_congr`), and no rule is listed
twice. So the rows of a pass are those that each rule would have been given
by itself from the store the pass began with.

* `deal` — jobs for rules, one after the other; a pass that no trouble
  meets is this (`enqueueAll_eq_deal`).
* `dealtRows`, `filter_dealtRows` — the rows that are added, and those of
  one rule among them: the rows for the calls chosen for it from the store
  as it was at first.
* `rows_deal` — what the rows are about after it.
* `mem_runnable_iff` — the rules that a pass deals with.
* `rows_enqueueAll_of_empty` — the same of a pass over a store without jobs,
  where every enabled rule has the whole ceiling for itself.
-/
import CallAudit.Proofs.Store.Passes

namespace CallAudit

open CallAudit.Time (Instant)

namespace Store

/-! ## A rule and the rows of others -/

/-- What a rule wants depends on the calls, their recordings and its own
rows. -/
theorem chosen_congr {s s' : Store} {r : Rule} (hcalls : s'.calls = s.calls)
    (hrecs : s'.recordings = s.recordings) (own : ∀ call, s'.hasJob r.id call = s.hasJob r.id call)
    (limit : Int) : s'.chosen r limit = s.chosen r limit := by
  have hwanted : s'.wanted? r = s.wanted? r := by
    funext c
    simp only [wanted?, recordingOf?, hrecs, own]
  simp only [chosen, backlog, hcalls, hwanted]

/-- Jobs that are given to a rule are no jobs of another. -/
theorem hasJob_enqueueFor_of_ne (s : Store) (r : Rule) (limit : Int) {rule : Int}
    (hne : r.id ≠ rule) (call : String) :
    (s.enqueueFor r limit).1.hasJob rule call = s.hasJob rule call := by
  have hnone : (s.newRows r limit).any (fun j =>
      j.rule = rule && j.params.memberText "call_id" = some call) = false := by
    rw [List.any_eq_false]
    intro j hj
    simp [rule_newRows hj, hne]
  rw [enqueueFor_fst, hasJob, List.any_append, hnone, Bool.or_false, hasJob]

/-! ## One rule after the other -/

/-- Jobs for rules, one after the other, as many as each has room for. -/
def deal (ceiling : Int) (rules : List Rule) (s : Store) : Store :=
  rules.foldl (fun s r => (s.enqueueFor r (r.headroom ceiling)).1) s

/-- A pass that no trouble meets deals with the rules that may be given
jobs. -/
theorem enqueueAll_eq_deal (s : Store) (ceiling : Int) :
    (Connection.enqueueAll { store := s } ceiling).2
      = { store := deal ceiling (s.runnable ceiling) s } := by
  rw [Shared.enqueueAll_healthy, Shared.enqueueAll_fst]
  rfl

/-- The rows that dealing with some rules adds. -/
def dealtRows (ceiling : Int) : List Rule → Store → List Row
  | [], _ => []
  | r :: rest, s =>
    s.newRows r (r.headroom ceiling)
      ++ dealtRows ceiling rest (s.enqueueFor r (r.headroom ceiling)).1

theorem deal_eq_append (ceiling : Int) (rules : List Rule) (s : Store) :
    deal ceiling rules s
      = { s with
          jobs := s.jobs ++ dealtRows ceiling rules s
          nextJob := s.nextJob + (dealtRows ceiling rules s).length } := by
  induction rules generalizing s with
  | nil => simp [deal, dealtRows]
  | cons r rest ih =>
    rw [deal, List.foldl_cons, ← deal, ih, dealtRows, enqueueFor_fst]
    simp only [List.append_assoc, List.length_append, Int.natCast_add, Int.add_assoc]

theorem rule_dealtRows {ceiling : Int} {rules : List Rule} {s : Store} {j : Row}
    (hj : j ∈ dealtRows ceiling rules s) : ∃ r ∈ rules, j.rule = r.id := by
  induction rules generalizing s with
  | nil => cases hj
  | cons r rest ih =>
    rcases List.mem_append.mp hj with hj | hj
    · exact ⟨r, List.mem_cons_self, rule_newRows hj⟩
    · obtain ⟨u, hu, hrule⟩ := ih hj
      exact ⟨u, List.mem_cons_of_mem r hu, hrule⟩

/-- Of the rows that are added, those of a rule are the ones for the calls
chosen for it at first. -/
theorem filter_dealtRows {ceiling : Int} {rules : List Rule} (distinct : (rules.map (·.id)).Nodup)
    {r : Rule} (hr : r ∈ rules) (s : Store) :
    ∃ first, (dealtRows ceiling rules s).filter (·.rule = r.id)
      = rowsFor r first 1 (s.chosen r (r.headroom ceiling)) := by
  induction rules generalizing s with
  | nil => cases hr
  | cons u rest ih =>
    obtain ⟨hfresh, distinct⟩ := List.nodup_cons.mp distinct
    rw [dealtRows, List.filter_append]
    rcases List.mem_cons.mp hr with rfl | hr
    · -- the rule is dealt with now, and no other one is of its number
      have hown : (s.newRows r (r.headroom ceiling)).filter (·.rule = r.id)
          = s.newRows r (r.headroom ceiling) :=
        List.filter_eq_self.mpr fun j hj => decide_eq_true (rule_newRows hj)
      have hlater : (dealtRows ceiling rest (s.enqueueFor r (r.headroom ceiling)).1).filter
          (·.rule = r.id) = [] := by
        rw [List.filter_eq_nil_iff]
        intro j hj hrule
        obtain ⟨v, hv, hid⟩ := rule_dealtRows hj
        exact hfresh (List.mem_map.mpr ⟨v, hv, hid.symm.trans (of_decide_eq_true hrule)⟩)
      exact ⟨s.nextJob, by rw [hown, hlater, List.append_nil, newRows]⟩
    · -- the rule that is dealt with now makes no difference to it
      have hne : u.id ≠ r.id := fun heq => hfresh (List.mem_map.mpr ⟨r, hr, heq.symm⟩)
      have hnone : (s.newRows u (u.headroom ceiling)).filter (·.rule = r.id) = [] := by
        rw [List.filter_eq_nil_iff]
        intro j hj
        simpa [rule_newRows hj] using hne
      obtain ⟨first, hfirst⟩ := ih distinct hr (s.enqueueFor u (u.headroom ceiling)).1
      have hsame : (s.enqueueFor u (u.headroom ceiling)).1.chosen r (r.headroom ceiling)
          = s.chosen r (r.headroom ceiling) :=
        chosen_congr (by rfl) (by rfl) (hasJob_enqueueFor_of_ne s u _ hne) _
      exact ⟨first, by rw [hnone, List.nil_append, hfirst, hsame]⟩

/-- After some rules were dealt with there is a row for a subject and a time
exactly if there was one before, or one of them has chosen a call of it from
the store as it was at first. -/
theorem rows_deal (ceiling : Int) {rules : List Rule} (distinct : (rules.map (·.id)).Nodup)
    (s : Store) {q : Int × Option String} {t : Instant} :
    (∃ j ∈ (deal ceiling rules s).jobs, j.subject = q ∧ j.storedAt = t) ↔
      (∃ j ∈ s.jobs, j.subject = q ∧ j.storedAt = t)
        ∨ ∃ r ∈ rules, ∃ w ∈ s.chosen r (r.headroom ceiling),
            (r.id, some w.call.id) = q ∧ w.storedAt = t := by
  rw [deal_eq_append]
  simp only [List.mem_append, or_and_right, exists_or]
  refine or_congr_right ?_
  constructor
  · rintro ⟨j, hj, hq⟩
    obtain ⟨r, hr, hrule⟩ := rule_dealtRows hj
    obtain ⟨first, hrows⟩ := filter_dealtRows distinct hr s
    have hown : j ∈ rowsFor r first 1 (s.chosen r (r.headroom ceiling)) :=
      hrows ▸ List.mem_filter.mpr ⟨hj, decide_eq_true hrule⟩
    exact ⟨r, hr, exists_rowsFor_iff.mp ⟨j, hown, hq⟩⟩
  · rintro ⟨r, hr, hchosen⟩
    obtain ⟨first, hrows⟩ := filter_dealtRows distinct hr s
    obtain ⟨j, hj, hq⟩ := exists_rowsFor_iff.mpr hchosen
    rw [← hrows] at hj
    exact ⟨j, List.mem_of_mem_filter hj, hq⟩

/-! ## The rules of a pass -/

/-- The rules that may be given jobs are the enabled ones with fewer jobs
than the ceiling. -/
theorem mem_runnable_iff {s : Store} {ceiling : Int} {r : Rule} :
    r ∈ s.runnable ceiling ↔
      ∃ e ∈ s.rules, e.enabled = true ∧ (s.activeOf e.id : Int) < ceiling
        ∧ r = e.view (s.activeOf e.id) := by
  constructor
  · intro hr
    obtain ⟨e, he, hen, rfl⟩ := mem_runnable hr
    exact ⟨e, he, hen, (active_of_mem_runnable hr).2, rfl⟩
  · rintro ⟨e, he, hen, hlt, rfl⟩
    simp only [runnable, List.mem_mergeSort, List.mem_filter, List.mem_map, decide_eq_true_eq]
    exact ⟨⟨e, ⟨he, hen⟩, rfl⟩, hlt⟩

/-! ## A pass over a store without jobs -/

theorem activeOf_of_empty {s : Store} (empty : s.jobs = []) (rule : Int) : s.activeOf rule = 0 := by
  simp [activeOf, empty]

/-- Without jobs, the enabled rules are those that may be given any. -/
theorem mem_runnable_of_empty {s : Store} (empty : s.jobs = []) {ceiling : Int}
    (positive : 1 ≤ ceiling) {r : Rule} :
    r ∈ s.runnable ceiling ↔ ∃ e ∈ s.rules, e.enabled = true ∧ r = e.view 0 := by
  have hroom : ((0 : Nat) : Int) < ceiling := by omega
  simp only [mem_runnable_iff, activeOf_of_empty empty, hroom, true_and]
  rfl

/-- A pass over a store without jobs gives every enabled rule the oldest
calls it wants, up to the ceiling. -/
theorem rows_enqueueAll_of_empty {s : Store} (keys : s.Keyed) (empty : s.jobs = [])
    {ceiling : Int} (positive : 1 ≤ ceiling) {q : Int × Option String} {t : Instant} :
    (∃ j ∈ (Connection.enqueueAll { store := s } ceiling).2.store.jobs,
        j.subject = q ∧ j.storedAt = t) ↔
      ∃ e ∈ s.rules, e.enabled = true ∧ ∃ w ∈ s.chosen (e.view 0) ceiling,
        (e.id, some w.call.id) = q ∧ w.storedAt = t := by
  have hheadroom : ∀ e : RuleEntry, (e.view 0).headroom ceiling = ceiling := by
    intro e
    show max 0 (ceiling - 0) = ceiling
    omega
  rw [enqueueAll_eq_deal, rows_deal ceiling (nodup_runnable keys ceiling)]
  constructor
  · rintro (⟨j, hj, -⟩ | ⟨r, hr, w, hw, hq⟩)
    · rw [empty] at hj
      cases hj
    · obtain ⟨e, he, hen, rfl⟩ := (mem_runnable_of_empty empty positive).mp hr
      rw [hheadroom] at hw
      exact ⟨e, he, hen, w, hw, hq⟩
  · rintro ⟨e, he, hen, w, hw, hq⟩
    have hrunnable := (mem_runnable_of_empty empty positive).mpr ⟨e, he, hen, rfl⟩
    refine Or.inr ⟨e.view 0, hrunnable, w, ?_, hq⟩
    rw [hheadroom]
    exact hw

/-- The rows of such a pass are queued. -/
theorem queued_enqueueAll_of_empty {s : Store} (empty : s.jobs = []) (ceiling : Int) :
    ∀ j ∈ (Connection.enqueueAll { store := s } ceiling).2.store.jobs,
      j.state = Progress.queued.tag := by
  intro j hj
  have hpass := Connection.enqueueAll_enqueued { store := s } ceiling
  rcases hpass.mem_jobs.2.2 j hj with hold | ⟨hqueued, -⟩
  · rw [empty] at hold
    cases hold
  · exact hqueued

/-- Where there were no jobs, all rows have arrived. -/
theorem arrivals_of_empty {s : Store} (empty : s.jobs = []) (s' : Store) :
    s.arrivals s' = s'.jobs := by
  simp [arrivals, empty]

end Store

end CallAudit
