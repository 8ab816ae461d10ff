/-
CallAudit.Proofs.Store.StaleReading — jobs given to a rule as it was read
some time ago.

The loops of a scheduler share a store and take turns statement by
statement. Their enqueuer reads the rules in one statement and gives them
jobs in later ones; reaping may come in between. A row keeps a call from
being given a second job while it is there, the watermark does so once it
is reaped, but a rule that was read before the reaping still carries the
old watermark.

* `Statement`, `Loops` — the statements and a store with the latest reading
  of the rules. Three lists that nothing reads tell which rows were marked
  done, and which were reaped before and since that reading.
* `Sound` — the invariant. Its part `listed` is what a reading is worth
  later: it covers the jobs that were reaped before it.
* `enqueued_after_done_iff` — a call whose job was marked done is given
  another one exactly if that job was reaped since the reading and the
  rule was read before the call.
-/
import CallAudit.Proofs.Store.Books

namespace CallAudit

open CallAudit.Time (Instant)

/-! ## Statements -/

/-- What the loops ask of a store, one statement at a time. Jobs are given
to the rule at a place of the latest reading. -/
inductive Statement where
  | list (ceiling : Int)
  | enqueue (place : Nat) (limit : Int)
  | claim (batch : Int)
  | markDone (job : Int)
  | release (job : Int)
  | reap
deriving DecidableEq, Repr

/-- A store and the rules as its enqueuer has read them last. -/
structure Loops where
  store : Store
  listed : List Rule := []
  /-- The rows whose jobs were marked done, as they were before. -/
  finished : List Row := []
  /-- The rows that were reaped before the latest reading. -/
  before : List Row := []
  /-- The rows that were reaped since the latest reading. -/
  since : List Row := []

namespace Loops

open Store

/-- The loops after one more statement. -/
def step (x : Loops) : Statement → Loops
  | .list ceiling =>
    { x with
      listed := x.store.runnable ceiling
      before := x.before ++ x.since
      since := [] }
  | .enqueue place limit =>
    match x.listed[place]? with
    | none => x
    | some r => { x with store := (x.store.enqueueFor r limit).1 }
  | .claim batch => { x with store := (x.store.claim batch).1 }
  | .markDone job =>
    { x with
      store := (x.store.markDone job).1
      finished := x.finished ++ x.store.jobs.filter (isInProgress job) }
  | .release job => { x with store := (x.store.release job).1 }
  | .reap =>
    { x with store := x.store.reap.1, since := x.since ++ x.store.jobs.filter isDone }

/-- The loops after some statements. -/
def run (s : Store) (statements : List Statement) : Loops :=
  statements.foldl step { store := s }

/-! ## The invariant -/

/-- What holds after any statements from the store `s₀` on. -/
structure Sound (s₀ : Store) (x : Loops) : Prop where
  books : Books s₀ (x.before ++ x.since) x.store
  listed : ∀ r ∈ x.listed, ∃ e ∈ s₀.rules, e.enabled = true ∧ ∃ w n,
    Marked e x.before w ∧ r = (e.marked w).view n
  finished : ∀ k ∈ x.finished, ∃ j, j.bare = k.bare ∧
    (j ∈ x.store.jobs ∧ isDone j = true ∨ j ∈ x.before ∨ j ∈ x.since)

namespace Sound

variable {s₀ : Store} {x : Loops}

theorem start (keys : s₀.Keyed) (empty : s₀.jobs = []) : Sound s₀ { store := s₀ } where
  books := .start keys empty
  listed := by simp
  finished := by simp

theorem list (h : Sound s₀ x) (ceiling : Int) : Sound s₀ (x.step (.list ceiling)) where
  books := by
    rw [step, List.append_nil]
    exact h.books
  listed := by
    intro r hr
    obtain ⟨d, hd, hen, rfl⟩ := mem_runnable hr
    obtain ⟨e, he, w, rfl, hw⟩ := h.books.entry hd
    exact ⟨e, he, hen, w, _, hw, rfl⟩
  finished := by
    intro k hk
    obtain ⟨j, hjk, hj | hj | hj⟩ := h.finished k hk
    · exact ⟨j, hjk, Or.inl hj⟩
    · exact ⟨j, hjk, Or.inr (Or.inl (List.mem_append_left _ hj))⟩
    · exact ⟨j, hjk, Or.inr (Or.inl (List.mem_append_right _ hj))⟩

/-- Whatever keeps the books and the rows that are done is fine, as long as
it touches nothing but the store. -/
theorem of_store (h : Sound s₀ x) {s : Store} (books : Books s₀ (x.before ++ x.since) s)
    (done : ∀ j ∈ x.store.jobs, isDone j = true → j ∈ s.jobs) :
    Sound s₀ { x with store := s } where
  books := books
  listed := h.listed
  finished := by
    intro k hk
    obtain ⟨j, hjk, ⟨hj, hdone⟩ | hj⟩ := h.finished k hk
    · exact ⟨j, hjk, Or.inl ⟨done j hj hdone, hdone⟩⟩
    · exact ⟨j, hjk, Or.inr hj⟩

theorem enqueue (keys : s₀.Keyed) (h : Sound s₀ x) (place : Nat) (limit : Int) :
    Sound s₀ (x.step (.enqueue place limit)) := by
  simp only [step]
  cases hr : x.listed[place]? with
  | none => exact h
  | some r =>
    obtain ⟨e, he, hen, w, n, hw, rfl⟩ := h.listed r (List.mem_of_getElem? hr)
    exact h.of_store (h.books.enqueueFor keys ⟨e, he, hen, w, n, hw.kept, rfl⟩ limit)
      fun j hj _ => List.mem_append_left _ hj

theorem markDone (h : Sound s₀ x) (job : Int) : Sound s₀ (x.step (.markDone job)) where
  books := h.books.markDone job
  listed := h.listed
  finished := by
    intro k hk
    rcases List.mem_append.mp hk with hk | hk
    · obtain ⟨j, hjk, ⟨hj, hdone⟩ | hj⟩ := h.finished k hk
      · exact ⟨j, hjk, Or.inl ⟨mem_markDone_of_done hj hdone, hdone⟩⟩
      · exact ⟨j, hjk, Or.inr hj⟩
    · obtain ⟨hk, hprog⟩ := List.mem_filter.mp hk
      refine ⟨{ k with state := Progress.done.tag }, rfl, Or.inl ⟨?_, rfl⟩⟩
      refine List.mem_map.mpr ⟨k, hk, ?_⟩
      simp only [hprog, if_true]

theorem reap (keys : s₀.Keyed) (h : Sound s₀ x) : Sound s₀ (x.step .reap) where
  books := by
    rw [step, ← List.append_assoc]
    exact h.books.reap keys
  listed := h.listed
  finished := by
    intro k hk
    obtain ⟨j, hjk, ⟨hj, hdone⟩ | hj | hj⟩ := h.finished k hk
    · exact ⟨j, hjk, Or.inr (Or.inr (List.mem_append_right _ (List.mem_filter.mpr ⟨hj, hdone⟩)))⟩
    · exact ⟨j, hjk, Or.inr (Or.inl hj)⟩
    · exact ⟨j, hjk, Or.inr (Or.inr (List.mem_append_left _ hj))⟩

/-- Every statement keeps the invariant. -/
theorem step (keys : s₀.Keyed) (h : Sound s₀ x) : ∀ q : Statement, Sound s₀ (x.step q)
  | .list ceiling => h.list ceiling
  | .enqueue place limit => h.enqueue keys place limit
  | .claim batch =>
    h.of_store (h.books.claim batch) fun _ hj hdone => mem_claim_of_done hj hdone
  | .markDone job => h.markDone job
  | .release job =>
    h.of_store (h.books.release job) fun _ hj hdone => mem_release_of_done hj hdone
  | .reap => h.reap keys

end Sound

/-- The invariant holds after any statements. -/
theorem sound_run {s₀ : Store} (keys : s₀.Keyed) (empty : s₀.jobs = [])
    (statements : List Statement) : Sound s₀ (run s₀ statements) :=
  List.foldlRecOn statements step (.start keys empty) fun _ h q _ => h.step keys q

/-! ## Calls whose jobs were marked done -/

/-- **A finished call.** Once a job of a call was marked done, giving jobs to
a rule as it was read last inserts another one only if a job of the call was
reaped since the reading, the point the rule was read with is before the
call, and the call has no row; and then it does so, if it has the room. -/
theorem enqueued_after_done_iff {s₀ : Store} (keys : s₀.Keyed) (empty : s₀.jobs = [])
    (statements : List Statement) {r : Rule} (hr : r ∈ (run s₀ statements).listed)
    {call : Call} (hcall : call ∈ s₀.calls) {t : Instant} (stored : call.storedAt = some t)
    {k : Row} (hk : k ∈ (run s₀ statements).finished) (hsub : k.subject = (r.id, some call.id))
    (limit : Int) :
    let x := run s₀ statements
    let stale := (∃ j ∈ x.since, j.subject = (r.id, some call.id)) ∧ r.resumeAt < t
      ∧ x.store.hasJob r.id call.id = false
    (x.store.Gives r limit call.id → stale) ∧
      ((x.store.backlog r).length ≤ limit → stale → x.store.Gives r limit call.id) := by
  intro x stale
  have hx : Sound s₀ x := sound_run keys empty statements
  obtain ⟨e, he, hen, w, n, hw, rfl⟩ := hx.listed r hr
  constructor
  · intro hgives
    obtain ⟨t', hseeks, hlt, hno⟩ := hx.books.gives keys he hen hw.kept hcall hgives
    have ht : t' = t := Option.some.inj (hseeks.stored.symm.trans stored)
    subst ht
    refine ⟨?_, hlt, hno⟩
    obtain ⟨j, hjk, ⟨hj, -⟩ | hj | hj⟩ := hx.finished k hk <;>
      have hjsub := (Row.subject_eq_of_bare hjk).trans hsub
    · -- its row is still there
      exact absurd hjsub (hasJob_eq_false_iff.mp hno j hj)
    · -- it was reaped before the reading, which is therefore not before it
      have hstems := (hx.books.gone j (List.mem_append_left _ hj)).1
      have ht : j.storedAt = t' := hstems.storedAt_eq keys he hcall hjsub stored
      have hle := hw.covers j hj (congrArg Prod.fst hjsub)
      rw [ht] at hle
      exact absurd hlt (Instant.not_lt_iff_le.mpr hle)
    · exact ⟨j, hj, hjsub⟩
  · rintro room ⟨⟨j, hj, hjsub⟩, hlt, hno⟩
    have hstems := (hx.books.gone j (List.mem_append_right _ hj)).1
    have hseeks := hstems.seeks keys he hcall hjsub
    have ht : j.storedAt = t := hstems.storedAt_eq keys he hcall hjsub stored
    exact hx.books.gives_of_room keys hen hw.kept (ht ▸ hseeks) hlt hno room

/-- The call is audited and its job reaped. The rule was read while that job
was queued. -/
def overtaken : List Statement :=
  [.list 5, .enqueue 0 5, .list 5, .claim 1, .markDone 1, .reap]

/-- The job was reaped since the reading, so the rule as it was read is given
a second one. -/
theorem enqueued_after_done_iff_overtaken :
    ∃ r ∈ (run oneCall overtaken).listed, r.id = 1
      ∧ (run oneCall overtaken).store.Gives r 5 "older" := by
  obtain ⟨r, hr, hid, hlt, room⟩ : ∃ r ∈ (run oneCall overtaken).listed, r.id = 1
      ∧ r.resumeAt < ⟨10⟩ ∧ ((run oneCall overtaken).store.backlog r).length ≤ 5 := by
    decide +kernel
  obtain ⟨k, hk, hsub⟩ : ∃ k ∈ (run oneCall overtaken).finished, k.subject = (1, some "older") := by
    decide +kernel
  have hcall : olderCall ∈ oneCall.calls := by simp [oneCall]
  have h := enqueued_after_done_iff oneCall_keyed rfl overtaken hr hcall rfl hk
    (hid ▸ hsub) 5
  refine ⟨r, hr, hid, h.2 (Int.ofNat_le.mpr room) ⟨?_, hlt, ?_⟩⟩ <;> rw [hid] <;> decide +kernel

/-- A call whose job was marked done is given another one, with the number
that the pass over the rules asks for. -/
theorem finished_call_given_again :
    (∃ k ∈ (run oneCall overtaken).finished, k.subject = (1, some "older"))
      ∧ ∃ r ∈ (run oneCall overtaken).listed,
          r.id = 1 ∧ (run oneCall overtaken).store.Gives r (r.headroom 5) "older" := by
  decide +kernel

end Loops

end CallAudit
