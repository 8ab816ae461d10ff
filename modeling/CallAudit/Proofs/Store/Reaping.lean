/-
CallAudit.Proofs.Store.Reaping — where the watermark of a rule stands after
a run.

Nothing is asked of the store that a run begins with but that its jobs have
numbers of their own: its rows may be at any state, their parameters may be
anything, and their rules need not exist.

* `Newest` — what the newest of some instants is. It is said without the
  fold that finds it, so that it can be held against the watermark.
* `Reached` — a rule and what a run has made of it: the watermark stands at
  the newest of the one it began with and the times of its rows that were
  reaped. Rows of other rules do not come into it.
* `Reaping` — what reaping does and what it answers.
* `watermark_newest` — all of it, for every run.
-/
import CallAudit.Proofs.Store.Lifecycle
import Mathlib.Data.List.Forall2

namespace CallAudit

open CallAudit.Time (Instant)

namespace Store

/-! ## The newest of some instants -/

/-- The newest of some instants is one of them that no other is after. Of
none there is no newest. -/
def Newest (ts : List Instant) : Option Instant → Prop
  | none => ts = []
  | some t => t ∈ ts ∧ ∀ u ∈ ts, u ≤ t

theorem newest_latest (ts : List Instant) : Newest ts (latest ts) := by
  cases h : latest ts with
  | none => exact latest_eq_none.mp h
  | some t => exact ⟨latest_mem h, le_latest h⟩

/-- There is one newest at most. -/
theorem Newest.unique {ts : List Instant} {w w' : Option Instant} (h : Newest ts w)
    (h' : Newest ts w') : w = w' := by
  cases w with
  | none =>
    obtain rfl : ts = [] := h
    cases w' with
    | none => rfl
    | some t' => cases h'.1
  | some t =>
    cases w' with
    | none =>
      obtain rfl : ts = [] := h'
      cases h.1
    | some t' => rw [Instant.eq_of_le_of_le (h'.2 t h.1) (h.2 t' h'.1)]

theorem newest_toList (w : Option Instant) : Newest w.toList w := by
  cases w with
  | none => rfl
  | some t => simp [Newest, Instant.le_iff_ticks]

/-- The newest of some instants is the newest of more, if each of these is at
or before one of the former. -/
theorem Newest.of_cover {ts us : List Instant} {w : Option Instant} (h : Newest ts w)
    (among : ∀ t ∈ ts, t ∈ us) (cover : ∀ u ∈ us, ∃ t ∈ ts, u ≤ t) : Newest us w := by
  cases w with
  | none =>
    obtain rfl : ts = [] := h
    refine List.eq_nil_iff_forall_not_mem.mpr fun u hu => ?_
    obtain ⟨t, ht, -⟩ := cover u hu
    cases ht
  | some t =>
    refine ⟨among t h.1, fun u hu => ?_⟩
    obtain ⟨t', ht', hle⟩ := cover u hu
    exact Instant.le_trans hle (h.2 t' ht')

/-- The newest of the newest and of further instants is the newest of all. -/
theorem Newest.append {ts us : List Instant} {w w' : Option Instant} (h : Newest ts w)
    (h' : Newest (w.toList ++ us) w') : Newest (ts ++ us) w' := by
  cases w with
  | none =>
    obtain rfl : ts = [] := h
    exact h'
  | some t =>
    cases w' with
    | none => cases (show t :: us = [] from h')
    | some t' =>
      obtain ⟨hmem, hall⟩ := h'
      have htt' : t ≤ t' := hall t List.mem_cons_self
      constructor
      · rcases List.mem_cons.mp hmem with rfl | hmem
        · exact List.mem_append_left us h.1
        · exact List.mem_append_right ts hmem
      · intro u hu
        rcases List.mem_append.mp hu with hu | hu
        · exact Instant.le_trans (h.2 u hu) htt'
        · exact hall u (List.mem_cons_of_mem t hu)

/-- Reaping moves a watermark to the newest of itself and of the times of the
rule's jobs that are done. -/
theorem newest_movedMark (s : Store) (rule : Int) (w : Option Instant) :
    Newest (w.toList ++ s.doneTimes rule) (s.movedMark rule w) := by
  unfold movedMark
  have hnewest := newest_latest (s.doneTimes rule)
  cases hl : latest (s.doneTimes rule) with
  | none =>
    rw [latest_eq_none.mp hl, List.append_nil]
    exact newest_toList w
  | some newest =>
    rw [hl] at hnewest
    obtain ⟨hmem, hall⟩ := hnewest
    cases w with
    | none =>
      have hself : newest.later newest = newest := by simp [Instant.later]
      show newest.later newest ∈ s.doneTimes rule
        ∧ ∀ u ∈ s.doneTimes rule, u ≤ newest.later newest
      rw [hself]
      exact ⟨hmem, hall⟩
    | some t =>
      show t.later newest ∈ t :: s.doneTimes rule
        ∧ ∀ u ∈ t :: s.doneTimes rule, u ≤ t.later newest
      constructor
      · rcases Instant.later_eq_or t newest with h | h <;> rw [h]
        · exact List.mem_cons_self
        · exact List.mem_cons_of_mem t hmem
      · intro u hu
        rcases List.mem_cons.mp hu with rfl | hu
        · exact Instant.le_later_left u newest
        · exact Instant.le_trans (hall u hu) (Instant.le_later_right t newest)

/-! ## What a run has made of a rule -/

/-- The times of the calls of a rule that rows are about. -/
def timesOf (rows : List Row) (rule : Int) : List Instant :=
  (rows.filter fun j => j.rule = rule).map (·.storedAt)

theorem timesOf_append (xs ys : List Row) (rule : Int) :
    timesOf (xs ++ ys) rule = timesOf xs rule ++ timesOf ys rule := by
  simp [timesOf]

theorem doneTimes_eq (s : Store) (rule : Int) :
    s.doneTimes rule = timesOf (s.jobs.filter isDone) rule := by
  simp only [doneTimes, timesOf, List.filter_filter]
  congr 1
  exact List.filter_congr fun j _ => Bool.and_comm _ _

/-- A rule, and the same rule when some rows were reaped: its watermark is
the newest of what it was and of the times of its own rows. -/
def Reached (reaped : List Row) (e d : RuleEntry) : Prop :=
  ∃ w, d = e.marked w ∧ Newest (e.watermark.toList ++ timesOf reaped e.id) w

theorem Reached.start (e : RuleEntry) : Reached [] e e := by
  refine ⟨e.watermark, rfl, ?_⟩
  rw [timesOf, List.filter_nil, List.map_nil, List.append_nil]
  exact newest_toList e.watermark

/-- Reaping moves the watermark on. -/
theorem Reached.reap {reaped : List Row} {e d : RuleEntry} (h : Reached reaped e d) (s : Store) :
    Reached (reaped ++ s.jobs.filter isDone) e
      { d with watermark := s.movedMark d.id d.watermark } := by
  obtain ⟨w, rfl, hw⟩ := h
  refine ⟨s.movedMark e.id w, rfl, ?_⟩
  have hmoved := s.newest_movedMark e.id w
  rw [doneTimes_eq] at hmoved
  rw [timesOf_append, ← List.append_assoc]
  exact hw.append hmoved

/-- Jobs that are given to rules change no rule. -/
theorem Enqueued.rules_eq {rules : List Rule} {s s' : Store} (h : Enqueued rules s s') :
    s'.rules = s.rules := by
  induction h with
  | start => rfl
  | jobs r limit _ _ ih => exact ih
  | number _ ih => exact ih

/-- Nothing but reaping changes a rule. -/
theorem Effect.rules_eq {s s' : Store} {op : Operation} (h : s.Effect op s') (hop : op ≠ .reap) :
    s'.rules = s.rules := by
  cases h with
  | pass hpass => exact hpass.rules_eq
  | reap => exact absurd rfl hop
  | fails | claim | markDone | release | discardAll => rfl

/-- A rule that is as it was, but that its watermark may have moved on. -/
def MovesOn (d d' : RuleEntry) : Prop :=
  ∃ w, d' = d.marked w ∧ ∀ t ∈ d.watermark, ∃ t' ∈ w, t ≤ t'

/-- No operation moves a watermark back. -/
theorem Effect.movesOn {s s' : Store} {op : Operation} (h : s.Effect op s') :
    List.Forall₂ MovesOn s.rules s'.rules := by
  by_cases hop : op = .reap
  · subst hop
    cases h with
    | fails => exact List.forall₂_same.mpr fun d _ => ⟨_, rfl, fun t ht => ⟨t, ht, Int.le_refl _⟩⟩
    | reap =>
      rw [reap_rules, List.forall₂_map_right_iff]
      refine List.forall₂_same.mpr fun d _ => ⟨_, rfl, fun t ht => ?_⟩
      obtain ⟨t', ht', hle⟩ := s.le_movedMark d.id t
      exact ⟨t', by rw [Option.mem_def.mp ht]; exact ht', hle⟩
  · rw [h.rules_eq hop]
    exact List.forall₂_same.mpr fun d _ => ⟨_, rfl, fun t ht => ⟨t, ht, Int.le_refl _⟩⟩

/-! ## What reaping does -/

/-- Whether a row is of a job of a rule that is done. -/
def isDoneOf (rule : Int) (j : Row) : Bool :=
  j.rule = rule && j.state = Progress.done.tag

/-- What reaping makes of a store, and what it answers. -/
structure Reaping (before : Store) (moved : List Moved) (after : Store) : Prop where
  /-- The rows whose jobs are done go, and no others. -/
  rows : after.jobs = before.jobs.filter fun j => j.state ≠ Progress.done.tag
  /-- There is one entry for each rule that has such rows. -/
  entries : moved.map (·.rule)
    = (before.rules.filter fun e => before.jobs.any (isDoneOf e.id)).map (·.id)
  counted : ∀ m ∈ moved, m.reaped = before.jobs.countP (isDoneOf m.rule)
  /-- The watermark of an entry is that of its rule from now on. -/
  marked : ∀ m ∈ moved, ∃ d ∈ after.rules, d.id = m.rule ∧ d.watermark = some m.watermark
  /-- Reaping once more does nothing. -/
  again : after.reap = (after, [])

theorem doneTimes_eq_map (s : Store) (rule : Int) :
    s.doneTimes rule = (s.jobs.filter (isDoneOf rule)).map (·.storedAt) := by
  rw [doneTimes]
  congr 1
  exact List.filter_congr fun j _ => Bool.and_comm _ _

theorem doneTimes_eq_nil {s : Store} {rule : Int} :
    s.doneTimes rule = [] ↔ s.jobs.any (isDoneOf rule) = false := by
  rw [doneTimes_eq_map, List.map_eq_nil_iff, List.filter_eq_nil_iff, List.any_eq_false]

theorem length_doneTimes (s : Store) (rule : Int) :
    (s.doneTimes rule).length = s.jobs.countP (isDoneOf rule) := by
  rw [doneTimes_eq_map, List.length_map, List.countP_eq_length_filter]

theorem advance_snd_eq_none {s : Store} {e : RuleEntry} :
    (s.advance e).2 = none ↔ s.doneTimes e.id = [] := by
  simp only [advance, ← latest_eq_none]
  cases latest (s.doneTimes e.id) <;> simp

/-- An entry is answered for a rule that has jobs that are done, with their
number and the watermark that the rule is given. -/
theorem advance_snd_eq_some {s : Store} {e : RuleEntry} {m : Moved}
    (h : (s.advance e).2 = some m) :
    m.rule = e.id ∧ m.reaped = (s.doneTimes e.id).length
      ∧ s.movedMark e.id e.watermark = some m.watermark := by
  simp only [advance, movedMark] at h ⊢
  cases hl : latest (s.doneTimes e.id) with
  | none => simp [hl] at h
  | some newest =>
    simp only [hl, Option.some.injEq] at h
    subst h
    exact ⟨rfl, rfl, rfl⟩

theorem reap_snd (s : Store) : s.reap.2 = s.rules.filterMap fun e => (s.advance e).2 := by
  simp only [reap, List.filterMap_map]
  rfl

/-- The rules that an entry is answered for are those that have jobs that are
done. -/
theorem entries_advance (s : Store) (rules : List RuleEntry) :
    (rules.filterMap fun e => (s.advance e).2).map (·.rule)
      = (rules.filter fun e => s.jobs.any (isDoneOf e.id)).map (·.id) := by
  induction rules with
  | nil => rfl
  | cons e rest ih =>
    cases hm : (s.advance e).2 with
    | none =>
      have hnone := doneTimes_eq_nil.mp (advance_snd_eq_none.mp hm)
      simp [hm, hnone, ih]
    | some m =>
      have hsome : s.jobs.any (isDoneOf e.id) = true := by
        rw [← Bool.not_eq_false, ← doneTimes_eq_nil, ← advance_snd_eq_none, hm]
        simp
      simp [hm, hsome, ih, (advance_snd_eq_some hm).1]

/-- Where no job is done, reaping does nothing. -/
theorem reap_eq_self {s : Store} (idle : ∀ j ∈ s.jobs, isDone j = false) : s.reap = (s, []) := by
  have hadvance : s.advance = fun e => (e, none) := by
    funext e
    have htimes : s.doneTimes e.id = [] := by
      rw [doneTimes, List.map_eq_nil_iff, List.filter_eq_nil_iff]
      exact fun j hj => by simp [idle j hj]
    rw [advance, htimes]
    rfl
  have hjobs : s.jobs.filter (fun j => !isDone j) = s.jobs :=
    List.filter_eq_self.mpr fun j hj => by simp [idle j hj]
  rw [reap, hadvance, hjobs]
  simp [Function.comp_def]

theorem reaping_reap (s : Store) : Reaping s s.reap.2 s.reap.1 where
  rows := List.filter_congr fun j _ => by simp [isDone]
  entries := by
    rw [reap_snd]
    exact s.entries_advance s.rules
  counted := by
    intro m hm
    rw [reap_snd] at hm
    obtain ⟨e, -, he⟩ := List.mem_filterMap.mp hm
    obtain ⟨hrule, hreaped, -⟩ := advance_snd_eq_some he
    rw [hreaped, length_doneTimes, hrule]
  marked := by
    intro m hm
    rw [reap_snd] at hm
    obtain ⟨e, he, hmoved⟩ := List.mem_filterMap.mp hm
    obtain ⟨hrule, -, hmark⟩ := advance_snd_eq_some hmoved
    refine ⟨{ e with watermark := s.movedMark e.id e.watermark }, ?_, hrule.symm, hmark⟩
    rw [reap_rules]
    exact List.mem_map_of_mem he
  again := reap_eq_self fun j hj => by
    simpa using (List.mem_filter.mp hj).2

/-- Rows of other rules have no part in where a watermark is moved to. -/
theorem movedMark_congr (s s' : Store) {rule : Int}
    (own : s'.jobs.filter (fun j => j.rule = rule) = s.jobs.filter fun j => j.rule = rule)
    (w : Option Instant) : s'.movedMark rule w = s.movedMark rule w := by
  have hdone : ∀ u : Store, u.doneTimes rule
      = ((u.jobs.filter fun j => j.rule = rule).filter isDone).map (·.storedAt) := fun u => by
    rw [doneTimes, List.filter_filter]
  simp only [movedMark, hdone, own]

end Store

/-! ## Whole runs -/

namespace Chronicle

open Store

/-- An operation takes the rules one step further. -/
theorem reached_next {s₀ : Store} {h : Chronicle} (ids : (h.store.jobs.map (·.id)).Nodup)
    (reached : List.Forall₂ (Reached h.reaped) s₀.rules h.store.rules) (op : Operation) :
    List.Forall₂ (Reached (h.next op).reaped) s₀.rules (h.next op).store.rules := by
  by_cases hop : op = .reap
  · subst hop
    simp only [next, if_true]
    rcases h.connection.carry_store Store.reap with hs | hs <;>
      simp only [Connection.perform, Connection.reap, store, hs]
    · rw [departures_self, List.append_nil]
      exact reached
    · rw [departures_reap ids, reap_rules, List.forall₂_map_right_iff]
      exact reached.imp fun e d hed => hed.reap _
  · simp only [next, hop, if_false, List.append_nil]
    rw [(h.connection.perform_effect op).rules_eq hop]
    exact reached

/-- **The watermark of a run.** Whatever a run begins with, at its end every
rule is what it was, with a watermark that is the newest of the one it had
and of the times of its own rows that were reaped. On the way no operation
moves a watermark back and none but reaping moves one at all. Reaping a
store that can be reached removes the rows whose jobs are done, whoever
their rules are, and answers for the rules that had any; done once more it
does nothing. Where it moves the watermark of a rule to depends on the rows
of that rule alone. -/
theorem watermark_newest {c : Connection} (numbered : c.store.Numbered) (ops : List Operation) :
    List.Forall₂ (Reached (of c ops).reaped) c.store.rules (of c ops).store.rules
      ∧ (∀ op, List.Forall₂ MovesOn (of c ops).store.rules ((of c ops).next op).store.rules)
      ∧ (∀ op, op ≠ .reap → ((of c ops).next op).store.rules = (of c ops).store.rules)
      ∧ ((of c ops).connection.closed = false →
          ∃ moved, (of c ops).connection.reap.1 = .ok moved
            ∧ Reaping (of c ops).store moved (of c ops).connection.reap.2.store
            ∧ (of c ops).connection.reap.2.reap = (.ok [], (of c ops).connection.reap.2))
      ∧ ∀ e ∈ (of c ops).store.rules, ∀ jobs : List Row,
          jobs.filter (fun j => j.rule = e.id)
              = (of c ops).store.jobs.filter (fun j => j.rule = e.id) →
            ∃ w, e.marked w ∈ (of c ops).store.reap.1.rules
              ∧ e.marked w ∈ ({ (of c ops).store with jobs := jobs } : Store).reap.1.rules := by
  refine ⟨?_, ?_, ?_, ?_, ?_⟩
  · refine (of_induction (motive := fun h => h.store.Numbered
      ∧ List.Forall₂ (Reached h.reaped) c.store.rules h.store.rules) ⟨numbered, ?_⟩ ?_).2
    · exact List.forall₂_same.mpr fun e _ => .start e
    · rintro h op - ⟨hnumbered, hreached⟩
      exact ⟨(hnumbered.effect (h.connection.perform_effect op)).1,
        reached_next hnumbered.distinct hreached op⟩
  · exact fun op => ((of c ops).connection.perform_effect op).movesOn
  · exact fun op hop => ((of c ops).connection.perform_effect op).rules_eq hop
  · intro hopen
    have hreaping := (of c ops).store.reaping_reap
    simp only [Connection.reap, Connection.carry, hopen, Bool.false_eq_true, if_false]
    exact ⟨_, rfl, hreaping, by rw [hreaping.again]⟩
  · intro e he jobs own
    refine ⟨(of c ops).store.movedMark e.id e.watermark, ?_, ?_⟩ <;> rw [reap_rules]
    · exact List.mem_map_of_mem he
    · rw [← movedMark_congr (of c ops).store { (of c ops).store with jobs := jobs } own]
      exact List.mem_map_of_mem he

/-- Rows that were left behind: two of the only rule are done, in the wrong
order, one is in progress, and one that is done is of a rule that nobody
knows. -/
def leftovers : Store :=
  { twoCalls with
    jobs := [⟨1, 1, 1, 3, .null, ⟨20⟩⟩, ⟨2, 1, 1, 3, .null, ⟨10⟩⟩, ⟨3, 1, 1, 1, .null, ⟨15⟩⟩,
      ⟨4, 9, 1, 3, .null, ⟨90⟩⟩]
    nextJob := 5 }

/-- The watermark stays where the newest of them has taken it when an older
one is reaped later. -/
theorem watermark_newest_leftovers :
    let c : Connection := { store := leftovers }
    let h := of c [.reap, .markDone 3, .reap]
    h.store.rules.map (·.watermark) = [some ⟨20⟩] ∧ h.reaped.length = 4
      ∧ ∃ d, h.store.rules = [d] ∧ Reached h.reaped soleRule d := by
  intro c h
  have hnumbered : leftovers.Numbered := ⟨by decide, by decide⟩
  obtain ⟨hreached, -⟩ :=
    watermark_newest (c := { store := leftovers }) hnumbered [.reap, .markDone 3, .reap]
  obtain ⟨d, rest, hd, hrest, hrules⟩ := List.forall₂_cons_left_iff.mp hreached
  rw [List.forall₂_nil_left_iff.mp hrest] at hrules
  exact ⟨by decide +kernel, by decide +kernel, d, hrules, hd⟩

end Chronicle

end CallAudit
