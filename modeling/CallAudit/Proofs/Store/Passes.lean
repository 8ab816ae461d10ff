/-
CallAudit.Proofs.Store.Passes — how many jobs a rule is given by several
enqueuers that share a store.

An enqueuer makes passes: it lists the rules that may be given jobs, with
the number of the jobs they have, and then gives each of them as many as the
listing leaves room for. The listing and the giving are statements of their
own, and other statements come in between.

* `Action`, `Shared` — the statements of any number of enqueuers and of the
  rest of the scheduler, and a store with what each enqueuer has listed and
  not dealt with yet.
* `room` — the room that was listed for a rule. A listing is made where a
  rule has fewer jobs than the ceiling, so the jobs and the room of one
  enqueuer are never more than the ceiling together, and nothing but the
  enqueuers themselves makes more jobs of the room.
* `Bounded` — the invariant: the jobs of a rule and the room of all
  enqueuers are at most the ceiling for each enqueuer.
* `jobs_le_enqueuers` — the bound that follows, and `ceiling_overrun`, a run
  of two enqueuers that exceeds the ceiling of one.
-/
import CallAudit.Proofs.Store.Release
import Mathlib.Algebra.BigOperators.Group.Finset.Piecewise
import Mathlib.Algebra.Order.BigOperators.Group.Finset
import Mathlib.Data.Fintype.Card
import Mathlib.Algebra.Ring.Int.Defs

namespace CallAudit

open CallAudit.Time (Instant)

namespace Store

/-! ## The number of jobs of a rule -/

/-- Where rows have only left, or changed their states, no rule has more
jobs. -/
theorem activeOf_le_of_sublist {s s' : Store}
    (h : (s'.jobs.map Row.bare).Sublist (s.jobs.map Row.bare)) (q : Int) :
    s'.activeOf q ≤ s.activeOf q := by
  have hbare : ∀ u : Store, u.activeOf q = (u.jobs.map Row.bare).countP (·.rule = q) := fun u => by
    rw [List.countP_map]
    rfl
  rw [hbare, hbare]
  exact h.countP_le

theorem rule_newRows {s : Store} {r : Rule} {limit : Int} {j : Row}
    (hj : j ∈ s.newRows r limit) : j.rule = r.id := by
  obtain ⟨w, -, hsub, -⟩ := subject_newRows.mp ⟨j, hj, rfl, rfl⟩
  exact (congrArg Prod.fst hsub).symm

theorem length_newRows_le (s : Store) (r : Rule) (limit : Int) :
    (s.newRows r limit).length ≤ limit.toNat := by
  rw [newRows, length_rowsFor, chosen]
  exact List.length_take_le _ _

/-- Giving jobs to a rule gives it no more than the limit, and other rules
none. -/
theorem activeOf_enqueueFor_le (s : Store) (r : Rule) {limit : Int} (hlimit : 0 ≤ limit)
    (q : Int) :
    ((s.enqueueFor r limit).1.activeOf q : Int) ≤ s.activeOf q + if r.id = q then limit else 0 := by
  have hsum : (s.enqueueFor r limit).1.activeOf q
      = s.activeOf q + (s.newRows r limit).countP (·.rule = q) := by
    rw [enqueueFor_fst]
    exact List.countP_append
  have hlen := s.length_newRows_le r limit
  have hcount := List.countP_le_length (p := fun j : Row => decide (j.rule = q))
    (l := s.newRows r limit)
  split
  · omega
  · rename_i hne
    have hnone : (s.newRows r limit).countP (·.rule = q) = 0 := by
      rw [List.countP_eq_zero]
      intro j hj
      simp [rule_newRows hj, hne]
    omega

/-! ## The room of a listing -/

/-- The room that was listed for the rule of a number. -/
def room (ceiling : Int) (pending : List Rule) (q : Int) : Int :=
  ((pending.filter (·.id = q)).map (·.headroom ceiling)).sum

/-- With a listing that has no rule twice, the room of a rule is the
headroom it was listed with, or none. -/
theorem room_cases (ceiling : Int) {pending : List Rule} (distinct : (pending.map (·.id)).Nodup)
    (q : Int) : room ceiling pending q = 0 ∨
      ∃ r ∈ pending, r.id = q ∧ room ceiling pending q = r.headroom ceiling := by
  induction pending with
  | nil => exact Or.inl rfl
  | cons r rest ih =>
    obtain ⟨hfresh, distinct⟩ := List.nodup_cons.mp distinct
    by_cases hr : r.id = q
    · have hnone : rest.filter (·.id = q) = [] := by
        rw [List.filter_eq_nil_iff]
        intro u hu
        have hne : u.id ≠ r.id := fun heq => hfresh (List.mem_map.mpr ⟨u, hu, heq⟩)
        simpa [← hr] using hne
      refine Or.inr ⟨r, List.mem_cons_self, hr, ?_⟩
      rw [room, List.filter_cons_of_pos (by simpa using hr), hnone]
      exact Int.add_zero _
    · have hrest : room ceiling (r :: rest) q = room ceiling rest q := by
        rw [room, List.filter_cons_of_neg (by simpa using hr), room]
      rw [hrest]
      exact (ih distinct).imp_right fun ⟨u, hu, hid, hroom⟩ =>
        ⟨u, List.mem_cons_of_mem _ hu, hid, hroom⟩

/-- The room of a rule is gone when the rule was dealt with. -/
theorem room_eraseIdx (ceiling : Int) {pending : List Rule} {place : Nat} {r : Rule}
    (h : pending[place]? = some r) (q : Int) :
    room ceiling pending q
      = (if r.id = q then r.headroom ceiling else 0) + room ceiling (pending.eraseIdx place) q := by
  obtain ⟨hlt, rfl⟩ := List.getElem?_eq_some_iff.mp h
  have hperm := List.getElem_cons_eraseIdx_perm hlt
  rw [room, ← ((hperm.filter _).map _).sum_eq, List.filter_cons, room]
  split
  · rename_i hid
    rw [if_pos (by simpa using hid), List.map_cons, List.sum_cons]
  · rename_i hid
    rw [if_neg (by simpa using hid), Int.zero_add]

/-- A listing has no rule twice. -/
theorem nodup_runnable {s : Store} (keys : s.Keyed) (ceiling : Int) :
    ((s.runnable ceiling).map (·.id)).Nodup := by
  rw [runnable, ((List.mergeSort_perm _ _).map _).nodup_iff]
  refine (List.filter_sublist.map _).nodup ?_
  rw [List.map_map]
  exact (List.filter_sublist.map _).nodup keys.rules

/-- A rule has fewer jobs than the ceiling when it is listed, and just as
many as it is listed with. -/
theorem active_of_mem_runnable {s : Store} {ceiling : Int} {r : Rule}
    (h : r ∈ s.runnable ceiling) : r.active = s.activeOf r.id ∧ r.active < ceiling := by
  simp only [runnable, List.mem_mergeSort, List.mem_filter, List.mem_map, decide_eq_true_eq] at h
  obtain ⟨⟨e, -, rfl⟩, hlt⟩ := h
  exact ⟨rfl, hlt⟩

end Store

/-! ## Enqueuers -/

/-- What is asked of a store that `k` enqueuers share, one statement at a
time. -/
inductive Action (k : Nat) where
  /-- An enqueuer begins a pass: it lists the rules. -/
  | list (who : Fin k)
  /-- An enqueuer gives jobs to the rule at a place among those it has not
  dealt with in its pass. -/
  | enqueue (who : Fin k) (place : Nat)
  | claim (batch : Int)
  | markDone (job : Int)
  | release (job : Int)
  | reap
  | discardAll

/-- A store and the rules that each enqueuer has listed and not dealt with
yet. -/
structure Shared (k : Nat) where
  store : Store
  pending : Fin k → List Rule := fun _ => []

namespace Shared

open Store

variable {k : Nat}

/-- The store after one more statement. -/
def step (ceiling : Int) (x : Shared k) : Action k → Shared k
  | .list who => { x with pending := Function.update x.pending who (x.store.runnable ceiling) }
  | .enqueue who place =>
    match (x.pending who)[place]? with
    | none => x
    | some r =>
      { store := (x.store.enqueueFor r (r.headroom ceiling)).1
        pending := Function.update x.pending who ((x.pending who).eraseIdx place) }
  | .claim batch => { x with store := (x.store.claim batch).1 }
  | .markDone job => { x with store := (x.store.markDone job).1 }
  | .release job => { x with store := (x.store.release job).1 }
  | .reap => { x with store := x.store.reap.1 }
  | .discardAll => { x with store := x.store.discardAll }

/-- The store after some statements. -/
def run (ceiling : Int) (s : Store) (actions : List (Action k)) : Shared k :=
  actions.foldl (step ceiling) { store := s }

/-! ## Whole passes -/

theorem enqueueFor_healthy (s : Store) (r : Rule) (limit : Int) :
    Connection.enqueueFor { store := s } r limit
      = (.ok (s.enqueueFor r limit).2, { store := (s.enqueueFor r limit).1 }) := by
  unfold Connection.enqueueFor
  split
  · -- there is no room, and nothing is chosen
    rename_i hlimit
    have hnone : s.newRows r limit = [] := by
      have hlen := s.length_newRows_le r limit
      exact List.eq_nil_of_length_eq_zero (by omega)
    have hcount : (s.enqueueFor r limit).2 = 0 := congrArg List.length hnone
    rw [enqueueFor_fst, hcount, hnone, List.append_nil]
    simp
  · rfl

/-- A pass over the rules where no statement fails. -/
theorem enqueueAll_healthy (s : Store) (ceiling : Int) :
    Connection.enqueueAll { store := s } ceiling
      = (.ok (s.enqueueAll ceiling).2, { store := (s.enqueueAll ceiling).1 }) := by
  have hlist : Connection.runnable { store := s } ceiling
      = (.ok (s.runnable ceiling), { store := s }) := rfl
  simp only [Connection.enqueueAll, hlist, enqueueAll]
  generalize ({ rules := (s.runnable ceiling).length } : Pass) = pass
  clear hlist
  induction s.runnable ceiling generalizing s pass with
  | nil => rfl
  | cons r rest ih =>
    simp only [List.foldl_cons, enqueueFor_healthy]
    exact ih _ _

/-- Such a pass gives jobs to one rule after the other. -/
theorem enqueueAll_fst (s : Store) (ceiling : Int) :
    (s.enqueueAll ceiling).1
      = (s.runnable ceiling).foldl (fun s r => (s.enqueueFor r (r.headroom ceiling)).1) s :=
  (List.foldl_hom Prod.fst fun _ _ => rfl).symm

/-- Dealing with all the rules that are pending, from the first on. -/
theorem deal_eq (ceiling : Int) (who : Fin k) : ∀ (rules : List Rule) (x : Shared k),
    x.pending who = rules →
    ((List.replicate rules.length (.enqueue who 0)).foldl (step ceiling) x).store
      = rules.foldl (fun s r => (s.enqueueFor r (r.headroom ceiling)).1) x.store
  | [], _, _ => rfl
  | r :: rules, x, hx => by
      have hstep : x.step ceiling (.enqueue who 0)
          = ⟨(x.store.enqueueFor r (r.headroom ceiling)).1,
              Function.update x.pending who rules⟩ := by
        simp only [step, hx]
        rfl
      rw [List.length_cons, List.replicate_succ, List.foldl_cons, hstep]
      exact deal_eq ceiling who rules _ (Function.update_self ..)

/-- What a pass does is what its statements do one after the other. -/
theorem pass_eq (ceiling : Int) (x : Shared k) (who : Fin k) :
    ((.list who :: List.replicate (x.store.runnable ceiling).length (.enqueue who 0)).foldl
        (step ceiling) x).store
      = (Connection.enqueueAll { store := x.store } ceiling).2.store := by
  rw [enqueueAll_healthy, enqueueAll_fst, List.foldl_cons,
    deal_eq ceiling who (x.store.runnable ceiling) (x.step ceiling (.list who))
      (Function.update_self ..)]
  rfl

/-! ## The invariant -/

/-- The room that all enqueuers have listed for the rule of a number. -/
def rooms (ceiling : Int) (x : Shared k) (q : Int) : Int :=
  ∑ who, room ceiling (x.pending who) q

/-- What one enqueuer lists takes the place of what it has listed before. -/
theorem rooms_update (ceiling : Int) (x : Shared k) (s : Store) (who : Fin k)
    (pending : List Rule) (q : Int) :
    rooms ceiling ⟨s, Function.update x.pending who pending⟩ q + room ceiling (x.pending who) q
      = x.rooms ceiling q + room ceiling pending q := by
  have hfun : (fun i => room ceiling (Function.update x.pending who pending i) q)
      = Function.update (fun i => room ceiling (x.pending i) q) who (room ceiling pending q) := by
    funext i
    by_cases hi : i = who
    · subst hi
      simp
    · simp [hi]
  have hold := Finset.sum_erase_add Finset.univ (fun i => room ceiling (x.pending i) q)
    (Finset.mem_univ who)
  simp only [rooms]
  rw [hfun, Finset.sum_update_of_mem (Finset.mem_univ who), Finset.sdiff_singleton_eq_erase]
  omega

/-- What holds after any statements from the store `s₀` on. -/
structure Bounded (s₀ : Store) (ceiling : Int) (x : Shared k) : Prop where
  books : ∃ reaped, Books s₀ reaped x.store
  listed : ∀ who, ∀ r ∈ x.pending who, Listed s₀ r ∧ 0 ≤ r.active
  distinct : ∀ who, ((x.pending who).map (·.id)).Nodup
  within : ∀ q, x.store.activeOf q + x.rooms ceiling q ≤ k * ceiling

theorem headroom_le {r : Rule} {ceiling : Int} (hc : 0 ≤ ceiling) (h : 0 ≤ r.active) :
    0 ≤ r.headroom ceiling ∧ r.headroom ceiling ≤ ceiling := by
  simp only [Rule.headroom]
  omega

namespace Bounded

variable {s₀ : Store} {ceiling : Int} {x : Shared k}

theorem room_le (h : Bounded s₀ ceiling x) (hc : 0 ≤ ceiling) (who : Fin k) (q : Int) :
    0 ≤ room ceiling (x.pending who) q ∧ room ceiling (x.pending who) q ≤ ceiling := by
  rcases room_cases ceiling (h.distinct who) q with hroom | ⟨r, hr, -, hroom⟩ <;> rw [hroom]
  · exact ⟨Int.le_refl _, hc⟩
  · exact headroom_le hc (h.listed who r hr).2

/-- The other enqueuers have listed no more than the ceiling each. -/
theorem rooms_others_le (h : Bounded s₀ ceiling x) (hc : 0 ≤ ceiling) (who : Fin k) (q : Int) :
    x.rooms ceiling q + ceiling ≤ k * ceiling + room ceiling (x.pending who) q := by
  have hsum := Finset.sum_le_card_nsmul (Finset.univ.erase who)
    (fun i => room ceiling (x.pending i) q) ceiling fun i _ => (h.room_le hc i q).2
  have hold := Finset.sum_erase_add Finset.univ (fun i => room ceiling (x.pending i) q)
    (Finset.mem_univ who)
  obtain ⟨n, rfl⟩ : ∃ n, k = n + 1 := ⟨k - 1, by have := who.isLt; omega⟩
  have hcard : (Finset.univ.erase who).card = n := by simp
  rw [hcard, nsmul_eq_mul] at hsum
  have hmul : ((n + 1 : Nat) : Int) * ceiling = n * ceiling + ceiling := by
    rw [Nat.cast_add, Nat.cast_one, Int.add_mul, Int.one_mul]
  simp only [rooms]
  omega

theorem start (keys : s₀.Keyed) (empty : s₀.jobs = []) (hc : 0 ≤ ceiling) :
    Bounded s₀ ceiling ({ store := s₀ } : Shared k) where
  books := ⟨[], .start keys empty⟩
  listed := by simp
  distinct := by simp
  within := by
    intro q
    have hactive : s₀.activeOf q = 0 := by simp [activeOf, empty]
    have hrooms : rooms ceiling ({ store := s₀ } : Shared k) q = 0 := by simp [rooms, room]
    rw [hactive, hrooms]
    exact Int.mul_nonneg (Int.natCast_nonneg k) hc

theorem list (keys : s₀.Keyed) (h : Bounded s₀ ceiling x) (hc : 0 ≤ ceiling) (who : Fin k) :
    Bounded s₀ ceiling (x.step ceiling (.list who)) := by
  obtain ⟨reaped, books⟩ := h.books
  refine { books := h.books, listed := ?_, distinct := ?_, within := ?_ }
  · intro i r hr
    simp only [step, Function.update_apply] at hr
    split at hr
    · obtain ⟨e, he, hen, rfl⟩ := mem_runnable hr
      exact ⟨books.listed he hen _, Int.natCast_nonneg _⟩
    · exact h.listed i r hr
  · intro i
    simp only [step, Function.update_apply]
    split
    · exact nodup_runnable (books.keyed keys) ceiling
    · exact h.distinct i
  · intro q
    have hrooms := rooms_update ceiling x x.store who (x.store.runnable ceiling) q
    have hothers := h.rooms_others_le hc who q
    have hold := (h.room_le hc who q).1
    have hwithin := h.within q
    simp only [step]
    rcases room_cases ceiling (nodup_runnable (books.keyed keys) ceiling) q with
      hroom | ⟨r, hr, hid, hroom⟩ <;> rw [hroom] at hrooms
    · omega
    · -- what is listed for the rule and what it has are the ceiling together
      obtain ⟨hactive, hlt⟩ := active_of_mem_runnable hr
      rw [hid] at hactive
      rw [Rule.headroom] at hrooms
      omega

theorem enqueue (keys : s₀.Keyed) (h : Bounded s₀ ceiling x) (hc : 0 ≤ ceiling) (who : Fin k)
    (place : Nat) : Bounded s₀ ceiling (x.step ceiling (.enqueue who place)) := by
  simp only [step]
  cases hr : (x.pending who)[place]? with
  | none => exact h
  | some r =>
    obtain ⟨reaped, books⟩ := h.books
    obtain ⟨hlisted, hactive⟩ := h.listed who r (List.mem_of_getElem? hr)
    refine
      { books := ⟨reaped, books.enqueueFor keys hlisted _⟩, listed := ?_, distinct := ?_
        within := ?_ }
    · intro i u hu
      simp only [Function.update_apply] at hu
      split at hu
      · exact h.listed who u (List.mem_of_mem_eraseIdx hu)
      · exact h.listed i u hu
    · intro i
      simp only [Function.update_apply]
      split
      · exact ((List.eraseIdx_sublist _ _).map _).nodup (h.distinct who)
      · exact h.distinct i
    · -- the jobs that are given use up the room that was listed for them
      intro q
      have hrooms := rooms_update ceiling x (x.store.enqueueFor r (r.headroom ceiling)).1 who
        ((x.pending who).eraseIdx place) q
      have hroom := room_eraseIdx ceiling hr q
      have hgiven := x.store.activeOf_enqueueFor_le r (headroom_le hc hactive).1 q
      have hwithin := h.within q
      simp only
      omega

/-- Rows leave, or change their states. -/
theorem of_sublist (h : Bounded s₀ ceiling x) {s : Store} (books : ∃ reaped, Books s₀ reaped s)
    (hjobs : (s.jobs.map Row.bare).Sublist (x.store.jobs.map Row.bare)) :
    Bounded s₀ ceiling { x with store := s } where
  books := books
  listed := h.listed
  distinct := h.distinct
  within := by
    intro q
    have hactive := activeOf_le_of_sublist hjobs q
    have hwithin := h.within q
    simp only [rooms] at hwithin ⊢
    omega

/-- Every statement keeps the invariant. -/
theorem step (keys : s₀.Keyed) (h : Bounded s₀ ceiling x) (hc : 0 ≤ ceiling) :
    ∀ a : Action k, Bounded s₀ ceiling (x.step ceiling a)
  | .list who => h.list keys hc who
  | .enqueue who place => h.enqueue keys hc who place
  | .claim batch => by
    obtain ⟨reaped, books⟩ := h.books
    exact h.of_sublist ⟨reaped, books.claim batch⟩ (by rw [claim_bare])
  | .markDone job => by
    obtain ⟨reaped, books⟩ := h.books
    exact h.of_sublist ⟨reaped, books.markDone job⟩ (by rw [markDone_bare])
  | .release job => by
    obtain ⟨reaped, books⟩ := h.books
    exact h.of_sublist ⟨reaped, books.release job⟩ (List.filter_sublist.map _)
  | .reap => by
    obtain ⟨reaped, books⟩ := h.books
    exact h.of_sublist ⟨_, books.reap keys⟩ (List.filter_sublist.map _)
  | .discardAll => by
    obtain ⟨reaped, books⟩ := h.books
    exact h.of_sublist ⟨reaped, books.discardAll⟩ (List.nil_sublist _)

theorem activeOf_le (h : Bounded s₀ ceiling x) (hc : 0 ≤ ceiling) (q : Int) :
    x.store.activeOf q ≤ k * ceiling := by
  have hrooms : 0 ≤ x.rooms ceiling q := Finset.sum_nonneg fun who _ => (h.room_le hc who q).1
  have hwithin := h.within q
  omega

end Bounded

theorem bounded_run {s₀ : Store} (keys : s₀.Keyed) (empty : s₀.jobs = []) {ceiling : Int}
    (hc : 0 ≤ ceiling) (actions : List (Action k)) : Bounded s₀ ceiling (run ceiling s₀ actions) :=
  List.foldlRecOn actions (step ceiling) (.start keys empty hc) fun _ h a _ => h.step keys hc a

/-- What holds of every new row, and of a row whatever its state, holds of
all rows. -/
theorem forall_rows {s₀ : Store} (keys : s₀.Keyed) (empty : s₀.jobs = []) {ceiling : Int}
    (hc : 0 ≤ ceiling) {motive : Row → Prop}
    (new : ∀ x : Shared k, Bounded s₀ ceiling x → ∀ who, ∀ r ∈ x.pending who,
      ∀ j ∈ x.store.newRows r (r.headroom ceiling), motive j)
    (moved : ∀ (j : Row) (p : Progress), motive j → motive { j with state := p.tag })
    (actions : List (Action k)) : ∀ j ∈ (run ceiling s₀ actions).store.jobs, motive j := by
  refine (List.foldlRecOn (motive := fun x : Shared k =>
    Bounded s₀ ceiling x ∧ ∀ j ∈ x.store.jobs, motive j) actions (step ceiling)
    ⟨.start keys empty hc, ?_⟩ ?_).2
  · simp [empty]
  · rintro x ⟨h, hrows⟩ a -
    refine ⟨h.step keys hc a, ?_⟩
    cases a with
    | list who => exact hrows
    | enqueue who place =>
      simp only [step]
      cases hr : (x.pending who)[place]? with
      | none => exact hrows
      | some r =>
        intro j hj
        rcases List.mem_append.mp hj with hj | hj
        · exact hrows j hj
        · exact new x h who r (List.mem_of_getElem? hr) j hj
    | claim batch =>
      intro j hj
      rcases mem_or_of_mem_claimRows _ _ j hj with hold | hnew
      · exact hrows j hold
      · obtain ⟨-, hstate, i, hi, -, hij⟩ := mem_claimRows_snd _ _ j hnew
        rw [Row.eq_of_bare hij, hstate]
        exact moved i .inProgress (hrows i hi)
    | markDone job =>
      intro j hj
      obtain ⟨i, hi, rfl⟩ := List.mem_map.mp hj
      split
      · exact moved i .done (hrows i hi)
      · exact hrows i hi
    | release job => exact fun j hj => hrows j (List.mem_filter.mp hj).1
    | reap => exact fun j hj => hrows j (List.mem_filter.mp hj).1
    | discardAll => exact fun j hj => absurd hj List.not_mem_nil

/-! ## How many jobs a rule has -/

/-- **The bound on the jobs of a rule.** From an empty jobs table on, after
any statements of `k` enqueuers and of the rest of the scheduler, a rule has
at most the ceiling of jobs for each enqueuer, at whatever state they are. -/
theorem jobs_le_enqueuers {s₀ : Store} (keys : s₀.Keyed) (empty : s₀.jobs = []) {ceiling : Int}
    (positive : 1 ≤ ceiling) (actions : List (Action k)) (q : Int) :
    ((run ceiling s₀ actions).store.activeOf q : Int) ≤ k * ceiling := by
  have hc : 0 ≤ ceiling := by omega
  exact (bounded_run keys empty hc actions).activeOf_le hc q

/-- Two enqueuers list the rules before either of them deals with what it has
listed. -/
def crossing : List (Action 2) :=
  [.list 0, .list 1, .enqueue 0 0, .enqueue 1 0]

/-- With room for one job each, they give the rule a job for either call. -/
theorem activeOf_crossing : (run 1 twoCalls crossing).store.activeOf 1 = 2 := by
  have hlisted : twoCalls.runnable 1 = [soleRule.view 0] := by decide +kernel
  have hchosen : twoCalls.chosen (soleRule.view 0) 1 = [⟨olderCall, ⟨10⟩, 1⟩] := by
    rw [chosen, Chronicle.twoCalls_backlog]
    rfl
  have hfirst : (twoCalls.enqueueFor (soleRule.view 0) 1).1 =
      { twoCalls with
        jobs := rowsFor (soleRule.view 0) 1 1 [⟨olderCall, ⟨10⟩, 1⟩], nextJob := 2 } := by
    simp only [enqueueFor, hchosen, length_rowsFor]
    rfl
  have hheadroom : (soleRule.view 0).headroom 1 = 1 := rfl
  have hstore : (run 1 twoCalls crossing).store
      = ((twoCalls.enqueueFor (soleRule.view 0) 1).1.enqueueFor (soleRule.view 0) 1).1 := by
    simp only [run, crossing, List.foldl_cons, List.foldl_nil, step, hlisted, Function.update_self,
      List.getElem?_cons_zero, hheadroom, Function.update_of_ne (by decide : (1 : Fin 2) ≠ 0),
      Function.update_of_ne (by decide : (0 : Fin 2) ≠ 1)]
  rw [hstore, hfirst]
  decide +kernel

theorem jobs_le_enqueuers_crossing :
    (run 1 twoCalls crossing).store.activeOf 1 = 2
      ∧ ((run 1 twoCalls crossing).store.activeOf 1 : Int) ≤ (2 : Nat) * 1 :=
  ⟨activeOf_crossing, jobs_le_enqueuers twoCalls_keyed rfl (by decide) crossing 1⟩

/-- The ceiling of one is exceeded. -/
theorem ceiling_overrun :
    twoCalls.Keyed ∧ twoCalls.jobs = [] ∧ 1 < (run 1 twoCalls crossing).store.activeOf 1 := by
  refine ⟨twoCalls_keyed, rfl, ?_⟩
  rw [activeOf_crossing]
  decide

end Shared

end CallAudit
