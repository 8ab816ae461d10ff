/-
CallAudit.Proofs.Audit.Exclusion — no two runs work on one call.

* `Move`, `Desk.play` — the steps of all runs in any order, with any
  replies.
* `Desk.step_cases` — everything one step can do to a desk. It is used in
  place of the definition from there on.
* `Exclusive` — the invariant. The guard holds the calls it held at the
  start and those of the runs under audit, and these are all different, so
  a call that is released at the end of a run was put there by that run.
* `mutual_exclusion` — what it is for: one run for a call at any time, no
  request for a call in hand, and in the end the guard of the start.
-/
import CallAudit.Audit.Desk
import CallAudit.Proofs.Admission

namespace CallAudit

open CallAudit.Http (Session Request Reply)

/-! ## Taking a job -/

/-- A job that is taken names a call that was not in hand. -/
theorem receive_taken {g h : Guard} {job : Job} {p : Params}
    (taken : receive g job = .taken p h) :
    job.params = some p ∧ p.namesCall = true ∧ g.admit? p.call = some h := by
  unfold receive at taken
  split at taken
  · cases taken
  · rename_i q hparams
    split at taken
    · rename_i hnames
      split at taken
      · rename_i g' hadmit
        cases taken
        exact ⟨hparams, hnames, hadmit⟩
      · cases taken
    · cases taken

/-- A job whose call is in hand is declined. -/
theorem receive_of_holds {g : Guard} {job : Job} {p : Params} (hparams : job.params = some p)
    (hnames : p.namesCall = true) (hheld : g.holds p.call = true) :
    receive g job = .declined (.inHand p.call) := by
  simp [receive, hparams, hnames, Guard.admit?_eq_none.mpr hheld]

/-! ## Runs in any order -/

/-- A step of the run at a place. -/
structure Move where
  place : Nat
  auditor : Auditor
  reply : Reply

namespace Desk

/-- The desk after some moves. -/
def play (d : Desk) (moves : List Move) : Desk :=
  moves.foldl (fun d m => d.step m.auditor m.place m.reply) d

/-- The run at a place is under audit and works on a call. -/
def Working (d : Desk) (i : Nat) (call : String) : Prop :=
  ∃ rest, d.runs[i]? = some (.underway call rest)

/-- The request that the run at a place waits for a reply to. -/
def asked? (d : Desk) (i : Nat) : Option Request :=
  d.runs[i]?.bind Run.request?

/-- What one step can do: nothing; a job is declined, or taken with its call
in hand; a reply comes in; a run ends and releases its call. -/
theorem step_cases (d : Desk) (a : Auditor) (i : Nat) (reply : Reply) :
    d.step a i reply = d
      ∨ (∃ job o, d.runs[i]? = some (.new job) ∧ receive d.guard job = .declined o
          ∧ d.step a i reply = ⟨d.guard, d.runs.set i (.ended o)⟩)
      ∨ (∃ job p g, d.runs[i]? = some (.new job) ∧ receive d.guard job = .taken p g
          ∧ d.step a i reply = ⟨g, d.runs.set i (.underway p.call (a.conduct p p.call))⟩)
      ∨ (∃ call delay r next, d.runs[i]? = some (.underway call (.ask delay r next))
          ∧ d.step a i reply = ⟨d.guard, d.runs.set i (.underway call (next reply))⟩)
      ∨ (∃ call o, d.runs[i]? = some (.underway call (.done o))
          ∧ d.step a i reply = ⟨d.guard.release call, d.runs.set i (.ended o)⟩) := by
  unfold step
  cases hrun : d.runs[i]? with
  | none => exact Or.inl rfl
  | some run =>
    cases run with
    | new job =>
      cases hrec : receive d.guard job with
      | declined o => exact Or.inr (Or.inl ⟨job, o, rfl, hrec, by simp only [Run.step, hrec]⟩)
      | taken p g =>
        exact Or.inr (Or.inr (Or.inl ⟨job, p, g, rfl, hrec, by simp only [Run.step, hrec]⟩))
    | underway call rest =>
      cases rest with
      | ask delay r next =>
        exact Or.inr (Or.inr (Or.inr (Or.inl ⟨call, delay, r, next, rfl, rfl⟩)))
      | done o => exact Or.inr (Or.inr (Or.inr (Or.inr ⟨call, o, rfl, rfl⟩)))
    | ended o =>
      left
      obtain ⟨hlt, hget⟩ := List.getElem?_eq_some_iff.mp hrun
      simp only [Run.step]
      rw [← hget, List.set_getElem_self]

/-- A run that is new after another one has changed was new before. -/
theorem new_of_set {runs : List Run} {i : Nat} {run : Run} (looked : ∀ job, run ≠ .new job)
    {j : Nat} {job : Job} (h : (runs.set i run)[j]? = some (.new job)) :
    runs[j]? = some (.new job) := by
  rw [List.getElem?_set] at h
  split at h
  · split at h
    · exact absurd (Option.some.inj h) (looked job)
    · cases h
  · exact h

/-! ## The invariant -/

/-- What holds of a desk that was opened with the guard `g` for some jobs. -/
structure Exclusive (g : Guard) (jobs : List Job) (d : Desk) : Prop where
  waiting : ∀ (i : Nat) (job : Job), d.runs[i]? = some (.new job) → jobs[i]? = some job
  named : ∀ i call, d.Working i call →
    ∃ job p, jobs[i]? = some job ∧ job.params = some p ∧ p.call = call
  alone : ∀ i j call, d.Working i call → d.Working j call → i = j
  fresh : ∀ i call, d.Working i call → g.holds call = false
  held : ∀ call, d.guard.holds call = true ↔ g.holds call = true ∨ ∃ i, d.Working i call
  /-- The guard of the start is a part of the guard, in its order. -/
  kept : d.guard.calls.filter g.holds = g.calls

/-- Who works on what when one run has changed. -/
theorem working_set {d : Desk} {i : Nat} {run : Run} (hrun : d.runs[i]? = some run) {g : Guard}
    (run' : Run) (j : Nat) (call : String) :
    Working ⟨g, d.runs.set i run'⟩ j call ↔
      if i = j then ∃ rest, run' = .underway call rest else d.Working j call := by
  obtain ⟨hlt, -⟩ := List.getElem?_eq_some_iff.mp hrun
  simp only [Working, List.getElem?_set]
  split
  · rename_i hij
    subst hij
    simp
  · rfl

namespace Exclusive

variable {g : Guard} {jobs : List Job} {d : Desk}

theorem start (g : Guard) (jobs : List Job) : Exclusive g jobs (open_ g jobs) := by
  have nobody : ∀ i call, ¬ (open_ g jobs).Working i call := by
    rintro i call ⟨rest, hrest⟩
    simp only [open_, List.getElem?_map, Option.map_eq_some_iff, reduceCtorEq, and_false,
      exists_false] at hrest
  refine
    { waiting := ?_, named := ?_, alone := ?_, fresh := ?_, held := ?_, kept := ?_ }
  · intro i job hjob
    simpa [open_, List.getElem?_map] using hjob
  · exact fun i call h => absurd h (nobody i call)
  · exact fun i _ call h => absurd h (nobody i call)
  · exact fun i call h => absurd h (nobody i call)
  · intro call
    constructor
    · exact Or.inl
    · rintro (h | ⟨i, h⟩)
      · exact h
      · exact absurd h (nobody i call)
  · exact List.filter_eq_self.mpr fun call hcall => Guard.holds_iff.mpr hcall

/-- A run goes on, or ends without having had a call in hand. -/
theorem proceed (h : Exclusive g jobs d) {i : Nat} {run run' : Run} (hrun : d.runs[i]? = some run)
    (looked : ∀ job, run' ≠ .new job)
    (same : ∀ call, (∃ rest, run' = .underway call rest) ↔ d.Working i call) :
    Exclusive g jobs ⟨d.guard, d.runs.set i run'⟩ := by
  have hworking : ∀ j call, Working ⟨d.guard, d.runs.set i run'⟩ j call ↔ d.Working j call := by
    intro j call
    rw [working_set hrun]
    split
    · rename_i hij
      exact hij ▸ same call
    · rfl
  refine
    { waiting := fun j job hjob => h.waiting j job (new_of_set looked hjob)
      named := ?_, alone := ?_, fresh := ?_, held := ?_, kept := h.kept }
  · intro j call hj
    exact h.named j call ((hworking j call).mp hj)
  · intro j k call hj hk
    exact h.alone j k call ((hworking j call).mp hj) ((hworking k call).mp hk)
  · intro j call hj
    exact h.fresh j call ((hworking j call).mp hj)
  · intro call
    simp only [hworking]
    exact h.held call

/-- A run takes its job: nobody else works on the call, and the guard of the
start does not hold it. -/
theorem take (h : Exclusive g jobs d) {i : Nat} {job : Job} (hrun : d.runs[i]? = some (.new job))
    {p : Params} (hparams : job.params = some p) {g' : Guard}
    (admitted : d.guard.admit? p.call = some g') (rest : Session Outcome) :
    Exclusive g jobs ⟨g', d.runs.set i (.underway p.call rest)⟩ := by
  have hfree : ¬ (g.holds p.call = true ∨ ∃ j, d.Working j p.call) := by
    rw [← h.held, (Guard.admit?_eq_some.mp admitted).1]
    exact Bool.false_ne_true
  have hworking : ∀ j call, Working ⟨g', d.runs.set i (.underway p.call rest)⟩ j call ↔
      if i = j then call = p.call else d.Working j call := by
    intro j call
    rw [working_set hrun]
    simp only [Run.underway.injEq, exists_eq_right', eq_comm]
  refine
    { waiting := fun j job hjob => h.waiting j job (new_of_set (fun _ => Run.noConfusion) hjob)
      named := ?_, alone := ?_, fresh := ?_, held := ?_, kept := ?_ }
  · intro j call hj
    rw [hworking] at hj
    split at hj
    · rename_i hij
      exact ⟨job, p, hij ▸ h.waiting i job hrun, hparams, hj.symm⟩
    · exact h.named j call hj
  · intro j k call hj hk
    rw [hworking] at hj hk
    split at hj <;> split at hk
    · rename_i hij hik
      exact hij.symm.trans hik
    · exact absurd (Or.inr ⟨k, hj ▸ hk⟩) hfree
    · exact absurd (Or.inr ⟨j, hk ▸ hj⟩) hfree
    · exact h.alone j k call hj hk
  · intro j call hj
    rw [hworking] at hj
    split at hj
    · rw [hj, Bool.eq_false_iff]
      exact fun hheld => hfree (Or.inl hheld)
    · exact h.fresh j call hj
  · intro call
    rw [Guard.holds_of_admitted admitted, h.held]
    simp only [hworking]
    constructor
    · rintro (rfl | hheld | ⟨j, hj⟩)
      · exact Or.inr ⟨i, by simp⟩
      · exact Or.inl hheld
      · refine Or.inr ⟨j, ?_⟩
        split
        · rename_i hij
          -- the run at the place was new
          obtain ⟨rest', hrest⟩ := hj
          rw [← hij, hrun] at hrest
          cases hrest
        · exact hj
    · rintro (hheld | ⟨j, hj⟩)
      · exact Or.inr (Or.inl hheld)
      · split at hj
        · exact Or.inl hj
        · exact Or.inr (Or.inr ⟨j, hj⟩)
  · rw [Guard.filter_of_admitted admitted, h.kept]
    rw [Bool.eq_false_iff]
    exact fun hheld => hfree (Or.inl hheld)

/-- A run ends and releases its call, which it alone had in hand. -/
theorem release (h : Exclusive g jobs d) {i : Nat} {call : String} {rest : Session Outcome}
    (hrun : d.runs[i]? = some (.underway call rest)) (o : Outcome) :
    Exclusive g jobs ⟨d.guard.release call, d.runs.set i (.ended o)⟩ := by
  have hmine : d.Working i call := ⟨rest, hrun⟩
  have hworking : ∀ j c, Working ⟨d.guard.release call, d.runs.set i (.ended o)⟩ j c ↔
      i ≠ j ∧ d.Working j c := by
    intro j c
    rw [working_set hrun]
    split <;> simp [*]
  refine
    { waiting := fun j job hjob => h.waiting j job (new_of_set (fun _ => Run.noConfusion) hjob)
      named := ?_, alone := ?_, fresh := ?_, held := ?_, kept := ?_ }
  · intro j c hj
    exact h.named j c ((hworking j c).mp hj).2
  · intro j k c hj hk
    exact h.alone j k c ((hworking j c).mp hj).2 ((hworking k c).mp hk).2
  · intro j c hj
    exact h.fresh j c ((hworking j c).mp hj).2
  · intro c
    rw [Guard.holds_release, h.held]
    simp only [hworking]
    constructor
    · rintro ⟨hheld | ⟨j, hj⟩, hne⟩
      · exact Or.inl hheld
      · refine Or.inr ⟨j, ?_, hj⟩
        rintro rfl
        obtain ⟨rest', hrest⟩ := hj
        rw [hrun] at hrest
        cases hrest
        exact hne rfl
    · rintro (hheld | ⟨j, hij, hj⟩)
      · refine ⟨Or.inl hheld, ?_⟩
        rintro rfl
        rw [h.fresh i c hmine] at hheld
        cases hheld
      · refine ⟨Or.inr ⟨j, hj⟩, ?_⟩
        rintro rfl
        exact hij (h.alone i j c hmine hj)
  · rw [Guard.filter_release _ (h.fresh i call hmine), h.kept]

/-- Every step of a run keeps the invariant. -/
theorem step (h : Exclusive g jobs d) (a : Auditor) (i : Nat) (reply : Reply) :
    Exclusive g jobs (d.step a i reply) := by
  rcases d.step_cases a i reply with hs | ⟨job, o, hrun, -, hs⟩ | ⟨job, p, g', hrun, hrec, hs⟩ |
    ⟨call, delay, r, next, hrun, hs⟩ | ⟨call, o, hrun, hs⟩ <;> rw [hs]
  · exact h
  · refine h.proceed hrun (fun _ => Run.noConfusion) fun call => ?_
    simp [Working, hrun]
  · obtain ⟨hparams, -, hadmit⟩ := receive_taken hrec
    exact h.take hrun hparams hadmit _
  · refine h.proceed hrun (fun _ => Run.noConfusion) fun c => ?_
    simp [Working, hrun]
  · exact h.release hrun o

end Exclusive

/-- What holds of a desk and is kept by steps holds after any moves. -/
theorem play_induction {motive : Desk → Prop} {d : Desk} (start : motive d)
    (step : ∀ d a i reply, motive d → motive (step d a i reply)) (moves : List Move) :
    motive (d.play moves) :=
  List.foldlRecOn moves _ start fun d h m _ => step d m.auditor m.place m.reply h

theorem exclusive_play (g : Guard) (jobs : List Job) (moves : List Move) :
    Exclusive g jobs ((open_ g jobs).play moves) :=
  play_induction (.start g jobs) (fun _ a i reply h => h.step a i reply) moves

/-! ## Runs that are declined -/

/-- A run that is new now was new before. -/
theorem new_of_step {d : Desk} {a : Auditor} {i : Nat} {reply : Reply} {j : Nat} {job : Job}
    (h : (d.step a i reply).runs[j]? = some (.new job)) : d.runs[j]? = some (.new job) := by
  rcases d.step_cases a i reply with hs | ⟨_, _, -, -, hs⟩ | ⟨_, _, _, -, -, hs⟩ |
    ⟨_, _, _, _, -, hs⟩ | ⟨_, _, -, hs⟩ <;> rw [hs] at h
  · exact h
  all_goals exact new_of_set (fun _ => Run.noConfusion) h

theorem new_of_play {d : Desk} {moves : List Move} {j : Nat} {job : Job}
    (h : (d.play moves).runs[j]? = some (.new job)) : d.runs[j]? = some (.new job) := by
  induction moves generalizing d with
  | nil => exact h
  | cons m rest ih => exact new_of_step (ih h)

/-- A run that has ended takes no more steps. -/
theorem ended_step {d : Desk} {j : Nat} {o : Outcome} (h : d.runs[j]? = some (.ended o))
    (a : Auditor) (i : Nat) (reply : Reply) :
    (d.step a i reply).runs[j]? = some (.ended o) := by
  -- the run that takes the step is another one
  have stays : ∀ run run' : Run, d.runs[i]? = some run → run ≠ .ended o →
      (d.runs.set i run')[j]? = some (.ended o) := by
    intro run run' hrun hne
    have hij : i ≠ j := by
      rintro rfl
      exact hne (Option.some.inj (hrun.symm.trans h))
    rw [List.getElem?_set_ne hij, h]
  rcases d.step_cases a i reply with hs | ⟨_, _, hrun, -, hs⟩ | ⟨_, _, _, hrun, -, hs⟩ |
    ⟨_, _, _, _, hrun, hs⟩ | ⟨_, _, hrun, hs⟩ <;> rw [hs]
  · exact h
  all_goals exact stays _ _ hrun Run.noConfusion

theorem ended_play {d : Desk} {j : Nat} {o : Outcome} (h : d.runs[j]? = some (.ended o))
    (moves : List Move) : (d.play moves).runs[j]? = some (.ended o) :=
  play_induction (motive := fun d => d.runs[j]? = some (.ended o)) h
    (fun _ a i reply h => ended_step h a i reply) moves

/-- A job whose call is in hand is declined, and the guard stays. -/
theorem step_of_holds {d : Desk} {i : Nat} {job : Job} {p : Params}
    (hrun : d.runs[i]? = some (.new job)) (hparams : job.params = some p)
    (hnames : p.namesCall = true) (hheld : d.guard.holds p.call = true) (a : Auditor)
    (reply : Reply) :
    d.step a i reply = ⟨d.guard, d.runs.set i (.ended (.inHand p.call))⟩ := by
  simp only [step, hrun, Run.step, receive_of_holds hparams hnames hheld]

/-! ## Mutual exclusion -/

/-- **Mutual exclusion.** Jobs are worked on by runs that share a guard,
after any moves and with any replies:

* no two runs work on one call;
* a run works on the call its job names, the guard holds this call, and it
  did not do so at the start;
* a run whose call is held when its job is looked at has made no request,
  leaves the guard as it is, and has ended for good, as already in hand;
* when all runs have ended the guard is that of the start. -/
theorem mutual_exclusion (g : Guard) (jobs : List Job) (moves : List Move) :
    let d := (open_ g jobs).play moves
    (∀ i j call, d.Working i call → d.Working j call → i = j) ∧
    (∀ i call, d.Working i call → d.guard.holds call = true ∧ g.holds call = false ∧
      ∃ job p, jobs[i]? = some job ∧ job.params = some p ∧ p.call = call) ∧
    (∀ i job p, d.runs[i]? = some (.new job) → job.params = some p → p.namesCall = true →
      d.guard.holds p.call = true →
      (∀ earlier, earlier <+: moves → ((open_ g jobs).play earlier).asked? i = none) ∧
      ∀ a reply, (d.step a i reply).guard = d.guard ∧ ∀ later,
        ((d.step a i reply).play later).runs[i]? = some (.ended (.inHand p.call)) ∧
        ((d.step a i reply).play later).asked? i = none) ∧
    ((∀ run ∈ d.runs, ∃ o, run = .ended o) → d.guard = g) := by
  intro d
  have hd : Exclusive g jobs d := exclusive_play g jobs moves
  refine ⟨hd.alone, ?_, ?_, ?_⟩
  · intro i call hi
    exact ⟨(hd.held call).mpr (Or.inr ⟨i, hi⟩), hd.fresh i call hi, hd.named i call hi⟩
  · intro i job p hrun hparams hnames hheld
    constructor
    · rintro earlier ⟨later, rfl⟩
      have hplay : ((open_ g jobs).play (earlier ++ later)).runs
          = (((open_ g jobs).play earlier).play later).runs := by
        simp only [play, List.foldl_append]
      rw [asked?, new_of_play (hplay ▸ hrun)]
      rfl
    · intro a reply
      have hstep := step_of_holds hrun hparams hnames hheld a reply
      refine ⟨by rw [hstep], fun later => ?_⟩
      have hended : (d.step a i reply).runs[i]? = some (.ended (.inHand p.call)) := by
        obtain ⟨hlt, -⟩ := List.getElem?_eq_some_iff.mp hrun
        rw [hstep, List.getElem?_set_self hlt]
      have hlater := ended_play hended later
      refine ⟨hlater, ?_⟩
      rw [asked?, hlater]
      rfl
  · intro hended
    -- nobody works on anything, so the guard holds what it held at the start
    refine Guard.eq_of_calls ?_
    rw [← hd.kept, eq_comm, List.filter_eq_self]
    intro call hcall
    rcases (hd.held call).mp (Guard.holds_iff.mpr hcall) with hheld | ⟨i, rest, hi⟩
    · exact hheld
    · obtain ⟨o, ho⟩ := hended _ (List.mem_of_getElem? hi)
      cases ho

/-- Two jobs for one call, which is written with blanks around it in the
first. -/
def twoJobs : List Job :=
  [{ (default : Job) with params := some { callId := " call " } },
   { (default : Job) with params := some { callId := "call" } }]

def sampleAuditor : Auditor where
  services := ⟨default, none, ⟨0⟩⟩
  model := {}
  settings := {}

/-- While the first job is under audit the second is declined. -/
theorem mutual_exclusion_blanks :
    let d := (open_ .empty twoJobs).play [⟨0, sampleAuditor, none⟩]
    d.guard.holds "call" = true
      ∧ (d.step sampleAuditor 1 none).runs[1]? = some (.ended (.inHand "call")) := by
  obtain ⟨-, hheld, hdeclined, -⟩ :=
    mutual_exclusion .empty twoJobs [⟨0, sampleAuditor, none⟩]
  have hworking : ((open_ .empty twoJobs).play [⟨0, sampleAuditor, none⟩]).Working 0 "call" :=
    ⟨_, rfl⟩
  have hguard := (hheld 0 "call" hworking).1
  obtain ⟨-, h⟩ := hdeclined 1 _ _ rfl rfl (by decide) hguard
  exact ⟨hguard, ((h sampleAuditor none).2 []).1⟩

end Desk

end CallAudit
