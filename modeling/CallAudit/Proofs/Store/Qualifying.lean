/-
CallAudit.Proofs.Store.Qualifying — the calls that a rule may be given jobs
for, said without the statement that looks for them.

* `Suits`, `Qualifies` — a call suits a rule, and qualifies for it: the
  conditions one by one, as they are asked of the tables. The statement
  checks them in passing while it builds what it needs of a call
  (`wanted?`); `eligible_iff` says that it checks these and no others.
* `mem_backlog_view`, `exists_mem_backlog` — the backlog of a rule holds the
  calls that qualify, each with the time it was stored at.
* `countP_backlog`, `length_backlog` — so it may be counted by the calls,
  and where a limit falls is a matter of how many qualify up to a moment.
-/
import CallAudit.Proofs.Json.Stored
import CallAudit.Proofs.Store.Books

namespace CallAudit

open CallAudit.Json (Stored)
open CallAudit.Time (Instant)

namespace Store

/-- A call suits a rule, whatever the time it was stored at. -/
structure Suits (s : Store) (e : RuleEntry) (c : Call) : Prop where
  domain : c.domain = e.domain
  top : c.parent = none
  long : e.minDuration < c.talkSeconds
  /-- It has the direction the rule asks for, if the rule asks for one. -/
  direction : ∀ d ∈ e.direction.bind Text.nonBlank, c.direction = some d
  /-- It does not have the field that marks a call as audited. -/
  unmarked : ∀ name ∈ e.target.bind Text.nonBlank, ∀ members,
    c.payload = some (.object members) → name ∉ members.map Prod.fst
  recorded : ∃ f ∈ s.recordings, f.domain = c.domain ∧ f.call = c.id
  /-- No row of the rule, at whatever state, names it as a member of its
  parameters. -/
  free : ∀ j ∈ s.jobs, j.subject ≠ (e.id, some c.id)

/-- A call qualifies for a rule: it suits the rule and was stored after the
point where the rule resumes. -/
structure Qualifies (s : Store) (e : RuleEntry) (c : Call) : Prop extends Suits s e c where
  after : ∃ t ∈ c.storedAt, e.resumeAt < t

theorem hasField_eq_false {c : Call} {name : String} :
    hasField c name = false ↔
      ∀ members, c.payload = some (.object members) → name ∉ members.map Prod.fst := by
  rw [hasField, Option.isSome_eq_false_iff, Option.isNone_iff_eq_none]
  cases c.payload with
  | none => simp
  | some v => simpa only [Option.bind_some, Option.some.injEq] using Stored.get?_eq_none

theorem passes_view {e : RuleEntry} {n : Int} {c : Call} :
    passes (e.view n) c = true ↔
      c.domain = e.domain ∧ c.parent = none ∧ e.minDuration < c.talkSeconds
        ∧ (∀ d ∈ e.direction.bind Text.nonBlank, c.direction = some d)
        ∧ ∀ name ∈ e.target.bind Text.nonBlank, ∀ members,
            c.payload = some (.object members) → name ∉ members.map Prod.fst := by
  simp only [← hasField_eq_false, passes, Bool.and_eq_true, decide_eq_true_iff,
    Option.isNone_iff_eq_none, Option.all_eq_true, Bool.not_eq_true', and_assoc]
  rfl

theorem recordingOf?_isSome {s : Store} {c : Call} :
    (s.recordingOf? c).isSome = true ↔ ∃ f ∈ s.recordings, f.domain = c.domain ∧ f.call = c.id := by
  simp [recordingOf?]

/-- The statement checks of a call what it is to qualify, and nothing
else. -/
theorem eligible_iff {s : Store} {e : RuleEntry} {n : Int} {c : Call} :
    s.eligible (e.view n) c = true ↔ s.Qualifies e c := by
  rw [eligible, Option.isSome_iff_exists]
  constructor
  · rintro ⟨w, hw⟩
    obtain ⟨-, hstored, hrecorded, hpasses, hlt, hno⟩ := wanted?_eq_some.mp hw
    obtain ⟨hdomain, htop, hlong, hdirection, hunmarked⟩ := passes_view.mp hpasses
    have hfound : (s.recordingOf? c).isSome = true := by rw [hrecorded]; rfl
    exact
      { domain := hdomain, top := htop, long := hlong, direction := hdirection
        unmarked := hunmarked, recorded := recordingOf?_isSome.mp hfound
        free := hasJob_eq_false_iff.mp hno, after := ⟨_, hstored, hlt⟩ }
  · intro h
    obtain ⟨t, ht, hlt⟩ := h.after
    obtain ⟨f, hf⟩ := Option.isSome_iff_exists.mp (recordingOf?_isSome.mpr h.recorded)
    exact ⟨⟨c, t, f⟩, wanted?_eq_some.mpr ⟨rfl, ht, hf,
      passes_view.mpr ⟨h.domain, h.top, h.long, h.direction, h.unmarked⟩, hlt,
      hasJob_eq_false_iff.mpr h.free⟩⟩

instance (s : Store) (e : RuleEntry) (c : Call) : Decidable (s.Qualifies e c) :=
  decidable_of_iff (s.eligible (e.view 0) c = true) eligible_iff

/-- With another watermark, a rule has the calls qualify that suit it and
were stored after that. -/
theorem qualifies_marked_iff {s : Store} {e : RuleEntry} {w : Option Instant} {c : Call}
    {t : Instant} (stored : c.storedAt = some t) :
    s.Qualifies (e.marked w) c ↔ s.Suits e c ∧ (e.marked w).resumeAt < t := by
  constructor
  · intro h
    obtain ⟨u, hu, hlt⟩ := h.after
    rw [Option.some.inj (hu.symm.trans stored)] at hlt
    exact ⟨{ h with }, hlt⟩
  · rintro ⟨hsuits, hlt⟩
    exact { hsuits with after := ⟨t, stored, hlt⟩ }

/-! ## The backlog -/

theorem mem_backlog_view {s : Store} {e : RuleEntry} {n : Int} {w : Wanted}
    (h : w ∈ s.backlog (e.view n)) :
    w.call ∈ s.calls ∧ s.Qualifies e w.call ∧ w.call.storedAt = some w.storedAt := by
  obtain ⟨hc, hw⟩ := wanted_of_mem_backlog h
  obtain ⟨-, hstored, -⟩ := wanted?_eq_some.mp hw
  exact ⟨hc, eligible_iff.mp (by rw [eligible, hw]; rfl), hstored⟩

theorem exists_mem_backlog {s : Store} {e : RuleEntry} (n : Int) {c : Call} (hc : c ∈ s.calls)
    (h : s.Qualifies e c) :
    ∃ w ∈ s.backlog (e.view n), w.call = c ∧ c.storedAt = some w.storedAt := by
  obtain ⟨w, hw⟩ := Option.isSome_iff_exists.mp (eligible_iff (n := n).mpr h)
  obtain ⟨hcall, hstored, -⟩ := wanted?_eq_some.mp hw
  exact ⟨w, mem_backlog.mpr ⟨c, hc, hw⟩, hcall, hstored⟩

/-- The backlog is counted by the calls that qualify. -/
theorem countP_backlog (s : Store) (e : RuleEntry) (n : Int) (p : Instant → Bool) :
    (s.backlog (e.view n)).countP (fun w => p w.storedAt)
      = s.calls.countP fun c => s.Qualifies e c ∧ c.storedAt.any p := by
  rw [backlog, (List.mergeSort_perm _ _).countP_eq, List.countP_filterMap]
  refine List.countP_congr fun c _ => ?_
  have hqualifies := eligible_iff (s := s) (e := e) (n := n) (c := c)
  rw [eligible] at hqualifies
  rw [decide_eq_true_iff, ← hqualifies]
  cases hw : s.wanted? (e.view n) c with
  | none => simp
  | some w =>
    obtain ⟨-, hstored, -⟩ := wanted?_eq_some.mp hw
    simp [hstored]

theorem length_backlog (s : Store) (e : RuleEntry) (n : Int) :
    (s.backlog (e.view n)).length = s.calls.countP fun c => s.Qualifies e c := by
  have hcount := s.countP_backlog e n fun _ => true
  rw [List.countP_true] at hcount
  rw [hcount]
  refine List.countP_congr fun c _ => ?_
  simp only [decide_eq_true_iff, and_iff_left_iff_imp]
  intro h
  obtain ⟨t, ht, -⟩ := h.after
  rw [Option.mem_def.mp ht]
  rfl

end Store

end CallAudit
