/-
CallAudit.Proofs.Store.Books — what every run from an empty jobs table
keeps.

`Books s₀ reaped s` relates the store `s₀` a run began with, the rows that
reaping has removed so far and the store `s` that was reached:

* rules, calls and recordings are those of the start, but for the
  watermarks of the rules;
* a watermark is the one of the start or the time of a reaped job of the
  rule, and no reaped job of the rule is after it (`Marked`);
* rows have numbers of their own, and no two rows are about one rule and
  one call;
* every row, reaped ones included, stems from a rule that was enabled and
  sought the call at the start (`Stems`).

A rule is given jobs as its enqueuer has read it, which may be some time
ago (`Listed`). Nothing in the books asks for more than that the watermark
it was read with is no older than the start, so they are kept by a stale
reading as well, and both the runs of whole passes and the runs of single
statements are built on them.
-/
import CallAudit.Proofs.Lists
import CallAudit.Proofs.Store.Chronicle

namespace CallAudit

open CallAudit.Time (Instant)

/-! ## A rule and its watermark -/

namespace RuleEntry

/-- A rule with another watermark. -/
def marked (e : RuleEntry) (w : Option Instant) : RuleEntry :=
  { e with watermark := w }

@[simp] theorem marked_id (e : RuleEntry) (w : Option Instant) : (e.marked w).id = e.id := rfl

end RuleEntry

namespace Store

/-- What is known of the watermark `w` of a rule that was `e` at the
start. -/
structure Marked (e : RuleEntry) (reaped : List Row) (w : Option Instant) : Prop where
  source : w = e.watermark ∨ ∃ k ∈ reaped, k.rule = e.id ∧ w = some k.storedAt
  kept : e.resumeAt ≤ (e.marked w).resumeAt
  covers : ∀ k ∈ reaped, k.rule = e.id → k.storedAt ≤ (e.marked w).resumeAt

/-- A row stems from a rule that was enabled and a call it sought. -/
def Stems (s₀ : Store) (j : Row) : Prop :=
  ∃ e c, s₀.Seeks e c j.storedAt ∧ e.enabled = true ∧ j.subject = (e.id, some c.id)

theorem Stems.congr {s₀ : Store} {j k : Row} (h : k.bare = j.bare) (hk : Stems s₀ k) :
    Stems s₀ j := by
  obtain ⟨e, c, hseeks, hen, hsub⟩ := hk
  exact ⟨e, c, Row.storedAt_eq_of_bare h ▸ hseeks, hen, Row.subject_eq_of_bare h ▸ hsub⟩

/-- A rule as an enqueuer has read it at some time since the start. -/
def Listed (s₀ : Store) (r : Rule) : Prop :=
  ∃ e ∈ s₀.rules, e.enabled = true ∧ ∃ w n, e.resumeAt ≤ (e.marked w).resumeAt
    ∧ r = (e.marked w).view n

/-- The books of a run that began with `s₀`. -/
structure Books (s₀ : Store) (reaped : List Row) (s : Store) : Prop where
  calls : s.calls = s₀.calls
  recordings : s.recordings = s₀.recordings
  rules : ∃ mark : Int → Option Instant,
    s.rules = s₀.rules.map (fun e => e.marked (mark e.id))
      ∧ ∀ e ∈ s₀.rules, Marked e reaped (mark e.id)
  below : ∀ j ∈ s.jobs, j.id < s.nextJob
  ids : (s.jobs.map (·.id)).Nodup
  subjects : (s.jobs.map Row.subject).Nodup
  stems : ∀ j ∈ s.jobs, Stems s₀ j
  gone : ∀ j ∈ reaped, Stems s₀ j ∧ isDone j = true

/-! ## Identifiers -/

theorem Keyed.rule_eq {s : Store} (keys : s.Keyed) {d e : RuleEntry} (hd : d ∈ s.rules)
    (he : e ∈ s.rules) (h : d.id = e.id) : d = e :=
  List.inj_on_of_nodup_map keys.rules hd he h

/-- A rule is found by its number. -/
theorem Keyed.find?_rule {s : Store} (keys : s.Keyed) {e : RuleEntry} (he : e ∈ s.rules) :
    s.rules.find? (·.id = e.id) = some e :=
  (find?_key keys.rules).mpr ⟨he, rfl⟩

theorem Keyed.call_eq {s : Store} (keys : s.Keyed) {b c : Call} (hb : b ∈ s.calls)
    (hc : c ∈ s.calls) (h : b.id = c.id) : b = c :=
  List.inj_on_of_nodup_map keys.calls hb hc h

/-- A row about a rule and a call stems from that rule and that call, so it
carries the time the call was stored at. -/
theorem Stems.seeks {s₀ : Store} (keys : s₀.Keyed) {j : Row} (h : Stems s₀ j) {e : RuleEntry}
    {c : Call} (he : e ∈ s₀.rules) (hc : c ∈ s₀.calls)
    (hsub : j.subject = (e.id, some c.id)) : s₀.Seeks e c j.storedAt := by
  obtain ⟨d, b, hseeks, -, hsub'⟩ := h
  rw [hsub, Prod.mk.injEq, Option.some.injEq] at hsub'
  have hde := keys.rule_eq hseeks.rule he hsub'.1.symm
  have hbc := keys.call_eq hseeks.call hc hsub'.2.symm
  rw [← hde, ← hbc]
  exact hseeks

theorem Stems.storedAt_eq {s₀ : Store} (keys : s₀.Keyed) {j : Row} (h : Stems s₀ j)
    {e : RuleEntry} {c : Call} (he : e ∈ s₀.rules) (hc : c ∈ s₀.calls)
    (hsub : j.subject = (e.id, some c.id)) {t : Instant} (stored : c.storedAt = some t) :
    j.storedAt = t :=
  Option.some.inj ((h.seeks keys he hc hsub).stored.symm.trans stored)

/-- A row of a rule is about a call that was stored after the point where
the rule resumed at the start. -/
theorem Stems.after {s₀ : Store} (keys : s₀.Keyed) {j : Row} (h : Stems s₀ j) {e : RuleEntry}
    (he : e ∈ s₀.rules) (hrule : j.rule = e.id) : e.resumeAt < j.storedAt := by
  obtain ⟨d, b, hseeks, -, hsub⟩ := h
  have hid : j.rule = d.id := congrArg Prod.fst hsub
  rw [← keys.rule_eq hseeks.rule he (hid.symm.trans hrule)]
  exact hseeks.after

namespace Books

variable {s₀ s : Store} {reaped : List Row}

/-- The rules that are stored are those of the start with other
watermarks. -/
theorem entry (h : Books s₀ reaped s) {d : RuleEntry} (hd : d ∈ s.rules) :
    ∃ e ∈ s₀.rules, ∃ w, d = e.marked w ∧ Marked e reaped w := by
  obtain ⟨mark, hrules, hmarked⟩ := h.rules
  rw [hrules] at hd
  obtain ⟨e, he, rfl⟩ := List.mem_map.mp hd
  exact ⟨e, he, _, rfl, hmarked e he⟩

/-- No rule of the start is lost. -/
theorem entry_of_start (h : Books s₀ reaped s) {e : RuleEntry} (he : e ∈ s₀.rules) :
    ∃ w, e.marked w ∈ s.rules ∧ Marked e reaped w := by
  obtain ⟨mark, hrules, hmarked⟩ := h.rules
  refine ⟨mark e.id, ?_, hmarked e he⟩
  rw [hrules]
  exact List.mem_map_of_mem he

theorem keyed (keys : s₀.Keyed) (h : Books s₀ reaped s) : s.Keyed := by
  obtain ⟨mark, hrules, -⟩ := h.rules
  refine ⟨?_, by rw [h.calls]; exact keys.calls⟩
  rw [hrules, List.map_map]
  exact keys.rules

/-- A rule as it is stored now has been read since the start. -/
theorem listed (h : Books s₀ reaped s) {d : RuleEntry} (hd : d ∈ s.rules)
    (hen : d.enabled = true) (n : Int) : Listed s₀ (d.view n) := by
  obtain ⟨e, he, w, rfl, hw⟩ := h.entry hd
  exact ⟨e, he, hen, w, n, hw.kept, rfl⟩

theorem recordingOf?_eq (h : Books s₀ reaped s) (c : Call) :
    s.recordingOf? c = s₀.recordingOf? c := by
  simp only [recordingOf?, h.recordings]

/-- A call that a rule seeks and that has no row is wanted, if it was stored
after the point the rule was read with. -/
theorem wanted?_of_seeks (h : Books s₀ reaped s) {e : RuleEntry} {c : Call} {t : Instant}
    (hseeks : s₀.Seeks e c t) {w : Option Instant} (n : Int)
    (hlt : (e.marked w).resumeAt < t) (hno : s.hasJob e.id c.id = false) :
    ∃ f, s.wanted? ((e.marked w).view n) c = some ⟨c, t, f⟩ := by
  obtain ⟨f, hf⟩ := Option.isSome_iff_exists.mp hseeks.recorded
  refine ⟨f, wanted?_eq_some.mpr ⟨rfl, hseeks.stored, ?_, hseeks.passes, hlt, hno⟩⟩
  rw [h.recordingOf?_eq]
  exact hf

/-- What is wanted of a rule that was read since the start is a call that
the rule sought then. -/
theorem seeks_of_wanted? (h : Books s₀ reaped s) {e : RuleEntry} (he : e ∈ s₀.rules)
    {w : Option Instant} {n : Int} (hle : e.resumeAt ≤ (e.marked w).resumeAt) {v : Wanted}
    (hv : v ∈ s.backlog ((e.marked w).view n)) :
    s₀.Seeks e v.call v.storedAt ∧ (e.marked w).resumeAt < v.storedAt
      ∧ s.hasJob e.id v.call.id = false := by
  obtain ⟨hc, hwant⟩ := wanted_of_mem_backlog hv
  obtain ⟨-, hst, hrec, hpass, hlt, hno⟩ := wanted?_eq_some.mp hwant
  rw [h.recordingOf?_eq] at hrec
  rw [h.calls] at hc
  have hrec' : (s₀.recordingOf? v.call).isSome = true := by rw [hrec]; rfl
  exact ⟨⟨he, hc, hpass, hrec', hst, Instant.lt_of_le_of_lt hle hlt⟩, hlt, hno⟩

/-! ## What keeps the books -/

/-- An empty jobs table has its books in order. -/
theorem start (keys : s₀.Keyed) (empty : s₀.jobs = []) : Books s₀ [] s₀ := by
  -- the table of the watermarks as they are
  let mark (id : Int) : Option Instant := (s₀.rules.find? (·.id = id)).bind (·.watermark)
  have hmark : ∀ e ∈ s₀.rules, mark e.id = e.watermark := by
    intro e he
    simp only [mark, keys.find?_rule he]
    rfl
  refine
    { calls := rfl, recordings := rfl, rules := ⟨mark, ?_, ?_⟩
      below := by simp [empty], ids := by simp [empty], subjects := by simp [empty]
      stems := by simp [empty], gone := by simp }
  · symm
    calc s₀.rules.map (fun e => e.marked (mark e.id))
        = s₀.rules.map id := List.map_congr_left fun e he => by rw [hmark e he]; rfl
      _ = s₀.rules := List.map_id _
  · intro e he
    rw [hmark e he]
    exact ⟨Or.inl rfl, Int.le_refl _, by simp⟩

/-- Rows may change their states or go, and numbers may be used up. -/
theorem of_sublist (h : Books s₀ reaped s) {s' : Store}
    (hrules : s'.rules = s.rules) (hcalls : s'.calls = s.calls)
    (hrecs : s'.recordings = s.recordings) (hnext : s.nextJob ≤ s'.nextJob)
    (hjobs : (s'.jobs.map Row.bare).Sublist (s.jobs.map Row.bare)) : Books s₀ reaped s' := by
  -- every row that is left was there before, in some state
  have back : ∀ j ∈ s'.jobs, ∃ k ∈ s.jobs, k.bare = j.bare := fun j hj =>
    List.mem_map.mp (hjobs.subset (List.mem_map_of_mem hj))
  refine
    { calls := by rw [hcalls, h.calls], recordings := by rw [hrecs, h.recordings]
      rules := by rw [hrules]; exact h.rules
      below := ?_, ids := ?_, subjects := ?_, stems := ?_, gone := h.gone }
  · intro j hj
    obtain ⟨k, hk, hkj⟩ := back j hj
    have hid := Row.id_eq_of_bare hkj
    have hlt := h.below k hk
    omega
  · have hsub := hjobs.map (·.id)
    simp only [List.map_map, Function.comp_def, Row.bare_id] at hsub
    exact hsub.nodup h.ids
  · have hsub := hjobs.map Row.subject
    simp only [List.map_map, Function.comp_def, Row.bare_subject] at hsub
    exact hsub.nodup h.subjects
  · intro j hj
    obtain ⟨k, hk, hkj⟩ := back j hj
    exact (h.stems k hk).congr hkj

/-- A new row of a rule is about a call in its backlog: one that the rule
sought at the start, is ahead of it and has no row yet. -/
theorem fresh (h : Books s₀ reaped s) {e : RuleEntry} (he : e ∈ s₀.rules) {w : Option Instant}
    {n limit : Int} (hle : e.resumeAt ≤ (e.marked w).resumeAt) {j : Row}
    (hj : j ∈ s.newRows ((e.marked w).view n) limit) :
    ∃ v ∈ s.chosen ((e.marked w).view n) limit, j.subject = (e.id, some v.call.id)
      ∧ s₀.Seeks e v.call j.storedAt ∧ (e.marked w).resumeAt < j.storedAt
      ∧ j.storedAt = v.storedAt ∧ s.hasJob e.id v.call.id = false := by
  obtain ⟨v, hv, hsub, ht⟩ := subject_newRows.mp ⟨j, hj, rfl, rfl⟩
  obtain ⟨hseeks, hlt, hno⟩ := h.seeks_of_wanted? he hle (mem_backlog_of_mem_chosen hv)
  exact ⟨v, hv, hsub.symm, ht ▸ hseeks, ht ▸ hlt, ht.symm, hno⟩

/-- Jobs are given to a rule as it was read. -/
theorem enqueueFor (keys : s₀.Keyed) (h : Books s₀ reaped s) {r : Rule} (hr : Listed s₀ r)
    (limit : Int) : Books s₀ reaped (s.enqueueFor r limit).1 := by
  obtain ⟨e, he, hen, w, n, hle, rfl⟩ := hr
  rw [enqueueFor_fst]
  refine
    { calls := h.calls, recordings := h.recordings, rules := h.rules
      below := ?_, ids := ?_, subjects := ?_, stems := ?_, gone := h.gone }
  · intro j hj
    simp only
    rcases List.mem_append.mp hj with hj | hj
    · have := h.below j hj
      omega
    · exact (id_newRows hj).2
  · simp only [List.map_append]
    refine List.nodup_append.mpr ⟨h.ids, nodup_id_rowsFor _ _ _ _, ?_⟩
    intro a ha b hb
    obtain ⟨j, hj, rfl⟩ := List.mem_map.mp ha
    obtain ⟨k, hk, rfl⟩ := List.mem_map.mp hb
    have hlt := h.below j hj
    have hge := (id_newRows hk).1
    omega
  · simp only [List.map_append]
    refine List.nodup_append.mpr ⟨h.subjects, nodup_subject_newRows (h.keyed keys) _ limit, ?_⟩
    intro a ha b hb
    obtain ⟨j, hj, rfl⟩ := List.mem_map.mp ha
    obtain ⟨k, hk, rfl⟩ := List.mem_map.mp hb
    obtain ⟨v, -, hsub, -, -, -, hno⟩ := h.fresh he hle hk
    rw [hsub]
    exact hasJob_eq_false_iff.mp hno j hj
  · intro j hj
    rcases List.mem_append.mp hj with hj | hj
    · exact h.stems j hj
    · obtain ⟨v, -, hsub, hseeks, -⟩ := h.fresh he hle hj
      exact ⟨e, v.call, hseeks, hen, hsub⟩

end Books

/-- A rule never resumes earlier than before: where it had no watermark, the
new one is the time of a job, and those are after its start. -/
theorem Marked.resumeAt_le {s₀ s : Store} {reaped : List Row} (keys : s₀.Keyed)
    {e : RuleEntry} (he : e ∈ s₀.rules) {w : Option Instant} (h : Marked e reaped w)
    (stems : ∀ j ∈ s.jobs, Stems s₀ j) :
    (e.marked w).resumeAt ≤ (e.marked (s.movedMark e.id w)).resumeAt := by
  cases w with
  | some w =>
    obtain ⟨w', hw', hle⟩ := s.le_movedMark e.id w
    rw [hw']
    exact hle
  | none =>
    have hnone : e.watermark = none := by
      rcases h.source with hw | ⟨_, _, _, hw⟩
      · exact hw.symm
      · cases hw
    rcases s.movedMark_source e.id none with hw | ⟨j, hj, -, hrule, hw⟩
    · rw [hw]
      exact Int.le_refl _
    · rw [hw]
      have hlt := (stems j hj).after keys he hrule
      rw [RuleEntry.resumeAt, hnone] at hlt
      exact Instant.le_of_lt hlt

theorem Marked.reap {s₀ s : Store} {reaped : List Row} (keys : s₀.Keyed)
    {e : RuleEntry} (he : e ∈ s₀.rules) {w : Option Instant} (h : Marked e reaped w)
    (stems : ∀ j ∈ s.jobs, Stems s₀ j) :
    Marked e (reaped ++ s.jobs.filter isDone) (s.movedMark e.id w) := by
  have hmono := h.resumeAt_le keys he stems
  refine ⟨?_, Instant.le_trans h.kept hmono, ?_⟩
  · rcases s.movedMark_source e.id w with hw | ⟨j, hj, hdone, hrule, hw⟩
    · rw [hw]
      rcases h.source with hs | ⟨k, hk, hk'⟩
      · exact Or.inl hs
      · exact Or.inr ⟨k, List.mem_append_left _ hk, hk'⟩
    · exact Or.inr ⟨j, List.mem_append_right _ (List.mem_filter.mpr ⟨hj, hdone⟩), hrule, hw⟩
  · intro k hk hrule
    rcases List.mem_append.mp hk with hk | hk
    · exact Instant.le_trans (h.covers k hk hrule) hmono
    · obtain ⟨hk, hdone⟩ := List.mem_filter.mp hk
      obtain ⟨w', hw', hle⟩ := done_le_movedMark hk hdone hrule w
      rw [hw']
      exact hle

namespace Books

variable {s₀ s : Store} {reaped : List Row}

/-- Jobs that are done are reaped. -/
theorem reap (keys : s₀.Keyed) (h : Books s₀ reaped s) :
    Books s₀ (reaped ++ s.jobs.filter isDone) s.reap.1 := by
  have hleft : Books s₀ reaped { s with jobs := s.jobs.filter fun j => !isDone j } :=
    h.of_sublist rfl rfl rfl (Int.le_refl _) (List.filter_sublist.map Row.bare)
  obtain ⟨mark, hrules, hmarked⟩ := h.rules
  refine
    { calls := h.calls, recordings := h.recordings
      rules := ⟨fun id => s.movedMark id (mark id), ?_, ?_⟩
      below := hleft.below, ids := hleft.ids, subjects := hleft.subjects
      stems := hleft.stems, gone := ?_ }
  · rw [reap_rules, hrules, List.map_map]
    rfl
  · exact fun e he => (hmarked e he).reap keys he h.stems
  · intro j hj
    rcases List.mem_append.mp hj with hj | hj
    · exact h.gone j hj
    · obtain ⟨hj, hdone⟩ := List.mem_filter.mp hj
      exact ⟨h.stems j hj, hdone⟩

/-- What a rule that was read since the start is given a job for: a call it
sought then, stored after the point it was read with and without a row. -/
theorem gives (keys : s₀.Keyed) (h : Books s₀ reaped s) {e : RuleEntry} (he : e ∈ s₀.rules)
    (hen : e.enabled = true) {w : Option Instant} {n : Int}
    (hle : e.resumeAt ≤ (e.marked w).resumeAt) {c : Call} (hc : c ∈ s₀.calls) {limit : Int}
    (hgives : s.Gives ((e.marked w).view n) limit c.id) :
    ∃ t, s₀.Seeks e c t ∧ (e.marked w).resumeAt < t ∧ s.hasJob e.id c.id = false := by
  have hids := (h.enqueueFor keys ⟨e, he, hen, w, n, hle, rfl⟩ limit).ids
  obtain ⟨v, hv, hid⟩ := (gives_iff hids).mp hgives
  obtain ⟨hseeks, hlt, hno⟩ := h.seeks_of_wanted? he hle (mem_backlog_of_mem_chosen hv)
  have hvc : v.call = c := keys.call_eq hseeks.call hc hid
  exact ⟨v.storedAt, hvc ▸ hseeks, hlt, hvc ▸ hno⟩

/-- With room for all it wants, a rule is given a job for every call of that
kind. -/
theorem gives_of_room (keys : s₀.Keyed) (h : Books s₀ reaped s) {e : RuleEntry}
    (hen : e.enabled = true) {w : Option Instant} {n : Int}
    (hle : e.resumeAt ≤ (e.marked w).resumeAt) {c : Call} {t : Instant}
    (hseeks : s₀.Seeks e c t) (hlt : (e.marked w).resumeAt < t)
    (hno : s.hasJob e.id c.id = false) {limit : Int}
    (room : (s.backlog ((e.marked w).view n)).length ≤ limit) :
    s.Gives ((e.marked w).view n) limit c.id := by
  have hids := (h.enqueueFor keys ⟨e, hseeks.rule, hen, w, n, hle, rfl⟩ limit).ids
  obtain ⟨f, hf⟩ := h.wanted?_of_seeks hseeks n hlt hno
  refine (gives_iff hids).mpr ⟨⟨c, t, f⟩, ?_, rfl⟩
  rw [chosen_eq_backlog room]
  exact mem_backlog.mpr ⟨c, h.calls ▸ hseeks.call, hf⟩

theorem claim (h : Books s₀ reaped s) (batch : Int) : Books s₀ reaped (s.claim batch).1 :=
  h.of_sublist rfl rfl rfl (Int.le_refl _) (by rw [claim_bare])

theorem markDone (h : Books s₀ reaped s) (job : Int) : Books s₀ reaped (s.markDone job).1 :=
  h.of_sublist rfl rfl rfl (Int.le_refl _) (by rw [markDone_bare])

theorem release (h : Books s₀ reaped s) (job : Int) : Books s₀ reaped (s.release job).1 :=
  h.of_sublist rfl rfl rfl (Int.le_refl _) (List.filter_sublist.map Row.bare)

theorem discardAll (h : Books s₀ reaped s) : Books s₀ reaped s.discardAll :=
  h.of_sublist rfl rfl rfl (Int.le_refl _) (List.nil_sublist _)

theorem number (h : Books s₀ reaped s) :
    Books s₀ reaped { s with nextJob := s.nextJob + 1 } :=
  h.of_sublist rfl rfl rfl (by simp only; omega) (List.Sublist.refl _)

end Books

/-- A call with a row is still ahead of its rule exactly if no job of the
rule was reaped whose call was stored then or later. -/
theorem Marked.resumeAt_lt_iff {s₀ : Store} {reaped : List Row} (keys : s₀.Keyed)
    {e : RuleEntry} (he : e ∈ s₀.rules) {w : Option Instant} (h : Marked e reaped w) {j : Row}
    (stems : Stems s₀ j) (hrule : j.rule = e.id) :
    (e.marked w).resumeAt < j.storedAt ↔
      ¬ ∃ k ∈ reaped, k.rule = e.id ∧ j.storedAt ≤ k.storedAt := by
  constructor
  · rintro hlt ⟨k, hk, hkr, hle⟩
    exact Instant.not_lt_iff_le.mpr (Instant.le_trans hle (h.covers k hk hkr)) hlt
  · intro hnone
    rcases h.source with rfl | ⟨k, hk, hkr, rfl⟩
    · exact stems.after keys he hrule
    · by_contra hpast
      exact hnone ⟨k, hk, hkr, Instant.not_lt_iff_le.mp hpast⟩

/-! ## Two small stores -/

/-- The only rule of the small stores. -/
def soleRule : RuleEntry :=
  { (default : RuleEntry) with
    id := 1, domain := 1, enabled := true, start := ⟨0⟩, direction := some " inbound " }

/-- A call it seeks. -/
def olderCall : Call :=
  { (default : Call) with
    id := "older", domain := 1, storedAt := some ⟨10⟩, direction := some "inbound"
    talkSeconds := 60 }

/-- A call it seeks that was stored later. -/
def newerCall : Call :=
  { olderCall with id := "newer", storedAt := some ⟨20⟩ }

def twoCalls : Store where
  rules := [soleRule]
  calls := [olderCall, newerCall]
  recordings := [⟨1, 1, "older"⟩, ⟨2, 1, "newer"⟩]

def oneCall : Store :=
  { twoCalls with calls := [olderCall] }

theorem twoCalls_keyed : twoCalls.Keyed := ⟨by decide, by decide⟩

theorem oneCall_keyed : oneCall.Keyed := ⟨by decide, by decide⟩

end Store

/-! ## Whole runs -/

namespace Chronicle

open Store

/-- An operation keeps the books. -/
theorem books_next {s₀ : Store} (keys : s₀.Keyed) {h : Chronicle}
    (books : Books s₀ h.reaped h.store) (op : Operation) :
    Books s₀ (h.next op).reaped (h.next op).store := by
  have heffect := h.connection.perform_effect op
  simp only [next, store]
  generalize (h.connection.perform op).store = s at heffect ⊢
  cases heffect with
  | fails =>
    rw [departures_self, ite_self, List.append_nil]
    exact books
  | pass hpass =>
    simp only [reduceCtorEq, if_false, List.append_nil]
    -- along the pass the rules are those that were listed, so each was read since the start
    induction hpass with
    | start => exact books
    | jobs r limit _ hr ih =>
      obtain ⟨e, he, hen, rfl⟩ := mem_runnable hr
      exact ih.enqueueFor keys (books.listed he hen _) limit
    | number _ ih => exact ih.number
  | reap =>
    rw [if_pos rfl, departures_reap books.ids]
    exact books.reap keys
  | claim batch => simpa using books.claim batch
  | markDone job => simpa using books.markDone job
  | release job => simpa using books.release job
  | discardAll => simpa using books.discardAll

/-- The books are in order at the end of every run from an empty jobs
table. -/
theorem books_of {c : Connection} (keys : c.store.Keyed) (empty : c.store.jobs = [])
    (ops : List Operation) : Books c.store (of c ops).reaped (of c ops).store :=
  of_induction (motive := fun h => Books c.store h.reaped h.store)
    (Books.start keys empty) fun _ op _ books => books_next keys books op

end Chronicle

end CallAudit
