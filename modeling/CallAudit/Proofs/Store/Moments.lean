/-
CallAudit.Proofs.Store.Moments — calls that were stored at one moment, and a
limit that falls among them.

A rule resumes strictly after its watermark, so a watermark says of all the
calls of its moment that they are covered. A limit counts calls and does not
look at moments. Both fit together exactly if the calls that are given jobs
are all that qualify up to a moment.

* `Whole` — with a call, all that qualify and were stored no later are given
  jobs.
* `SplitAt` — the limit is reached within a moment. It is told by two
  counts: how many calls qualify before the moment, and how many up to it.
* `whole_iff` — jobs for a rule are whole exactly if the limit splits no
  moment, and exactly then the watermark may be moved to any of the calls
  and nothing is lost. What is lost otherwise was stored at the very moment
  the watermark is moved to.
-/
import CallAudit.Proofs.Store.Draining
import CallAudit.Proofs.Store.Qualifying
import Mathlib.Data.List.Count

namespace CallAudit

open CallAudit.Time (Instant)

namespace Store

/-! ## Where a limit falls -/

/-- Where a call within the limit was stored no earlier than one beyond it,
the limit is reached within their moment. -/
theorem countP_of_left_out {ws : List Wanted}
    (sorted : ws.Pairwise fun a b => a.storedAt ≤ b.storedAt) {n : Nat} {w v : Wanted}
    (hw : w ∈ ws.take n) (hv : v ∈ ws.drop n) (hle : v.storedAt ≤ w.storedAt) :
    ws.countP (fun u => u.storedAt < w.storedAt) < n
      ∧ n < ws.countP fun u => u.storedAt ≤ w.storedAt := by
  rw [← List.take_append_drop n ws] at sorted
  have hacross := (List.pairwise_append.mp sorted).2.2
  have hlength : (ws.take n).length = n := by
    have hbeyond := List.length_pos_of_mem hv
    rw [List.length_drop] at hbeyond
    rw [List.length_take]
    omega
  have hbefore : (ws.drop n).countP (fun u => u.storedAt < w.storedAt) = 0 := by
    rw [List.countP_eq_zero]
    intro u hu
    simpa using Instant.not_lt_iff_le.mpr (hacross w hw u hu)
  have hwithin : (ws.take n).countP (fun u => u.storedAt < w.storedAt) < (ws.take n).length :=
    List.countP_lt_length_iff.mpr ⟨w, hw, by simp [Instant.lt_iff_ticks]⟩
  have hall : (ws.take n).countP (fun u => u.storedAt ≤ w.storedAt) = (ws.take n).length := by
    rw [List.countP_eq_length]
    intro u hu
    simpa using Instant.le_trans (hacross u hu v hv) hle
  have hone : 0 < (ws.drop n).countP fun u => u.storedAt ≤ w.storedAt :=
    List.countP_pos_iff.mpr ⟨v, hv, by simpa using hle⟩
  rw [← List.take_append_drop n ws, List.countP_append, List.countP_append]
  omega

/-- Where the limit is reached within a moment, a call beyond it was stored
no later than one within. -/
theorem left_out_of_countP {ws : List Wanted} {n : Nat} {t : Instant}
    (hlo : ws.countP (fun u => u.storedAt < t) < n)
    (hhi : n < ws.countP fun u => u.storedAt ≤ t) :
    ∃ w ∈ ws.take n, ∃ v ∈ ws.drop n, v.storedAt ≤ w.storedAt := by
  have hlength : (ws.take n).length = n := by
    have hcount := List.countP_le_length (p := fun u : Wanted => decide (u.storedAt ≤ t)) (l := ws)
    rw [List.length_take]
    omega
  obtain ⟨w, hw, hlate⟩ : ∃ w ∈ ws.take n, decide (w.storedAt < t) = false := by
    rw [← List.countP_lt_length_iff, hlength]
    exact Nat.lt_of_le_of_lt ((List.take_sublist n ws).countP_le) hlo
  obtain ⟨v, hv, hearly⟩ : ∃ v ∈ ws.drop n, decide (v.storedAt ≤ t) = true := by
    rw [← List.countP_pos_iff]
    have hwithin := List.countP_le_length (p := fun u : Wanted => decide (u.storedAt ≤ t))
      (l := ws.take n)
    rw [← List.take_append_drop n ws, List.countP_append] at hhi
    omega
  rw [decide_eq_false_iff_not, Instant.not_lt_iff_le] at hlate
  exact ⟨w, hw, v, hv, Instant.le_trans (of_decide_eq_true hearly) hlate⟩

/-! ## Calls that are given jobs -/

/-- A call is in the backlog once. -/
theorem eq_of_mem_backlog {s : Store} {r : Rule} {v w : Wanted} (hv : v ∈ s.backlog r)
    (hw : w ∈ s.backlog r) (h : v.call = w.call) : v = w := by
  have hwanted := (wanted_of_mem_backlog hv).2
  rw [h, (wanted_of_mem_backlog hw).2] at hwanted
  exact (Option.some.inj hwanted).symm

theorem gives_call_iff {s : Store} (keys : s.Keyed) (numbered : s.Numbered) {e : RuleEntry}
    {n limit : Int} {c : Call} (hc : c ∈ s.calls) :
    s.Gives (e.view n) limit c.id ↔ ∃ w ∈ s.chosen (e.view n) limit, w.call = c := by
  rw [gives_iff (numbered.enqueueFor _ limit).distinct]
  constructor
  · rintro ⟨w, hw, hid⟩
    exact ⟨w, hw, keys.call_eq (mem_backlog_view (mem_backlog_of_mem_chosen hw)).1 hc hid⟩
  · rintro ⟨w, hw, rfl⟩
    exact ⟨w, hw, rfl⟩

/-- A call that qualifies and is left out was stored no earlier than any
that is given a job. -/
theorem le_of_not_gives {s : Store} (keys : s.Keyed) (numbered : s.Numbered) {e : RuleEntry}
    {n limit : Int} {c d : Call} (hc : c ∈ s.calls) (hgives : s.Gives (e.view n) limit c.id)
    (hd : d ∈ s.calls) (hqualifies : s.Qualifies e d)
    (hleft : ¬ s.Gives (e.view n) limit d.id) : ∀ t ∈ c.storedAt, ∀ u ∈ d.storedAt, t ≤ u := by
  intro t ht u hu
  obtain ⟨w, hw, rfl⟩ := (gives_call_iff keys numbered hc).mp hgives
  obtain ⟨v, hv, rfl, hstored⟩ := exists_mem_backlog n hd hqualifies
  have hwt := (mem_backlog_view (mem_backlog_of_mem_chosen hw)).2.2
  obtain rfl : w.storedAt = t := Option.some.inj (hwt.symm.trans ht)
  obtain rfl : v.storedAt = u := Option.some.inj (hstored.symm.trans hu)
  rw [← Instant.not_lt_iff_le]
  intro hlt
  exact hleft ((gives_call_iff keys numbered hd).mpr ⟨v, mem_chosen_of_lt hw hv hlt, rfl⟩)

/-! ## Moments that are kept together -/

/-- With every call that is given a job, all that qualify and were stored no
later are given jobs. -/
def Whole (s : Store) (e : RuleEntry) (n limit : Int) : Prop :=
  ∀ c ∈ s.calls, s.Gives (e.view n) limit c.id → ∀ d ∈ s.calls, s.Qualifies e d →
    (∀ t ∈ c.storedAt, ∀ u ∈ d.storedAt, u ≤ t) → s.Gives (e.view n) limit d.id

/-- More calls qualify up to a moment than the limit lets through, and fewer
before it. -/
def SplitAt (s : Store) (e : RuleEntry) (limit : Int) (t : Instant) : Prop :=
  (s.calls.countP fun c => s.Qualifies e c ∧ c.storedAt.any (· < t) : Int) < limit
    ∧ limit < (s.calls.countP fun c => s.Qualifies e c ∧ c.storedAt.any (· ≤ t) : Int)

theorem splitAt_iff {s : Store} {e : RuleEntry} (n : Int) {limit : Int} {t : Instant} :
    s.SplitAt e limit t ↔
      (s.backlog (e.view n)).countP (fun w => w.storedAt < t) < limit.toNat
        ∧ limit.toNat < (s.backlog (e.view n)).countP fun w => w.storedAt ≤ t := by
  rw [SplitAt, ← s.countP_backlog e n (fun u => decide (u < t)),
    ← s.countP_backlog e n (fun u => decide (u ≤ t))]
  omega

/-- Jobs for a rule are whole exactly if the limit splits no moment. -/
theorem whole_iff_not_splitAt {s : Store} (keys : s.Keyed) (numbered : s.Numbered)
    {e : RuleEntry} {n limit : Int} :
    s.Whole e n limit ↔ ∀ t, ¬ s.SplitAt e limit t := by
  constructor
  · intro whole t hsplit
    obtain ⟨hlo, hhi⟩ := (splitAt_iff n).mp hsplit
    obtain ⟨w, hw, v, hv, hle⟩ := left_out_of_countP hlo hhi
    have hvb := List.mem_of_mem_drop hv
    obtain ⟨hwc, -, hwt⟩ := mem_backlog_view (List.mem_of_mem_take hw)
    obtain ⟨hvc, hqualifies, hvt⟩ := mem_backlog_view hvb
    have hgives : s.Gives (e.view n) limit v.call.id :=
      whole w.call hwc ((gives_call_iff keys numbered hwc).mpr ⟨w, hw, rfl⟩) v.call hvc hqualifies
        fun t ht u hu => by
          rwa [← Option.some.inj (hwt.symm.trans ht), ← Option.some.inj (hvt.symm.trans hu)]
    -- the call beyond the limit is within it as well, but it is in the backlog once
    obtain ⟨v', hv', hcall⟩ := (gives_call_iff keys numbered hvc).mp hgives
    obtain rfl := eq_of_mem_backlog (mem_backlog_of_mem_chosen hv') hvb hcall
    exact List.disjoint_take_drop (nodup_backlog keys _).of_map (Nat.le_refl _) hv' hv
  · intro hnone c hc hgives d hd hqualifies hle
    obtain ⟨w, hw, rfl⟩ := (gives_call_iff keys numbered hc).mp hgives
    obtain ⟨v, hv, rfl, hstored⟩ := exists_mem_backlog n hd hqualifies
    have hwt := (mem_backlog_view (mem_backlog_of_mem_chosen hw)).2.2
    have hvw : v.storedAt ≤ w.storedAt := hle _ hwt _ hstored
    rw [← List.take_append_drop limit.toNat (s.backlog (e.view n))] at hv
    rcases List.mem_append.mp hv with hv | hv
    · exact (gives_call_iff keys numbered hd).mpr ⟨v, hv, rfl⟩
    · have hcounts := countP_of_left_out (s.backlog_pairwise _) hw hv hvw
      exact absurd ((splitAt_iff n).mpr hcounts) (hnone w.storedAt)

/-- **Moments.** Jobs for a rule are whole exactly if the limit splits no
moment, that is, there is no moment up to which more calls qualify than the
limit and before which fewer do. They are whole exactly if the watermark of
the rule may be moved to the time of any call that is given a job, and every
call that qualified has a job or qualifies still. Whether or not they are
whole, what is left out was stored no earlier than what is given a job, so
what such a watermark loses was stored at its very moment. -/
theorem whole_iff {s : Store} (keys : s.Keyed) (numbered : s.Numbered) (e : RuleEntry)
    (n limit : Int) :
    (s.Whole e n limit ↔ ∀ t, ¬ s.SplitAt e limit t)
      ∧ (s.Whole e n limit ↔
          ∀ c ∈ s.calls, s.Gives (e.view n) limit c.id → ∀ t ∈ c.storedAt,
            ∀ d ∈ s.calls, s.Qualifies e d →
              s.Gives (e.view n) limit d.id ∨ s.Qualifies (e.marked (some t)) d)
      ∧ ∀ c ∈ s.calls, s.Gives (e.view n) limit c.id → ∀ t ∈ c.storedAt,
          ∀ d ∈ s.calls, s.Qualifies e d → ¬ s.Gives (e.view n) limit d.id →
            ¬ s.Qualifies (e.marked (some t)) d → d.storedAt = some t := by
  have hlost : ∀ c ∈ s.calls, s.Gives (e.view n) limit c.id → ∀ t ∈ c.storedAt,
      ∀ d ∈ s.calls, s.Qualifies e d → ¬ s.Gives (e.view n) limit d.id →
        ¬ s.Qualifies (e.marked (some t)) d → d.storedAt = some t := by
    intro c hc hgives t ht d hd hqualifies hleft hcovered
    obtain ⟨u, hu, -⟩ := hqualifies.after
    have hle := le_of_not_gives keys numbered hc hgives hd hqualifies hleft t ht u hu
    have hge : u ≤ t := by
      rw [← Instant.not_lt_iff_le]
      exact fun hlt => hcovered ((qualifies_marked_iff hu).mpr ⟨hqualifies.toSuits, hlt⟩)
    rw [Instant.eq_of_le_of_le hle hge]
    exact hu
  refine ⟨whole_iff_not_splitAt keys numbered, ?_, hlost⟩
  constructor
  · intro whole c hc hgives t ht d hd hqualifies
    by_contra hneither
    rw [not_or] at hneither
    have hstored := hlost c hc hgives t ht d hd hqualifies hneither.1 hneither.2
    refine hneither.1 (whole c hc hgives d hd hqualifies fun t' ht' u hu => ?_)
    rw [Option.some.inj (ht'.symm.trans ht), Option.some.inj (hu.symm.trans hstored)]
    exact Int.le_refl _
  · intro hkept c hc hgives d hd hqualifies hle
    obtain ⟨w, hw, rfl⟩ := (gives_call_iff keys numbered hc).mp hgives
    have hwt := (mem_backlog_view (mem_backlog_of_mem_chosen hw)).2.2
    rcases hkept _ hc hgives w.storedAt hwt d hd hqualifies with hd | hstill
    · exact hd
    · obtain ⟨u, hu, hlt⟩ := hstill.after
      exact absurd hlt (Instant.not_lt_iff_le.mpr (hle _ hwt u hu))

/-! ## Three calls, two of them of one moment -/

/-- The second of the two calls that were stored at the same time. -/
def twinCall : Call :=
  { olderCall with id := "twin" }

theorem tied_backlog :
    tied.backlog (soleRule.view 0)
      = [⟨olderCall, ⟨10⟩, 1⟩, ⟨twinCall, ⟨10⟩, 3⟩, ⟨newerCall, ⟨20⟩, 2⟩] := by
  have hwanted : tied.calls.filterMap (tied.wanted? (soleRule.view 0))
      = [⟨olderCall, ⟨10⟩, 1⟩, ⟨twinCall, ⟨10⟩, 3⟩, ⟨newerCall, ⟨20⟩, 2⟩] := by rfl
  rw [backlog, hwanted]
  exact List.mergeSort_of_pairwise (by decide)

theorem tied_keyed : tied.Keyed := ⟨by decide, by decide⟩

theorem tied_numbered : tied.Numbered := ⟨by decide, by decide⟩

/-- With room for two jobs the two calls are kept together, and the newer one
is left for later. -/
theorem whole_iff_two :
    tied.Whole soleRule 0 2 ∧ tied.Gives (soleRule.view 0) 2 twinCall.id
      ∧ tied.Qualifies (soleRule.marked (some ⟨10⟩)) newerCall := by
  obtain ⟨hsplits, hlosses, -⟩ := whole_iff tied_keyed tied_numbered soleRule 0 2
  have hnone : ∀ t, ¬ tied.SplitAt soleRule 2 t := by
    intro t hsplit
    have hcounts := (splitAt_iff 0).mp hsplit
    simp only [tied_backlog, List.countP_cons, List.countP_nil, decide_eq_true_eq,
      Instant.lt_iff_ticks, Instant.le_iff_ticks] at hcounts
    grind
  have whole := hsplits.mpr hnone
  have hgives : tied.Gives (soleRule.view 0) 2 twinCall.id := by
    rw [gives_call_iff tied_keyed tied_numbered (by simp [tied, twinCall]), chosen, tied_backlog]
    exact ⟨⟨twinCall, ⟨10⟩, 3⟩, by simp, rfl⟩
  refine ⟨whole, hgives, ?_⟩
  rcases hlosses.mp whole twinCall (by simp [tied, twinCall]) hgives ⟨10⟩ rfl newerCall
    (by simp [tied]) (by decide +kernel) with hnewer | hnewer
  · rw [gives_call_iff tied_keyed tied_numbered (by simp [tied]), chosen, tied_backlog] at hnewer
    obtain ⟨w, hw, hcall⟩ := hnewer
    have hwithin : w = ⟨olderCall, ⟨10⟩, 1⟩ ∨ w = ⟨twinCall, ⟨10⟩, 3⟩ := by simpa using hw
    have hid := congrArg Call.id hcall
    rcases hwithin with rfl | rfl <;> exact absurd hid (by decide)
  · exact hnewer

/-- With room for one job the first of the two calls is given it and the
second is left out. When the job is done and reaped, the rule has passed the
second call as well and does not want it any more. -/
theorem moment_split :
    tied.Keyed ∧ tied.Numbered ∧ soleRule ∈ tied.rules ∧ soleRule.enabled = true
      ∧ ¬ tied.Whole soleRule 0 1 ∧ tied.Qualifies soleRule twinCall
      ∧ let s := ((((tied.enqueueFor (soleRule.view 0) 1).1.claim 1).1.markDone 1).1.reap).1
        s.jobs = [] ∧ ∀ e ∈ s.rules, ¬ s.Qualifies e twinCall := by
  have hchosen : tied.chosen (soleRule.view 0) 1 = [⟨olderCall, ⟨10⟩, 1⟩] := by
    rw [chosen, tied_backlog]
    rfl
  have hgiven : (tied.enqueueFor (soleRule.view 0) 1).1 =
      { tied with
        jobs := rowsFor (soleRule.view 0) 1 1 [⟨olderCall, ⟨10⟩, 1⟩], nextJob := 2 } := by
    simp only [enqueueFor, hchosen, length_rowsFor]
    rfl
  refine ⟨tied_keyed, tied_numbered, by simp [tied, twoCalls], rfl, ?_, by decide +kernel, ?_⟩
  · have hsplit : tied.SplitAt soleRule 1 ⟨10⟩ := by
      rw [splitAt_iff 0, tied_backlog]
      decide
    exact fun whole => (whole_iff_not_splitAt tied_keyed tied_numbered).mp whole ⟨10⟩ hsplit
  · rw [hgiven]
    decide +kernel

end Store

end CallAudit
