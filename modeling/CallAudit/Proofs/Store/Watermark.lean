/-
CallAudit.Proofs.Store.Watermark — how far the watermark of a rule is
moved.

* Instants are compared by their ticks, so `omega` decides everything that
  is said of their order (`le_iff_ticks`, `lt_iff_ticks`).
* `latest_mem`, `le_latest`: the latest of some instants is one of them and
  none of them is after it.
* `Store.movedMark`: the watermark that reaping gives a rule, as a function
  of the rule's number and its old watermark alone. `reap_rules` says that
  reaping changes nothing else of a rule, which is what lets an invariant
  keep a table of watermarks beside rules that stay as they are.
-/
import CallAudit.Store.Lifecycle

namespace CallAudit

open CallAudit.Time (Instant)

/-! ## The order of instants -/

namespace Time.Instant

theorem le_iff_ticks {a b : Instant} : a ≤ b ↔ a.ticks ≤ b.ticks := Iff.rfl

theorem lt_iff_ticks {a b : Instant} : a < b ↔ a.ticks < b.ticks := Iff.rfl

theorem not_lt_iff_le {a b : Instant} : ¬ a < b ↔ b ≤ a := by
  rw [lt_iff_ticks, le_iff_ticks]
  omega

theorem le_trans {a b c : Instant} (hab : a ≤ b) (hbc : b ≤ c) : a ≤ c := by
  rw [le_iff_ticks] at *
  omega

theorem lt_of_le_of_lt {a b c : Instant} (hab : a ≤ b) (hbc : b < c) : a < c := by
  rw [lt_iff_ticks] at *
  rw [le_iff_ticks] at hab
  omega

theorem le_of_lt {a b : Instant} (h : a < b) : a ≤ b := by
  rw [lt_iff_ticks] at h
  rw [le_iff_ticks]
  omega

theorem eq_of_le_of_le {a b : Instant} (hab : a ≤ b) (hba : b ≤ a) : a = b := by
  rw [le_iff_ticks] at *
  have h : a.ticks = b.ticks := by omega
  cases a
  cases b
  exact congrArg mk h

theorem le_later_left (a b : Instant) : a ≤ a.later b := by
  unfold later
  split
  · assumption
  · exact Int.le_refl _

theorem le_later_right (a b : Instant) : b ≤ a.later b := by
  unfold later
  split
  · exact Int.le_refl _
  · rw [le_iff_ticks] at *
    omega

/-- The later of two instants is one of the two. -/
theorem later_eq_or (a b : Instant) : a.later b = a ∨ a.later b = b := by
  unfold later
  split
  · exact Or.inr rfl
  · exact Or.inl rfl

end Time.Instant

namespace Store

/-! ## The latest of some instants -/

/-- What the fold over the rest keeps: the result is at or after where it
started and after every instant it met, and it is one of these. -/
theorem foldl_later_spec (ts : List Instant) : ∀ t : Instant,
    t ≤ ts.foldl Instant.later t ∧ (∀ u ∈ ts, u ≤ ts.foldl Instant.later t)
      ∧ (ts.foldl Instant.later t = t ∨ ts.foldl Instant.later t ∈ ts) := by
  induction ts with
  | nil => intro t; exact ⟨Int.le_refl _, by simp, Or.inl rfl⟩
  | cons u rest ih =>
    intro t
    obtain ⟨hle, hall, hmem⟩ := ih (t.later u)
    simp only [List.foldl_cons]
    refine ⟨Instant.le_trans (Instant.le_later_left t u) hle, ?_, ?_⟩
    · intro v hv
      rcases List.mem_cons.mp hv with rfl | hv
      · exact Instant.le_trans (Instant.le_later_right t v) hle
      · exact hall v hv
    · rcases hmem with h | h
      · rw [h]
        rcases Instant.later_eq_or t u with h' | h'
        · exact Or.inl h'
        · exact Or.inr (by rw [h']; exact List.mem_cons_self)
      · exact Or.inr (List.mem_cons_of_mem u h)

theorem latest_eq_none {ts : List Instant} : latest ts = none ↔ ts = [] := by
  cases ts <;> simp [latest]

/-- The latest of some instants is one of them. -/
theorem latest_mem {ts : List Instant} {t : Instant} (h : latest ts = some t) : t ∈ ts := by
  cases ts with
  | nil => simp [latest] at h
  | cons u rest =>
    simp only [latest, Option.some.injEq] at h
    subst h
    rcases (foldl_later_spec rest u).2.2 with h | h
    · rw [h]; exact List.mem_cons_self
    · exact List.mem_cons_of_mem u h

/-- No instant is after the latest. -/
theorem le_latest {ts : List Instant} {t : Instant} (h : latest ts = some t) :
    ∀ u ∈ ts, u ≤ t := by
  cases ts with
  | nil => simp [latest] at h
  | cons v rest =>
    simp only [latest, Option.some.injEq] at h
    subst h
    obtain ⟨hle, hall, -⟩ := foldl_later_spec rest v
    intro u hu
    rcases List.mem_cons.mp hu with rfl | hu
    · exact hle
    · exact hall u hu

theorem mem_doneTimes {s : Store} {rule : Int} {t : Instant} :
    t ∈ s.doneTimes rule ↔ ∃ j ∈ s.jobs, isDone j = true ∧ j.rule = rule ∧ j.storedAt = t := by
  simp [doneTimes, and_assoc]

/-! ## What reaping does to the rules -/

/-- The watermark that reaping gives the rule of a number that has the
watermark `w`. -/
def movedMark (s : Store) (rule : Int) (w : Option Instant) : Option Instant :=
  match latest (s.doneTimes rule) with
  | none => w
  | some newest => some ((w.getD newest).later newest)

theorem advance_fst (s : Store) (r : RuleEntry) :
    (s.advance r).1 = { r with watermark := s.movedMark r.id r.watermark } := by
  simp only [advance, movedMark]
  cases latest (s.doneTimes r.id) <;> rfl

/-- Reaping changes the watermarks of the rules and nothing else of
them. -/
theorem reap_rules (s : Store) :
    s.reap.1.rules
      = s.rules.map fun r => { r with watermark := s.movedMark r.id r.watermark } := by
  simp only [reap, List.map_map]
  exact List.map_congr_left fun r _ => s.advance_fst r

/-- A watermark that has moved stands at the time of a job that was done,
unless it stayed where it was. -/
theorem movedMark_source (s : Store) (rule : Int) (w : Option Instant) :
    s.movedMark rule w = w ∨
      ∃ j ∈ s.jobs, isDone j = true ∧ j.rule = rule ∧ s.movedMark rule w = some j.storedAt := by
  unfold movedMark
  cases hl : latest (s.doneTimes rule) with
  | none => exact Or.inl rfl
  | some newest =>
    obtain ⟨j, hj, hdone, hrule, rfl⟩ := mem_doneTimes.mp (latest_mem hl)
    rcases w with _ | w
    · right
      refine ⟨j, hj, hdone, hrule, ?_⟩
      rcases Instant.later_eq_or j.storedAt j.storedAt with h | h <;> exact congrArg some h
    · rcases Instant.later_eq_or w j.storedAt with h | h
      · exact Or.inl (congrArg some h)
      · exact Or.inr ⟨j, hj, hdone, hrule, congrArg some h⟩

/-- A rule with a watermark keeps one, at or after the old one. -/
theorem le_movedMark (s : Store) (rule : Int) (w : Instant) :
    ∃ w', s.movedMark rule (some w) = some w' ∧ w ≤ w' := by
  unfold movedMark
  cases latest (s.doneTimes rule) with
  | none => exact ⟨w, rfl, Int.le_refl _⟩
  | some newest => exact ⟨_, rfl, Instant.le_later_left w newest⟩

/-- Every job of the rule that was done is at or before the watermark after
reaping. -/
theorem done_le_movedMark {s : Store} {rule : Int} {j : Row} (hj : j ∈ s.jobs)
    (hdone : isDone j = true) (hrule : j.rule = rule) (w : Option Instant) :
    ∃ w', s.movedMark rule w = some w' ∧ j.storedAt ≤ w' := by
  have hmem : j.storedAt ∈ s.doneTimes rule := mem_doneTimes.mpr ⟨j, hj, hdone, hrule, rfl⟩
  unfold movedMark
  cases hl : latest (s.doneTimes rule) with
  | none => rw [latest_eq_none.mp hl] at hmem; cases hmem
  | some newest =>
    exact ⟨_, rfl, Instant.le_trans (le_latest hl _ hmem) (Instant.le_later_right _ newest)⟩

end Store

end CallAudit
