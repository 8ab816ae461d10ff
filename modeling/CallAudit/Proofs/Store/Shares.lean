/-
CallAudit.Proofs.Store.Shares — what each rule is given in a pass.

A pass adds rows and changes nothing else. Those of one rule among them are
the rows for the calls that were chosen for it from the store the pass began
with (`filter_dealtRows`), so all that is said of them is said of
`rowsFor`, the rows for a list of calls.

* `Share` — what a rule is given: the number of the rows, the calls they are
  about and the order they stand in. `share_rowsFor` proves it.
* `Alike` — two stores that are the same as far as one rule can tell. They
  lead to the same rows of the rule, but for the numbers of the rows
  (`content_rowsFor`).
* `pass_exact` — the pass as a whole.
-/
import CallAudit.Proofs.Store.Dealing
import CallAudit.Proofs.Store.Qualifying

namespace CallAudit

open CallAudit.Time (Instant)

/-- A row but for its number, which depends on the rows that were inserted
before it. -/
def Row.content (j : Row) : Row :=
  { j with id := 0 }

namespace Store

/-! ## Passes and their rules -/

/-- A pass reports the number of the rows it adds. -/
theorem enqueueAll_eq (s : Store) (ceiling : Int) :
    s.enqueueAll ceiling
      = (deal ceiling (s.runnable ceiling) s,
          { rules := (s.runnable ceiling).length
            inserted := (dealtRows ceiling (s.runnable ceiling) s).length }) := by
  -- along the pass the report counts the rows that were added so far
  have hfold : ∀ (rules : List Rule) (x : Store × Pass),
      rules.foldl (fun x r => ((x.1.enqueueFor r (r.headroom ceiling)).1,
          { x.2 with inserted := x.2.inserted + (x.1.enqueueFor r (r.headroom ceiling)).2 })) x
        = (deal ceiling rules x.1,
            { x.2 with inserted := x.2.inserted + (dealtRows ceiling rules x.1).length }) := by
    intro rules
    induction rules with
    | nil => exact fun _ => rfl
    | cons r rest ih =>
      intro x
      rw [List.foldl_cons, ih, dealtRows, List.length_append, ← Nat.add_assoc]
      rfl
  have hpass := hfold (s.runnable ceiling) (s, { rules := (s.runnable ceiling).length })
  rw [Nat.zero_add] at hpass
  exact hpass

/-! ## The rows of one rule -/

/-- The rows that a pass adds for a rule of a store. -/
structure Share (s : Store) (ceiling : Int) (e : RuleEntry) (rows : List Row) : Prop where
  /-- There are as many as the rule has room for, or one for each call that
  qualifies. -/
  number : (rows.length : Int)
    = min (ceiling - s.activeOf e.id) (s.calls.countP fun c => s.Qualifies e c)
  about : ∀ j ∈ rows, ∃ c ∈ s.calls, s.Qualifies e c ∧ j.subject = (e.id, some c.id)
    ∧ c.storedAt = some j.storedAt
  once : (rows.map Row.subject).Nodup
  queued : ∀ j ∈ rows, j.state = Progress.queued.tag ∧ j.tag = (Kind.ofForm e.scorecard).tag
  /-- A call that qualifies and is left out was not stored before any that
  is not. -/
  oldest : ∀ c ∈ s.calls, s.Qualifies e c → (∀ j ∈ rows, j.subject ≠ (e.id, some c.id)) →
    ∀ t ∈ c.storedAt, ∀ j ∈ rows, j.storedAt ≤ t
  ascending : rows.Pairwise fun j k => j.id < k.id ∧ j.storedAt ≤ k.storedAt

/-- The rows for chosen calls stand in the order of their numbers and of the
times of the calls. -/
theorem sorted_rowsFor (s : Store) (r : Rule) (limit first position : Int) :
    (rowsFor r first position (s.chosen r limit)).Pairwise fun j k =>
      j.id < k.id ∧ j.storedAt ≤ k.storedAt := by
  have htimes : (rowsFor r first position (s.chosen r limit)).map (·.storedAt)
      = (s.chosen r limit).map (·.storedAt) := by
    have hsnd := congrArg (List.map Prod.snd) (subject_rowsFor r first position (s.chosen r limit))
    simpa only [List.map_map, Function.comp_def] using hsnd
  have hsorted : ((s.chosen r limit).map (·.storedAt)).Pairwise (· ≤ ·) :=
    List.pairwise_map.mpr ((s.backlog_pairwise r).sublist (List.take_sublist _ _))
  rw [← htimes] at hsorted
  exact (ascending_rowsFor r first position _).and (List.pairwise_map.mp hsorted)

/-- The number of calls that are chosen for a rule with room for some. -/
theorem length_chosen (s : Store) (e : RuleEntry) {ceiling : Int} {n : Int} (room : n < ceiling) :
    ((s.chosen (e.view n) ((e.view n).headroom ceiling)).length : Int)
      = min (ceiling - n) (s.calls.countP fun c => s.Qualifies e c) := by
  have hroom : (e.view n).headroom ceiling = ceiling - n := by
    show max 0 (ceiling - n) = ceiling - n
    omega
  rw [chosen, List.length_take, length_backlog, hroom]
  omega

theorem share_rowsFor {s : Store} (keys : s.Keyed) {ceiling : Int} {e : RuleEntry}
    (room : (s.activeOf e.id : Int) < ceiling) (first : Int) :
    let r := e.view (s.activeOf e.id)
    Share s ceiling e (rowsFor r first 1 (s.chosen r (r.headroom ceiling))) := by
  intro r
  -- what is chosen for the rule qualifies for it
  have hback : ∀ w ∈ s.chosen r (r.headroom ceiling), w.call ∈ s.calls ∧ s.Qualifies e w.call
      ∧ w.call.storedAt = some w.storedAt :=
    fun w hw => mem_backlog_view (mem_backlog_of_mem_chosen hw)
  refine
    { number := ?_, about := ?_, once := nodup_subject_rowsFor r first 1 (nodup_chosen keys r _)
      queued := ?_, oldest := ?_, ascending := s.sorted_rowsFor r _ first 1 }
  · rw [length_rowsFor]
    exact s.length_chosen e room
  · intro j hj
    obtain ⟨w, hw, hsub, ht⟩ := exists_rowsFor_iff.mp ⟨j, hj, rfl, rfl⟩
    obtain ⟨hcall, hqualifies, hstored⟩ := hback w hw
    exact ⟨w.call, hcall, hqualifies, hsub.symm, ht ▸ hstored⟩
  · intro j hj
    obtain ⟨w, -, p, -, -, hrow⟩ := mem_rowsFor r first 1 _ j hj
    exact ⟨congrArg Row.state hrow, congrArg Row.tag hrow⟩
  · intro c hc hqualifies hleft t ht j hj
    obtain ⟨v, hv, rfl, hstored⟩ := exists_mem_backlog (s.activeOf e.id) hc hqualifies
    obtain rfl := Option.some.inj (hstored.symm.trans ht)
    obtain ⟨w, hw, -, hjt⟩ := exists_rowsFor_iff.mp ⟨j, hj, rfl, rfl⟩
    refine Instant.not_lt_iff_le.mp fun hlt => ?_
    obtain ⟨k, hk, hsub, -⟩ :=
      exists_rowsFor_iff.mpr ⟨v, mem_chosen_of_lt hw hv (hjt ▸ hlt), rfl, rfl⟩
    exact hleft k hk hsub

/-! ## Rules by themselves -/

/-- Two stores have the same calls and recordings, and the same rows of a
rule. -/
structure Alike (rule : Int) (s s' : Store) : Prop where
  calls : s'.calls = s.calls
  recordings : s'.recordings = s.recordings
  rows : s'.jobs.filter (·.rule = rule) = s.jobs.filter (·.rule = rule)

theorem content_rowsFor (r : Rule) : ∀ (first second position : Int) (ws : List Wanted),
    (rowsFor r first position ws).map Row.content = (rowsFor r second position ws).map Row.content
  | _, _, _, [] => rfl
  | first, second, position, w :: rest => by
      simp only [rowsFor, List.map_cons,
        content_rowsFor r (first + 1) (second + 1) (position + 1) rest]
      rfl

namespace Alike

variable {e : RuleEntry} {s s' : Store}

theorem activeOf_eq (h : Alike e.id s s') : s'.activeOf e.id = s.activeOf e.id := by
  rw [activeOf, activeOf, List.countP_eq_length_filter, List.countP_eq_length_filter, h.rows]

theorem hasJob_eq (h : Alike e.id s s') (call : String) :
    s'.hasJob e.id call = s.hasJob e.id call := by
  have hown : ∀ u : Store, u.hasJob e.id call
      = (u.jobs.filter (·.rule = e.id)).any fun j =>
          j.params.memberText "call_id" = some call := by
    intro u
    rw [List.any_filter]
    rfl
  rw [hown, hown, h.rows]

/-- What is chosen for the rule is the same. -/
theorem chosen_eq (h : Alike e.id s s') (n limit : Int) :
    s'.chosen (e.view n) limit = s.chosen (e.view n) limit :=
  chosen_congr h.calls h.recordings h.hasJob_eq limit

end Alike

/-! ## Passes -/

/-- A rule with room for jobs is dealt with in a pass, in whichever order the
rules come. -/
theorem filter_dealtRows_of_perm {s : Store} (keys : s.Keyed) {ceiling : Int} {e : RuleEntry}
    (he : e ∈ s.rules) (enabled : e.enabled = true) (room : (s.activeOf e.id : Int) < ceiling)
    {order : List Rule} (hperm : order.Perm (s.runnable ceiling)) :
    let r := e.view (s.activeOf e.id)
    ∃ first, (dealtRows ceiling order s).filter (·.rule = e.id)
      = rowsFor r first 1 (s.chosen r (r.headroom ceiling)) := by
  intro r
  have hr : r ∈ order := hperm.mem_iff.mpr (mem_runnable_iff.mpr ⟨e, he, enabled, room, rfl⟩)
  have hdistinct : (order.map (·.id)).Nodup :=
    (hperm.map _).nodup_iff.mpr (nodup_runnable keys ceiling)
  exact filter_dealtRows hdistinct hr s

/-- **A pass.** A pass over the rules adds rows and changes nothing else,
and it reports how many. All of them are of enabled rules with fewer rows
than the ceiling, and each of these is given its share. From a store that is
the same as far as a rule can tell, whatever the other rules are and in
whichever order they are dealt with, the rows of the rule are the same but
for their numbers. (To deal with the rules in the order they are listed in
is a pass, `enqueueAll_eq_deal`.) -/
theorem pass_exact {s : Store} (keys : s.Keyed) (ceiling : Int) :
    ∃ pass new, Connection.enqueueAll { store := s } ceiling
        = (.ok pass, { store := { s with jobs := s.jobs ++ new
                                         nextJob := s.nextJob + new.length } })
      ∧ pass.inserted = new.length ∧ pass.failed = 0
      ∧ (∀ j ∈ new, ∃ e ∈ s.rules, e.enabled = true ∧ (s.activeOf e.id : Int) < ceiling
          ∧ j.rule = e.id)
      ∧ ∀ e ∈ s.rules, e.enabled = true → (s.activeOf e.id : Int) < ceiling →
          Share s ceiling e (new.filter (·.rule = e.id))
            ∧ ∀ s', s'.Keyed → e ∈ s'.rules → Alike e.id s s' →
                ∀ order, order.Perm (s'.runnable ceiling) →
                  ∃ rows, (deal ceiling order s').jobs = s'.jobs ++ rows
                    ∧ (rows.filter (·.rule = e.id)).map Row.content
                        = (new.filter (·.rule = e.id)).map Row.content := by
  have hpass := Shared.enqueueAll_healthy s ceiling
  rw [enqueueAll_eq, deal_eq_append] at hpass
  refine ⟨_, _, hpass, rfl, rfl, ?_, ?_⟩
  · intro j hj
    obtain ⟨r, hr, hrule⟩ := rule_dealtRows hj
    obtain ⟨e, he, hen, hlt, rfl⟩ := mem_runnable_iff.mp hr
    exact ⟨e, he, hen, hlt, hrule⟩
  · intro e he hen hlt
    obtain ⟨first, hrows⟩ := filter_dealtRows_of_perm keys he hen hlt (.refl _)
    refine ⟨hrows ▸ share_rowsFor keys hlt first, ?_⟩
    intro s' keys' he' halike order hperm
    have hactive := halike.activeOf_eq
    obtain ⟨second, hrows'⟩ := filter_dealtRows_of_perm keys' he' hen (hactive ▸ hlt) hperm
    refine ⟨dealtRows ceiling order s', by rw [deal_eq_append], ?_⟩
    rw [hrows, hrows', hactive, halike.chosen_eq]
    exact content_rowsFor _ second first 1 _

/-- A rule that wants the calls that the other one wants. -/
def otherRule : RuleEntry :=
  { soleRule with id := 2 }

/-- The two rules and three calls. One of the calls has two recordings, and
one of the rules has a row for it. -/
def twoRules : Store where
  rules := [soleRule, otherRule]
  calls := twoCalls.calls ++ [{ olderCall with id := "twin" }]
  recordings := twoCalls.recordings ++ [⟨3, 1, "twin"⟩, ⟨4, 1, "older"⟩]
  jobs := [⟨1, 2, 1, 1, .object [("call_id", .string "older")], ⟨10⟩⟩]
  nextJob := 2

/-- With a ceiling of two the rule without a row is given two jobs and the
other one is given one, whichever of them is dealt with first. -/
theorem pass_exact_two_rules :
    ∃ pass new, Connection.enqueueAll { store := twoRules } 2
        = (.ok pass, { store := { twoRules with jobs := twoRules.jobs ++ new
                                                nextJob := 2 + new.length } })
      ∧ pass.inserted = new.length
      ∧ (new.filter (·.rule = 1)).length = 2 ∧ (new.filter (·.rule = 2)).length = 1
      ∧ ∃ rows, (deal 2 (twoRules.runnable 2).reverse twoRules).jobs = twoRules.jobs ++ rows
          ∧ (rows.filter (·.rule = 2)).map Row.content
              = (new.filter (·.rule = 2)).map Row.content := by
  have keys : twoRules.Keyed := ⟨by decide, by decide⟩
  obtain ⟨pass, new, hpass, hinserted, -, -, hshares⟩ := pass_exact keys 2
  obtain ⟨hone, -⟩ := hshares soleRule (by simp [twoRules]) rfl (by decide +kernel)
  obtain ⟨htwo, halone⟩ := hshares otherRule (by simp [twoRules]) rfl (by decide +kernel)
  have hsum : min (2 - (twoRules.activeOf 1 : Int))
        (twoRules.calls.countP fun c => twoRules.Qualifies soleRule c) = 2
      ∧ min (2 - (twoRules.activeOf 2 : Int))
        (twoRules.calls.countP fun c => twoRules.Qualifies otherRule c) = 1 := by
    decide +kernel
  have hlen := hone.number.trans hsum.1
  have hlen' := htwo.number.trans hsum.2
  exact ⟨pass, new, hpass, hinserted, by exact_mod_cast hlen, by exact_mod_cast hlen',
    halone twoRules keys (by simp [twoRules]) ⟨rfl, rfl, rfl⟩ _ (List.reverse_perm _)⟩

end Store

end CallAudit
