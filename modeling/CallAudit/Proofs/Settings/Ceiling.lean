/-
CallAudit.Proofs.Settings.Ceiling — the ceiling of an operator and that of a
worker.

Both are the same setting, and it is read in two ways. A worker looks for it
under both of its names and does not mind blanks around the number
(`Setting.read`, `count?`). A command of the operator knows one name and
takes the text as it stands. So whatever a command takes the worker takes
too (`readCount_of_tight`), and what a command does not take leaves it with
the default.

* `ceilingOf_eq_iff` — when the two ceilings are the same, and which one the
  operator has when they are not.
-/
import CallAudit.Operator
import CallAudit.Proofs.Settings.Outcome
import CallAudit.Proofs.Store.Books
import CallAudit.Proofs.Text.Blank

namespace CallAudit

/-! ## Whole numbers -/

namespace Number

theorem nat?_eq_some {ds : List Char} {n : Nat} (h : nat? ds = some n) :
    ds ≠ [] ∧ ∀ d ∈ ds, isDigit d = true := by
  simp only [nat?] at h
  split at h
  · rename_i hds
    simpa using hds
  · cases h

/-- A text that is a whole number is not empty and has no blanks. -/
theorem tight_of_int? {lo hi n : Int} {cs : List Char} (h : int? lo hi cs = some n) :
    cs ≠ [] ∧ ∀ c ∈ cs, Text.isBlank c = false := by
  obtain ⟨hvalue, -⟩ := Option.filter_eq_some_iff.mp h
  have digits : ∀ {ds : List Char}, (∃ m, nat? ds = some m) →
      ds ≠ [] ∧ ∀ c ∈ ds, Text.isBlank c = false := fun ⟨m, hm⟩ =>
    ⟨(nat?_eq_some hm).1, fun c hc => Text.isBlank_of_isDigit ((nat?_eq_some hm).2 c hc)⟩
  split at hvalue
  · obtain ⟨m, hm, -⟩ := Option.map_eq_some_iff.mp hvalue
    exact ⟨List.cons_ne_nil _ _, List.forall_mem_cons.mpr ⟨rfl, (digits ⟨m, hm⟩).2⟩⟩
  · split at hvalue
    · obtain ⟨_, hm, -⟩ := Option.map_eq_some_iff.mp hvalue
      obtain ⟨m, hm, -⟩ := Option.bind_eq_some_iff.mp hm
      exact ⟨List.cons_ne_nil _ _, List.forall_mem_cons.mpr ⟨rfl, (digits ⟨m, hm⟩).2⟩⟩
    · cases hvalue
  · obtain ⟨m, hm, -⟩ := Option.map_eq_some_iff.mp hvalue
    exact digits ⟨m, hm⟩

/-- The positive numbers are the same however far down numbers may go. -/
theorem int?_filter_pos {lo hi : Int} (hlo : lo ≤ 0) (cs : List Char) :
    (int? lo hi cs).filter (0 < ·) = (int? 0 hi cs).filter (0 < ·) := by
  have hrange : ∀ n : Int, (decide (lo ≤ n) && decide (n ≤ hi)) = true ∧ 0 < n
      ↔ (decide (0 ≤ n) && decide (n ≤ hi)) = true ∧ 0 < n := by
    intro n
    simp only [Bool.and_eq_true, decide_eq_true_eq]
    omega
  ext n
  simp only [int?, Option.filter_eq_some_iff, decide_eq_true_eq, and_assoc, hrange]
  refine and_congr_left fun ⟨_, hn⟩ => ?_
  split
  · rfl
  · -- what follows a minus sign is not positive
    simp only [Int.lt_irrefl, if_false, reduceCtorEq, iff_false]
    split
    · rename_i ds _
      cases nat? ds with
      | none => simp
      | some m =>
        intro hm
        have hm : -(m : Int) = n := Option.some.inj hm
        omega
    · simp
  · rfl

end Number

namespace Settings

/-- What a command of the operator takes for a ceiling. -/
def tightCount? (text : String) : Option Int :=
  (Number.int? (-9223372036854775808) maxInt64 text.toList).filter (0 < ·)

theorem ceilingOf_eq (env : Variables) :
    Operator.ceilingOf env = ((env ceilingSetting.name).bind tightCount?).getD 100 := rfl

theorem ceiling_of_load {env : Variables} {c : Settings} (h : load env = .ok c) :
    c.rounds.ceiling = (readCount env maxInt64 ceilingSetting).getD 100 := by
  obtain ⟨_, -, hrounds⟩ := ok_of_bind (loaded_of_load h).rounds
  rw [← Except.ok.inj hrounds]

/-- A text without blanks around it is the same to an operator and to a
worker. -/
theorem tightCount?_of_trimmed {text : String} (h : Text.trimmed text = text) :
    tightCount? text = count? maxInt64 text := by
  have htrim : Text.trim text.toList = text.toList := by
    rw [← String.toList_ofList (l := Text.trim text.toList)]
    exact congrArg String.toList h
  rw [tightCount?, count?, htrim]
  exact Number.int?_filter_pos (by decide) _

/-- What is given under the name that both know is what a worker reads. -/
theorem readCount_of_tight {env : Variables} {text : String}
    (hgiven : env ceilingSetting.name = some text) (hblank : Text.allBlank text = false)
    (htrimmed : Text.trimmed text = text) :
    readCount env maxInt64 ceilingSetting = tightCount? text := by
  have hvalue : env.value? ceilingSetting.name = some text := by
    rw [Variables.value?, hgiven, Option.filter_some_pos (by simp [hblank])]
  rw [readCount, Setting.read, hvalue, Option.some_or, Option.bind_some,
    tightCount?_of_trimmed htrimmed]

/-- A command takes no number with blanks around it. -/
theorem tight_of_tightCount? {text : String} {n : Int} (h : tightCount? text = some n) :
    Text.allBlank text = false ∧ Text.trimmed text = text := by
  obtain ⟨hint, -⟩ := Option.filter_eq_some_iff.mp h
  obtain ⟨hne, hnoblank⟩ := Number.tight_of_int? hint
  refine ⟨?_, Text.trimmed_eq_self hnoblank⟩
  obtain ⟨c, hc⟩ := List.exists_mem_of_ne_nil _ hne
  exact List.all_eq_false.mpr ⟨c, hc, by simp [hnoblank c hc]⟩

/-- **Two ceilings.** An operator has the ceiling of a worker if that is the
default one, or if the setting is given under the name that both know and
has no blanks around it. Otherwise an operator has the default. -/
theorem ceilingOf_eq_iff {env : Variables} {c : Settings} (h : load env = .ok c) :
    (Operator.ceilingOf env = c.rounds.ceiling ↔
        c.rounds.ceiling = 100 ∨ ∃ text, env "CALL_AUDIT_RULE_CEILING" = some text ∧
          Text.allBlank text = false ∧ Text.trimmed text = text)
      ∧ (Operator.ceilingOf env ≠ c.rounds.ceiling → Operator.ceilingOf env = 100) := by
  rw [ceilingOf_eq, ceiling_of_load h]
  cases htight : (env ceilingSetting.name).bind tightCount? with
  | some n =>
    obtain ⟨text, hgiven, hn⟩ := Option.bind_eq_some_iff.mp htight
    obtain ⟨hblank, htrimmed⟩ := tight_of_tightCount? hn
    rw [readCount_of_tight hgiven hblank htrimmed, hn]
    exact ⟨⟨fun _ => .inr ⟨text, hgiven, hblank, htrimmed⟩, fun _ => rfl⟩,
      fun hne => absurd rfl hne⟩
  | none =>
    refine ⟨⟨fun hsame => .inl hsame.symm, ?_⟩, fun _ => rfl⟩
    rintro (hdefault | ⟨text, hgiven, hblank, htrimmed⟩)
    · exact hdefault.symm
    · -- the worker refuses what the operator refuses
      have hnone : tightCount? text = none := by
        rwa [show env ceilingSetting.name = some text from hgiven, Option.bind_some] at htight
      rw [readCount_of_tight hgiven hblank htrimmed, hnone]

/-- Given under the name that both know, seven jobs are the limit of both. -/
theorem ceilingOf_eq_iff_seven :
    let env := variablesOf
      (("CALL_AUDIT_RULE_CEILING", "7") :: ("RULE_CEILING", "5") :: requiredOnly)
    ∃ c, load env = .ok c ∧ c.rounds.ceiling = 7 ∧ Operator.ceilingOf env = c.rounds.ceiling := by
  intro env
  obtain ⟨c, hc⟩ := failure?_eq_none.mp (show failure? (load env) = none by decide +kernel)
  have hsame := (ceilingOf_eq_iff hc).1.mpr
    (.inr ⟨"7", by decide +kernel, by decide +kernel, by decide +kernel⟩)
  have hseven : Operator.ceilingOf env = 7 := by decide +kernel
  exact ⟨c, hc, hsame.symm.trans hseven, hsame⟩

/-- A rule that has one job, and another call that it wants. -/
def oneOutstanding : Store :=
  { Store.oneCall with
    jobs := Store.rowsFor (Store.soleRule.view 0) 1 1 [⟨Store.newerCall, ⟨20⟩, 2⟩], nextJob := 2 }

/-- A worker lets this rule have the job it has, since one is its limit, and
an operator, whose limit is a hundred, gives it another. -/
def Exceeded (env : Variables) : Prop :=
  (∃ c, load env = .ok c ∧ c.rounds.ceiling = 1
      ∧ (Connection.enqueueAll { store := oneOutstanding } c.rounds.ceiling).2.store.jobs.length = 1)
    ∧ Operator.ceilingOf env = 100
    ∧ (Operator.command env { store := oneOutstanding } "enqueue").2.store.jobs.length = 2

theorem exceeded_of_ceilings {env : Variables} (hload : failure? (load env) = none)
    (hworker : readCount env maxInt64 ceilingSetting = some 1)
    (hoperator : Operator.ceilingOf env = 100) : Exceeded env := by
  have hkept : (Connection.enqueueAll { store := oneOutstanding } 1).2.store.jobs.length = 1 := by
    decide +kernel
  have hgiven : (Connection.enqueueAll { store := oneOutstanding } 100).2.store.jobs.length = 2 := by
    decide +kernel
  obtain ⟨c, hc⟩ := failure?_eq_none.mp hload
  have hceiling : c.rounds.ceiling = 1 := by
    rw [ceiling_of_load hc, hworker]
    rfl
  refine ⟨⟨c, hc, hceiling, hceiling ▸ hkept⟩, hoperator, ?_⟩
  rw [Operator.command, hoperator]
  exact hgiven

/-- With blanks around the number, or under the older name, a ceiling of one
is exceeded. -/
theorem enqueued_beyond_ceiling :
    Exceeded (variablesOf (("CALL_AUDIT_RULE_CEILING", " 1 ") :: requiredOnly))
      ∧ Exceeded (variablesOf (("RULE_CEILING", "1") :: requiredOnly)) :=
  ⟨exceeded_of_ceilings (by decide +kernel) (by decide +kernel) (by decide +kernel),
    exceeded_of_ceilings (by decide +kernel) (by decide +kernel) (by decide +kernel)⟩

end Settings

end CallAudit
