/-
CallAudit.Proofs.Tenure — how long a call that was admitted stays in hand.

The set of the calls in hand knows no owners. An admission that is dropped
takes its call out of the set, and so does a release by hand, whoever has
the call by then. So it takes more than to hold on to an admission to keep
its call, and what else it takes is said here.

* `Act`, `act?` — what is done with a guard and its admissions, in whatever
  order and through whichever handle. An act that is to admit a call which
  is in hand is refused. `trace` has every act of a run with the slots it
  was done to.
* `LetsGo` — the acts that take a call out of the set: it is released by
  hand, or one of its admissions is dropped. `holds_act` says which calls
  are in hand after an act and `call?_act` which admissions are kept.
* `Tenure` — what holds of a call from its admission on.
* `Sole` — a call that is never released by hand while an admission of it is
  kept has one admission at most.
* `held_until_let_go` — all together.
* `older_admission_frees` — an admission loses its call to an older one.
-/
import CallAudit.Proofs.Admission

namespace CallAudit.Slots

/-! ## Acts -/

/-- What is done with a guard and the admissions to it. -/
inductive Act where
  | reserve (call : String)
  | keep (slot call : String)
  /-- A call is admitted for a task that ends at once, well or badly. -/
  | visit (call : String)
  | release (call : String)
  | drop (slot : String)
deriving DecidableEq

namespace Act

/-- The call that is to be admitted by an act. -/
def seeks? : Act → Option String
  | reserve call | keep _ call | visit call => some call
  | release _ | drop _ => none

/-- The call that is to be in hand after an act. -/
def takes? : Act → Option String
  | reserve call | keep _ call => some call
  | visit _ | release _ | drop _ => none

/-- The slot that is emptied by an act, if the act is not refused. -/
def empties? : Act → Option String
  | keep slot _ | drop slot => some slot
  | reserve _ | visit _ | release _ => none

end Act

/-- The slots after an act, unless it is refused. -/
def act? (s : Slots) : Act → Option Slots
  | .reserve call => (s.guard.admit? call).map fun guard => { s with guard }
  | .keep slot call => s.admit? slot call
  | .visit call => (s.guard.admit? call).map fun _ => { s with guard := s.guard.visit call }
  | .release call => some { s with guard := s.guard.release call }
  | .drop slot => some (s.drop slot)

/-- The slots after an act; one that is refused changes nothing. -/
def act (s : Slots) (a : Act) : Slots :=
  (s.act? a).getD s

/-- The slots after some acts. -/
def run (s : Slots) (acts : List Act) : Slots :=
  acts.foldl act s

/-- Some acts, each with the slots it is done to. -/
def trace (s : Slots) : List Act → List (Slots × Act)
  | [] => []
  | a :: rest => (s, a) :: trace (s.act a) rest

/-- The admission in a slot, if there is one, is dropped. -/
def Drops (s : Slots) (a : Act) (slot : String) : Prop :=
  a.empties? = some slot ∧ (s.act? a).isSome

/-- A call is released by hand, or an admission of it is dropped. -/
def LetsGo (s : Slots) (a : Act) (call : String) : Prop :=
  a = .release call ∨ ∃ slot, s.Drops a slot ∧ s.call? slot = some call

/-! ## Slots -/

@[simp] theorem call?_cons (slot call : String) (g : Guard) (kept : List (String × String))
    (other : String) :
    (Slots.mk g ((slot, call) :: kept)).call? other
      = if slot = other then some call else (Slots.mk g kept).call? other := by
  by_cases h : slot = other <;> simp [call?, h]

theorem drop_of_none {s : Slots} {slot : String} (h : s.call? slot = none) : s.drop slot = s := by
  simp only [drop, h]

theorem drop_of_some {s : Slots} {slot call : String} (h : s.call? slot = some call) :
    s.drop slot = ⟨s.guard.release call, s.kept.filter (·.1 != slot)⟩ := by
  simp only [drop, h]

/-- The admission of a slot alone is dropped with it. -/
theorem call?_drop (s : Slots) (slot other : String) :
    (s.drop slot).call? other = if slot = other then none else s.call? other := by
  cases h : s.call? slot with
  | none =>
    rw [drop_of_none h]
    split
    · rename_i hsame
      rw [← hsame, h]
    · rfl
  | some call =>
    rw [drop_of_some h, call?, List.find?_filter]
    split
    · rename_i hsame
      subst hsame
      rw [List.find?_eq_none.mpr (by simp)]
      rfl
    · rename_i hne
      rw [call?]
      congr 2
      funext k
      by_cases hk : k.1 = other <;> simp [hk, Ne.symm hne]

/-- The calls in hand after the admission in a slot is dropped. -/
theorem holds_drop (s : Slots) (slot call : String) :
    (s.drop slot).guard.holds call = true ↔
      s.guard.holds call = true ∧ s.call? slot ≠ some call := by
  cases h : s.call? slot with
  | none => simp [drop_of_none h]
  | some mine => simp [drop_of_some h, Guard.holds_release, ne_comm]

/-- A call is admitted to a slot exactly if it is not in hand. -/
theorem admit?_eq_none {s : Slots} {slot call : String} :
    s.admit? slot call = none ↔ s.guard.holds call = true := by
  simp [admit?, Guard.admit?_eq_none]

/-- What was in a slot is dropped after its new call was admitted. -/
theorem admit?_eq_some {s s' : Slots} {slot call : String} (h : s.admit? slot call = some s') :
    ∃ guard, s.guard.admit? call = some guard
      ∧ s' = { ({ s with guard } : Slots).drop slot with
          kept := (slot, call) :: (({ s with guard } : Slots).drop slot).kept } := by
  obtain ⟨guard, hguard, rfl⟩ := Option.map_eq_some_iff.mp h
  exact ⟨guard, hguard, rfl⟩

/-! ## What an act does -/

/-- An act is refused if it is to admit a call that is in hand. -/
theorem act?_eq_none {s : Slots} {a : Act} :
    s.act? a = none ↔ ∃ call, a.seeks? = some call ∧ s.guard.holds call = true := by
  cases a <;> simp [act?, Act.seeks?, Guard.admit?_eq_none, admit?_eq_none]

theorem act_of_some {s s' : Slots} {a : Act} (h : s.act? a = some s') : s.act a = s' := by
  rw [act, h, Option.getD_some]

theorem act_of_none {s : Slots} {a : Act} (h : s.act? a = none) : s.act a = s := by
  rw [act, h, Option.getD_none]

/-- A call that is admitted for a task that ends at once leaves no trace. -/
theorem holds_visit (g : Guard) (call other : String) :
    (g.visit call).holds other = true ↔ g.holds other = true := by
  cases h : g.admit? call with
  | none => simp only [Guard.visit, h]
  | some g' =>
    have hfree : g.holds call = false := (Guard.admit?_eq_some.mp h).1
    simp only [Guard.visit, h, Guard.holds_release, Guard.holds_of_admitted h]
    by_cases hsame : other = call
    · simp [hsame, hfree]
    · simp [hsame]

section LettingGo

variable (s : Slots) (slot mine call : String)

@[simp] theorem letsGo_reserve : ¬ s.LetsGo (.reserve mine) call := by
  simp [LetsGo, Drops, Act.empties?]

@[simp] theorem letsGo_visit : ¬ s.LetsGo (.visit mine) call := by
  simp [LetsGo, Drops, Act.empties?]

@[simp] theorem letsGo_release : s.LetsGo (.release mine) call ↔ call = mine := by
  simp [LetsGo, Drops, Act.empties?, eq_comm (a := mine)]

@[simp] theorem letsGo_drop : s.LetsGo (.drop slot) call ↔ s.call? slot = some call := by
  simp [LetsGo, Drops, Act.empties?, act?]

@[simp] theorem letsGo_keep : s.LetsGo (.keep slot mine) call ↔
    (s.admit? slot mine).isSome ∧ s.call? slot = some call := by
  simp [LetsGo, Drops, Act.empties?, act?, and_assoc]

end LettingGo

/-- The calls in hand after an act: those that were in hand and the one that
it admits, but for what it lets go of. -/
theorem holds_act (s : Slots) (a : Act) (call : String) :
    (s.act a).guard.holds call = true ↔
      (s.guard.holds call = true ∨ (a.takes? = some call ∧ (s.act? a).isSome))
        ∧ ¬ s.LetsGo a call := by
  cases h : s.act? a with
  | none =>
    have hkept : ¬ s.LetsGo a call := by
      rintro (rfl | ⟨slot, ⟨-, hsome⟩, -⟩)
      · cases h
      · rw [h] at hsome
        cases hsome
    simp [act_of_none h, hkept]
  | some s' =>
    rw [act_of_some h]
    cases a with
    | reserve mine =>
      obtain ⟨guard, hguard, rfl⟩ := Option.map_eq_some_iff.mp h
      simp [Guard.holds_of_admitted hguard, Act.takes?, or_comm, eq_comm (a := mine)]
    | keep slot mine =>
      have hadmit : s.admit? slot mine = some s' := h
      obtain ⟨guard, hguard, rfl⟩ := admit?_eq_some hadmit
      rw [holds_drop, Guard.holds_of_admitted hguard, or_comm]
      simp [Act.takes?, hadmit, eq_comm (a := mine), call?]
    | visit mine =>
      obtain ⟨guard, -, rfl⟩ := Option.map_eq_some_iff.mp h
      simp [holds_visit, Act.takes?]
    | release mine =>
      cases h
      simp [Guard.holds_release, Act.takes?]
    | drop slot =>
      cases h
      simp [holds_drop, Act.takes?]

/-- The admissions that are kept after an act: the one that it makes, and
those that it does not drop. -/
theorem call?_act (s : Slots) (a : Act) (slot call : String) :
    (s.act a).call? slot = some call ↔
      (a = .keep slot call ∧ (s.act? a).isSome)
        ∨ (s.call? slot = some call ∧ ¬ s.Drops a slot) := by
  cases h : s.act? a with
  | none => simp [act_of_none h, Drops, h]
  | some s' =>
    rw [act_of_some h]
    cases a with
    | reserve mine =>
      obtain ⟨guard, -, rfl⟩ := Option.map_eq_some_iff.mp h
      simp [Drops, Act.empties?, call?]
    | keep other mine =>
      obtain ⟨guard, -, rfl⟩ := admit?_eq_some h
      rw [call?_cons, call?_drop]
      by_cases hsame : other = slot
      · subst hsame
        simp [Drops, Act.empties?, h]
      · simp [hsame, Drops, Act.empties?, call?]
    | visit mine =>
      obtain ⟨guard, -, rfl⟩ := Option.map_eq_some_iff.mp h
      simp [Drops, Act.empties?, call?]
    | release mine =>
      cases h
      simp [Drops, Act.empties?, call?]
    | drop other =>
      cases h
      rw [call?_drop]
      by_cases hsame : other = slot
      · simp [hsame, Drops, Act.empties?, act?]
      · simp [hsame, Drops, Act.empties?]

/-! ## Runs -/

/-- What an act keeps as long as it is one of some allowed acts holds after
any run of them, and when each of them is done. -/
theorem run_induction {motive : Slots → Prop} {allowed : Slots → Act → Prop}
    (step : ∀ s a, motive s → allowed s a → motive (s.act a)) :
    ∀ (acts : List Act) (s : Slots), motive s → (∀ e ∈ s.trace acts, allowed e.1 e.2) →
      motive (s.run acts) ∧ ∀ e ∈ s.trace acts, motive e.1
  | [], _, start, _ => ⟨start, by simp [trace]⟩
  | a :: rest, s, start, hallowed => by
      obtain ⟨hnow, hlater⟩ := List.forall_mem_cons.mp hallowed
      obtain ⟨hend, hall⟩ := run_induction step rest (s.act a) (step s a start hnow) hlater
      exact ⟨hend, List.forall_mem_cons.mpr ⟨start, hall⟩⟩

/-! ## An admission and its call -/

/-- A call is in hand, it has an admission in a slot, and all its other
admissions are as old as some slots were. -/
structure Tenure (older : Slots) (slot call : String) (s : Slots) : Prop where
  inHand : s.guard.holds call = true
  kept : s.call? slot = some call
  others : ∀ other, s.call? other = some call → other = slot ∨ older.call? other = some call

/-- What a call is not let go of by: it is not released by hand, and neither
its admission nor one that is older is dropped. -/
def Spares (older : Slots) (slot call : String) (s : Slots) (a : Act) : Prop :=
  a ≠ .release call ∧
    ∀ other, (other = slot ∨ older.call? other = some call) → ¬ s.Drops a other

namespace Tenure

variable {older s s' : Slots} {slot call : String}

theorem start (admitted : older.act? (.keep slot call) = some s')
    (fresh : older.call? slot ≠ some call) : Tenure older slot call s' := by
  have hact := act_of_some admitted
  have hspared : ¬ older.LetsGo (.keep slot call) call := by simp [fresh]
  refine ⟨?_, ?_, fun other hother => ?_⟩
  · rw [← hact, holds_act]
    exact ⟨.inr ⟨rfl, by simp [admitted]⟩, hspared⟩
  · rw [← hact, call?_act]
    exact .inl ⟨rfl, by simp [admitted]⟩
  · rw [← hact, call?_act] at hother
    rcases hother with ⟨hsame, -⟩ | ⟨hkept, -⟩
    · exact .inl (Act.keep.inj hsame).1.symm
    · exact .inr hkept

/-- While a call is in hand it is not admitted again. -/
theorem refused (h : Tenure older slot call s) {a : Act} (ha : a.seeks? = some call) :
    s.act? a = none :=
  act?_eq_none.mpr ⟨call, ha, h.inHand⟩

theorem act (h : Tenure older slot call s) {a : Act} (spared : Spares older slot call s a) :
    Tenure older slot call (s.act a) := by
  have hspared : ¬ s.LetsGo a call := by
    rintro (hrelease | ⟨other, hdrops, hother⟩)
    · exact spared.1 hrelease
    · exact spared.2 other (h.others other hother) hdrops
  refine ⟨?_, ?_, fun other hother => ?_⟩
  · exact (holds_act s a call).mpr ⟨.inl h.inHand, hspared⟩
  · exact (call?_act s a slot call).mpr (.inr ⟨h.kept, spared.2 slot (.inl rfl)⟩)
  · rcases (call?_act s a other call).mp hother with ⟨rfl, hsome⟩ | ⟨hkept, -⟩
    · -- an admission that is made now would be a second one
      rw [h.refused rfl] at hsome
      cases hsome
    · exact h.others other hkept

end Tenure

/-! ## One admission at most -/

/-- A call has one admission at most, and none unless it is in hand. -/
def Sole (call : String) (s : Slots) : Prop :=
  ∀ slot, s.call? slot = some call →
    s.guard.holds call = true ∧ ∀ other, s.call? other = some call → other = slot

/-- A call that is released by hand only while it has no admission has one
admission at most. -/
theorem Sole.act {s : Slots} {call : String} (h : Sole call s) {a : Act}
    (apart : a = .release call → ∀ slot, s.call? slot ≠ some call) : Sole call (s.act a) := by
  intro slot hslot
  rcases (call?_act s a slot call).mp hslot with ⟨rfl, hsome⟩ | ⟨hkept, hleft⟩
  · -- the call was free, and so had no admission
    have hfree : ∀ other, s.call? other ≠ some call := by
      intro other hother
      rw [act?_eq_none.mpr ⟨call, rfl, (h other hother).1⟩] at hsome
      cases hsome
    refine ⟨?_, fun other hother => ?_⟩
    · exact (holds_act s _ call).mpr ⟨.inr ⟨rfl, hsome⟩, by simp [hfree slot]⟩
    · rcases (call?_act s _ other call).mp hother with ⟨hsame, -⟩ | ⟨hother, -⟩
      · exact (Act.keep.inj hsame).1.symm
      · exact absurd hother (hfree other)
  · obtain ⟨hheld, honly⟩ := h slot hkept
    refine ⟨?_, fun other hother => ?_⟩
    · refine (holds_act s a call).mpr ⟨.inl hheld, ?_⟩
      rintro (hrelease | ⟨other, hdrops, hother⟩)
      · exact apart hrelease slot hkept
      · exact hleft (honly other hother ▸ hdrops)
    · rcases (call?_act s a other call).mp hother with ⟨rfl, hsome⟩ | ⟨hother, -⟩
      · rw [act?_eq_none.mpr ⟨call, rfl, hheld⟩] at hsome
        cases hsome
      · exact honly other hother

/-- **Held until let go.** After any acts a call is admitted, and its
admission is kept in a slot that held no older one. Until the call is
released by hand, its admission is dropped or an older admission of it is
dropped, the call is in hand and nobody else is admitted to it. It is each
of these that frees a call. There is an older admission only if the call was
released by hand while it had one. -/
theorem held_until_let_go (acts : List Act) (slot call : String) {s : Slots}
    (admitted : (empty.run acts).act? (.keep slot call) = some s)
    (fresh : (empty.run acts).call? slot ≠ some call) :
    (∀ later, (∀ e ∈ s.trace later, Spares (empty.run acts) slot call e.1 e.2) →
      (s.run later).guard.holds call = true ∧ (s.run later).call? slot = some call
        ∧ ∀ e ∈ s.trace later, e.1.guard.holds call = true
          ∧ (e.2.seeks? = some call → e.1.act? e.2 = none))
    ∧ (∀ (t : Slots) (a : Act), t.guard.holds call = true →
        ((t.act a).guard.holds call = false ↔ a = .release call ∨
          ∃ other, t.Drops a other ∧ t.call? other = some call))
    ∧ ((∀ e ∈ empty.trace acts, e.2 = .release call → ∀ other, e.1.call? other ≠ some call) →
        ∀ other, (empty.run acts).call? other ≠ some call) := by
  refine ⟨fun later spared => ?_, fun t a hheld => ?_, fun apart other hother => ?_⟩
  · obtain ⟨hend, hall⟩ :=
      run_induction (motive := Tenure (empty.run acts) slot call) (fun _ _ h => h.act) later s
        (.start admitted fresh) spared
    exact ⟨hend.inHand, hend.kept, fun e he => ⟨(hall e he).inHand, (hall e he).refused⟩⟩
  · rw [← Bool.not_eq_true, holds_act]
    simp only [hheld, true_or, true_and, not_not]
    rfl
  · have hnone : Sole call empty := fun slot hslot => by cases hslot
    obtain ⟨hsole, -⟩ := run_induction (motive := Sole call) (fun _ _ h => h.act) acts empty hnone apart
    -- the call was not in hand when it was admitted
    rw [act?_eq_none.mpr ⟨call, rfl, (hsole other hother).1⟩] at admitted
    cases admitted

/-- A call that was released by hand is admitted once more. As long as both
admissions are kept nobody else is admitted. -/
theorem held_until_let_go_twice :
    let acts : List Act := [.keep "first" "call", .release "call"]
    let later : List Act := [.reserve "call", .reserve "other", .keep "third" "call", .visit "call"]
    ∃ s, (empty.run acts).act? (.keep "second" "call") = some s
      ∧ (empty.run acts).call? "first" = some "call"
      ∧ (s.run later).guard.holds "call" = true
      ∧ ∀ e ∈ s.trace later, e.2.seeks? = some "call" → e.1.act? e.2 = none := by
  intro acts later
  obtain ⟨s, hs⟩ : ∃ s, (empty.run acts).act? (.keep "second" "call") = some s := ⟨_, rfl⟩
  obtain ⟨hkept, -⟩ := held_until_let_go acts "second" "call" hs (by decide)
  have hthird : (empty.run acts).call? "third" = none := by decide
  have hspared : ∀ e ∈ s.trace later, Spares (empty.run acts) "second" "call" e.1 e.2 := by
    simp only [later, trace, Spares, Drops, Act.empties?, List.forall_mem_cons]
    refine ⟨by simp, by simp, ⟨by simp, ?_⟩, by simp, by simp⟩
    -- the slot that is asked for in between had no admission
    rintro other hother ⟨hslot, -⟩
    obtain rfl := Option.some.inj hslot
    simp [hthird] at hother
  obtain ⟨hheld, -, hrefused⟩ := hkept later hspared
  exact ⟨s, hs, by decide, hheld, fun e he => (hrefused e he).2⟩

/-- A call that was released by hand is admitted once more, and the older
admission is dropped: the call is free although its new admission is kept
and nobody released it since. -/
theorem older_admission_frees :
    let acts : List Act := [.keep "first" "call", .release "call"]
    ∃ s, (empty.run acts).act? (.keep "second" "call") = some s
      ∧ s.guard.holds "call" = true
      ∧ (s.act (.drop "first")).call? "second" = some "call"
      ∧ (s.act (.drop "first")).guard.holds "call" = false
      ∧ ((s.act (.drop "first")).act? (.reserve "call")).isSome = true := by
  exact ⟨_, rfl, by decide, by decide, by decide, by decide⟩

end CallAudit.Slots
