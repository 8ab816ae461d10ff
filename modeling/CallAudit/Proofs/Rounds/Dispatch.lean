/-
CallAudit.Proofs.Rounds.Dispatch — every job of a batch is run once.

A job is offered to the pool, and if there is no place for it a second copy
is offered and waited for. Meanwhile the workers go on, and others may give
tasks to the same pool. So a job is told from its copies here, and the
journal of the pool notes what becomes of each copy.

* `Offer` — a copy of a task. `Stage`, `Handover` — tasks that are handed
  over one after the other, with the handles that were got for them.
* `Turn`, `Handover.step`, `run` — whoever hands the tasks over goes one step
  on, or something happens to the pool. Nothing is said of their order.
* `Handed` — what a step of handing over does. `Kept.handed` is the only
  proof here that looks into `hand`.
* `Kept` — the invariant: where the tasks are, and the lists of copies that
  a task goes along on its way. `Kept.step` goes by the cases of `Change`
  and `Handed`.
* `work` — what is still to be done. It falls with every turn that does
  anything, and is zero only when all tasks have been worked on.
* `dispatched_exactly_once` — what it is for.
-/
import CallAudit.Proofs.Store.HandingOut
import CallAudit.Proofs.Workers.Capacity
import CallAudit.Rounds.Dispatch

namespace CallAudit

/-! ## Moves of a pool that takes tasks -/

namespace Workers

variable {τ : Type}

/-- The task that a move gives to the pool. -/
def Move.given? : Move τ → Option τ
  | trySubmit t | submit t => some t
  | _ => none

/-- The steps that the tasks in a pool still have before them. -/
def Pool.load (p : Pool τ) : Nat :=
  4 * p.waiting.length + 3 * p.queue.length + 2 * p.held.toList.length + p.running.length

namespace Journal

variable [DecidableEq τ]

/-- A task is given to the pool by a move that gives it. -/
theorem given_step (j : Journal τ) (m : Move τ) :
    (j.step m).given = j.given ∨ ∃ t, m.given? = some t ∧ (j.step m).given = j.given ++ [t] := by
  cases m with
  | trySubmit t =>
    simp only [step]
    split
    · exact Or.inl rfl
    · split <;> exact Or.inr ⟨t, rfl, rfl⟩
  | submit t =>
    simp only [step]
    split
    · exact Or.inl rfl
    · split <;> exact Or.inr ⟨t, rfl, rfl⟩
  | shutdown => exact Or.inl rfl
  | _ =>
    simp only [step]
    split <;> exact Or.inl rfl

/-- As long as nobody asks it to close, a pool goes on taking tasks. -/
theorem serving_step {j : Journal τ} (serving : j.pool.phase = .serving) {m : Move τ}
    (hm : m ≠ .shutdown) : (j.step m).pool.phase = .serving := by
  have hc := j.step_change m
  have hasked : (j.step m).answers = j.answers := by
    cases m with
    | shutdown => exact absurd rfl hm
    | trySubmit t => simp only [step]; split <;> first | rfl | (split <;> rfl)
    | submit t => simp only [step]; split <;> first | rfl | (split <;> rfl)
    | drain => simp [step, Pool.drained?, serving]
    | expire => simp [step, Pool.expire?, serving]
    | _ => simp only [step]; split <;> rfl
  generalize j.step m = j' at hc hasked
  cases hc with
  | closing => simp at hasked
  | drained hdraining => rw [serving] at hdraining; cases hdraining
  | expired hdraining => rw [serving] at hdraining; cases hdraining
  | _ => exact serving

/-- What happens to a pool that is given nothing and not closed is a step of
one of its tasks. -/
theorem Change.load {j j' : Journal τ} (hc : j.Change j') (serving : j.pool.phase = .serving)
    (serving' : j'.pool.phase = .serving) (hgiven : j'.given = j.given) :
    j' = j ∨ j'.pool.load + 1 = j.pool.load := by
  cases hc with
  | nothing => exact Or.inl rfl
  | refused t => simp at hgiven
  | queued t => simp at hgiven
  | waits t => simp at hgiven
  | accepted t rest hperm =>
    have hlen := hperm.length_eq
    rw [List.length_cons] at hlen
    simp only [Pool.load, List.length_append, List.length_singleton]
    omega
  | taken t rest hheld hqueue =>
    simp only [Pool.load, hheld, hqueue, List.length_cons, Option.toList_none, Option.toList_some,
      List.length_nil]
    omega
  | started t hheld =>
    simp only [Pool.load, hheld, List.length_append, List.length_singleton, Option.toList_none,
      Option.toList_some, List.length_nil]
    omega
  | ended t fails hruns =>
    have hlen : (j.pool.running.erase t).length + 1 = j.pool.running.length :=
      List.length_erase_add_one hruns
    simp only [Pool.load]
    omega
  | closing => cases serving'
  | askedAgain hclosed => exact absurd serving hclosed
  | drained hdraining => rw [serving] at hdraining; cases hdraining
  | expired hdraining => rw [serving] at hdraining; cases hdraining

end Journal

end Workers

namespace Rounds

open CallAudit.Workers (Journal Pool)

/-! ## Handing tasks over -/

/-- A copy of a task, as it is offered to a pool. -/
structure Offer (τ : Type) where
  task : τ
  /-- Whether it is the second copy, for want of a place for the first. -/
  again : Bool
deriving DecidableEq, Repr

/-- How far the task has come that is being handed over. -/
inductive Stage (τ : Type) where
  /-- The next task is to be offered. -/
  | ready
  /-- There was no place for the task. -/
  | turnedAway (t : τ)
  /-- The task was offered again, to be put into the queue when there is a
  place. -/
  | waiting (t : τ)
  /-- The pool takes no tasks any more. -/
  | stopped
deriving DecidableEq, Repr

namespace Stage

variable {τ : Type}

/-- The task that there was no place for. -/
def task? : Stage τ → Option τ
  | turnedAway t | waiting t => some t
  | ready | stopped => none

/-- The copy that is waited for. -/
def offer? : Stage τ → Option (Offer τ)
  | waiting t => some ⟨t, true⟩
  | ready | turnedAway _ | stopped => none

/-- The steps that the task still has before it. -/
def work : Stage τ → Nat
  | ready | stopped => 0
  | turnedAway _ => 6
  | waiting _ => 1

end Stage

/-- Tasks that are being handed over to a pool. -/
structure Handover (τ : Type) where
  journal : Journal (Offer τ)
  /-- The tasks still to be offered. -/
  rest : List τ
  stage : Stage τ := .ready
  /-- The handles that were got, by the copies they are for. -/
  handles : List (Offer τ) := []
deriving DecidableEq, Repr

namespace Handover

variable {τ : Type} [DecidableEq τ]

/-- Whoever hands the tasks over goes one step on. -/
def hand (h : Handover τ) : Handover τ :=
  match h.stage with
  | .ready =>
    match h.rest with
    | [] => h
    | t :: rest =>
      let journal := h.journal.step (.trySubmit ⟨t, false⟩)
      match h.journal.pool.trySubmit ⟨t, false⟩ with
      | .ok _ => { h with journal, rest, handles := h.handles ++ [⟨t, false⟩] }
      | .error .saturated => { h with journal, rest, stage := .turnedAway t }
      | .error .closed => { h with journal, rest, stage := .stopped }
  | .turnedAway t =>
    let journal := h.journal.step (.submit ⟨t, true⟩)
    match h.journal.pool.submit ⟨t, true⟩ with
    | .ok _ => { h with journal, stage := .waiting t }
    | .error _ => { h with journal, stage := .stopped }
  | .waiting t =>
    if ⟨t, true⟩ ∈ h.journal.accepted then
      { h with stage := .ready, handles := h.handles ++ [⟨t, true⟩] }
    else if ⟨t, true⟩ ∈ h.journal.refused then { h with stage := .stopped }
    else h
  | .stopped => h

/-- What can happen next. -/
inductive Turn (τ : Type) where
  /-- Whoever hands the tasks over goes on. -/
  | hand
  | pool (m : Workers.Move (Offer τ))
deriving DecidableEq, Repr

/-- One turn. -/
def step (h : Handover τ) : Turn τ → Handover τ
  | .hand => h.hand
  | .pool m => { h with journal := h.journal.step m }

/-- Turns one after the other. -/
def run (h : Handover τ) (turns : List (Turn τ)) : Handover τ :=
  turns.foldl step h

/-- The pool is not closed, and nobody else gives it the tasks of the
batch. -/
def Turn.IsSteady (batch : List τ) : Turn τ → Prop
  | hand => True
  | pool m => m ≠ .shutdown ∧ ∀ o ∈ m.given?, o.task ∉ batch

instance (batch : List τ) (turn : Turn τ) : Decidable (turn.IsSteady batch) :=
  match turn with
  | .hand => isTrue trivial
  | .pool m => inferInstanceAs (Decidable (m ≠ .shutdown ∧ ∀ o ∈ m.given?, o.task ∉ batch))

/-- The pool is not closed, and nobody else gives it any task. -/
def Turn.IsInner : Turn τ → Prop
  | hand => True
  | pool m => m ≠ .shutdown ∧ m.given? = none

/-- The copies of the tasks of a batch. -/
def own (batch : List τ) (os : List (Offer τ)) : List (Offer τ) :=
  os.filter fun o => o.task ∈ batch

/-- The tasks there was no place for at first. -/
def turned (h : Handover τ) : List τ :=
  (h.handles.filter (·.again)).map (·.task) ++ h.stage.task?.toList

/-- The tasks of a batch that were started, in the order they were. -/
def executed (batch : List τ) (h : Handover τ) : List τ :=
  (own batch h.journal.started).map (·.task)

/-- What is still to be done: the steps before the tasks that are still to be
offered, the one that is being handed over, and those in the pool. -/
def work (h : Handover τ) : Nat :=
  7 * h.rest.length + h.stage.work + h.journal.pool.load

/-! ### Copies -/

section Own

variable {batch : List τ} {o : Offer τ}

@[simp] theorem own_nil : own batch [] = [] := rfl

@[simp] theorem own_append (os os' : List (Offer τ)) :
    own batch (os ++ os') = own batch os ++ own batch os' :=
  List.filter_append ..

theorem own_cons_of_mem (ho : o.task ∈ batch) (os : List (Offer τ)) :
    own batch (o :: os) = o :: own batch os :=
  List.filter_cons_of_pos (by simpa using ho)

theorem own_cons_of_not_mem (ho : o.task ∉ batch) (os : List (Offer τ)) :
    own batch (o :: os) = own batch os :=
  List.filter_cons_of_neg (by simpa using ho)

@[simp] theorem mem_own {os : List (Offer τ)} : o ∈ own batch os ↔ o ∈ os ∧ o.task ∈ batch := by
  simp [own]

end Own

/-! ### Where the tasks are -/

/-- What handing over does where the pool takes tasks. -/
inductive Handed (h : Handover τ) : Handover τ → Prop where
  | complete : h.stage = .ready → h.rest = [] → Handed h h
  | stays (t : τ) : h.stage = .waiting t → ⟨t, true⟩ ∉ h.journal.accepted → Handed h h
  | queued (t : τ) (rest : List τ) : h.stage = .ready → h.rest = t :: rest →
      h.journal.pool.waiting = [] → h.journal.pool.queue.length < h.journal.pool.depth →
      Handed h { h with
        journal := { h.journal with
          pool := { h.journal.pool with queue := h.journal.pool.queue ++ [⟨t, false⟩] }
          given := h.journal.given ++ [⟨t, false⟩]
          accepted := h.journal.accepted ++ [⟨t, false⟩] }
        rest, handles := h.handles ++ [⟨t, false⟩] }
  | turnedAway (t : τ) (rest : List τ) : h.stage = .ready → h.rest = t :: rest →
      ¬ (h.journal.pool.waiting = [] ∧ h.journal.pool.queue.length < h.journal.pool.depth) →
      Handed h { h with
        journal := { h.journal with
          given := h.journal.given ++ [⟨t, false⟩]
          refused := h.journal.refused ++ [⟨t, false⟩] }
        rest, stage := .turnedAway t }
  | waits (t : τ) : h.stage = .turnedAway t →
      Handed h { h with
        journal := { h.journal with
          pool := { h.journal.pool with waiting := h.journal.pool.waiting ++ [⟨t, true⟩] }
          given := h.journal.given ++ [⟨t, true⟩] }
        stage := .waiting t }
  | arrived (t : τ) : h.stage = .waiting t → ⟨t, true⟩ ∈ h.journal.accepted →
      Handed h { h with stage := .ready, handles := h.handles ++ [⟨t, true⟩] }

/-- What holds of a batch that is handed over to a pool of `n` workers. The
copies of its tasks go along three lists: those that the pool accepted and
those that wait are the handles, then the copy that is waited for; and those
that were refused are the first copies of tasks that were offered again. -/
structure Kept (n : Nat) (batch : List τ) (h : Handover τ) : Prop where
  sound : h.journal.Sound n
  serving : h.journal.pool.phase = .serving
  places : 0 < h.journal.pool.depth
  going : h.stage ≠ .stopped
  order : h.handles.map (·.task) ++ (h.stage.task?.toList ++ h.rest) = batch
  line : own batch h.journal.accepted ++ own batch h.journal.pool.waiting
    = h.handles ++ h.stage.offer?.toList
  /-- Of the batch only the copy that is waited for can be one that waits. -/
  waits : (own batch h.journal.pool.waiting).Sublist h.stage.offer?.toList
  refused : own batch h.journal.refused = h.turned.map fun t => ⟨t, false⟩

namespace Kept

variable {n : Nat} {batch : List τ} {h : Handover τ}

/-- Nothing is known to the pool yet. -/
theorem start {j : Journal (Offer τ)} (sound : j.Sound n) (serving : j.pool.phase = .serving)
    (places : 0 < j.pool.depth) (fresh : ∀ o ∈ j.given, o.task ∉ batch) :
    Kept n batch { journal := j, rest := batch } := by
  have hnone : ∀ os : List (Offer τ), os ⊆ j.given → own batch os = [] := fun os hos =>
    List.filter_eq_nil_iff.mpr fun o ho => by simpa using fresh o (hos ho)
  have hall := sound.given.subset
  have hwaiting : own batch j.pool.waiting = [] :=
    hnone _ fun o ho => hall (List.mem_append_left _ ho)
  have haccepted : own batch j.accepted = [] :=
    hnone _ fun o ho => hall (List.mem_append_right _ (List.mem_append_left _ ho))
  have hrefused : own batch j.refused = [] :=
    hnone _ fun o ho => hall (List.mem_append_right _ (List.mem_append_right _ ho))
  exact
    { sound, serving, places, going := by simp, order := rfl
      line := by rw [haccepted, hwaiting]; rfl
      waits := by rw [hwaiting]; exact List.nil_sublist _
      refused := hrefused }

/-- The copies of the batch that the pool knows. -/
theorem of_given (k : Kept n batch h) {o : Offer τ} (ho : o ∈ h.journal.given)
    (hown : o.task ∈ batch) :
    o ∈ h.handles ++ h.stage.offer?.toList ∨ ∃ t ∈ h.turned, o = ⟨t, false⟩ := by
  have hplace := k.sound.given.mem_iff.mpr ho
  rw [List.mem_append, List.mem_append] at hplace
  rcases hplace with hw | ha | hr
  · left
    rw [← k.line]
    exact List.mem_append_right _ (mem_own.mpr ⟨hw, hown⟩)
  · left
    rw [← k.line]
    exact List.mem_append_left _ (mem_own.mpr ⟨ha, hown⟩)
  · right
    have hmem : o ∈ own batch h.journal.refused := mem_own.mpr ⟨hr, hown⟩
    rw [k.refused, List.mem_map] at hmem
    obtain ⟨t, ht, rfl⟩ := hmem
    exact ⟨t, ht, rfl⟩

/-- What happens to the pool keeps all of it. -/
theorem pool (k : Kept n batch h) {j : Journal (Offer τ)} (hc : h.journal.Change j)
    (serving : j.pool.phase = .serving)
    (others : ∀ o ∈ j.given, o ∈ h.journal.given ∨ o.task ∉ batch) :
    Kept n batch { h with journal := j } := by
  have hsound := k.sound.change hc
  have hline := k.line
  have hwaits := k.waits
  have hrefused := k.refused
  -- a copy that is new to the pool is not one of the batch
  have hnew : ∀ {o : Offer τ}, o ∉ h.journal.given → o ∈ j.given → own batch [o] = [] :=
    fun hfresh hgiven => own_cons_of_not_mem ((others _ hgiven).resolve_left hfresh) []
  cases hc with
  | nothing => exact k
  | refused o hfresh =>
    have hnone := hnew hfresh (List.mem_append_right _ (List.mem_singleton_self o))
    refine { k with sound := hsound, refused := ?_ }
    rw [own_append, hnone, List.append_nil]
    exact hrefused
  | queued o hfresh =>
    have hnone := hnew hfresh (List.mem_append_right _ (List.mem_singleton_self o))
    refine { k with sound := hsound, line := ?_ }
    rw [own_append, hnone, List.append_nil]
    exact hline
  | waits o hfresh =>
    have hnone := hnew hfresh (List.mem_append_right _ (List.mem_singleton_self o))
    have hsame : own batch (h.journal.pool.waiting ++ [o]) = own batch h.journal.pool.waiting := by
      rw [own_append, hnone, List.append_nil]
    refine { k with sound := hsound, line := ?_, waits := ?_ }
    · rw [hsame]
      exact hline
    · rw [hsame]
      exact hwaits
  | accepted o rest hperm =>
    have hown : (own batch (o :: rest)).Perm (own batch h.journal.pool.waiting) :=
      hperm.filter _
    -- at most one copy of the batch waits, so that their order is not changed
    have hexact : own batch (o :: rest) = own batch h.journal.pool.waiting := by
      have hlen : (own batch h.journal.pool.waiting).length ≤ 1 :=
        hwaits.length_le.trans (by cases h.stage <;> simp [Stage.offer?])
      match hw : own batch h.journal.pool.waiting, hlen with
      | [], _ => exact (hw ▸ hown).eq_nil
      | [u], _ => exact List.perm_singleton.mp (hw ▸ hown)
    have hsplit : own batch (o :: rest) = own batch [o] ++ own batch rest :=
      own_append [o] rest
    refine { k with sound := hsound, line := ?_, waits := ?_ }
    · rw [own_append, List.append_assoc, ← hsplit, hexact]
      exact hline
    · rw [hexact.symm.trans hsplit] at hwaits
      exact (List.sublist_append_right _ _).trans hwaits
  | closing => cases serving
  | drained => cases serving
  | expired => cases serving
  | _ => exact { k with sound := hsound }

/-- The task that is being handed over and those still to be offered are of
the batch. -/
theorem mem_batch (k : Kept n batch h) {t : τ} (ht : t ∈ h.stage.task?.toList ++ h.rest) :
    t ∈ batch := by
  rw [← k.order]
  exact List.mem_append_right _ ht

/-- They are not among those that were handed over. -/
theorem not_handed (k : Kept n batch h) (distinct : batch.Nodup) {t : τ}
    (ht : t ∈ h.stage.task?.toList ++ h.rest) : t ∉ h.handles.map (·.task) := by
  intro hhanded
  rw [← k.order] at distinct
  exact (List.nodup_append.mp distinct).2.2 t hhanded t ht rfl

/-- No copy of a task that is still to be offered is known to the pool. -/
theorem not_given_of_rest (k : Kept n batch h) (distinct : batch.Nodup)
    (ready : h.stage = .ready) {t : τ} (ht : t ∈ h.rest) (again : Bool) :
    ⟨t, again⟩ ∉ h.journal.given := by
  have hplace : t ∈ h.stage.task?.toList ++ h.rest := List.mem_append_right _ ht
  have hnot := k.not_handed distinct hplace
  intro hgiven
  rcases k.of_given hgiven (k.mem_batch hplace) with hline | ⟨u, hu, heq⟩
  · rw [ready, Stage.offer?, Option.toList_none, List.append_nil] at hline
    exact hnot (List.mem_map_of_mem (f := (·.task)) hline)
  · cases heq
    rw [turned, ready, Stage.task?, Option.toList_none, List.append_nil] at hu
    exact hnot (List.map_subset _ (List.filter_subset_self _) hu)

/-- The second copy of a task is not known to the pool before it is
offered. -/
theorem not_given_of_turnedAway (k : Kept n batch h) (distinct : batch.Nodup) {t : τ}
    (away : h.stage = .turnedAway t) : ⟨t, true⟩ ∉ h.journal.given := by
  have hplace : t ∈ h.stage.task?.toList ++ h.rest := by
    rw [away]
    exact List.mem_cons_self
  have hnot := k.not_handed distinct hplace
  intro hgiven
  rcases k.of_given hgiven (k.mem_batch hplace) with hline | ⟨u, -, heq⟩
  · rw [away, Stage.offer?, Option.toList_none, List.append_nil] at hline
    exact hnot (List.mem_map_of_mem (f := (·.task)) hline)
  · cases heq

/-- The copy that is waited for is not refused. -/
theorem not_refused_of_waiting (k : Kept n batch h) {t : τ} (waiting : h.stage = .waiting t) :
    ⟨t, true⟩ ∉ h.journal.refused := by
  intro hrefused
  have hbatch : t ∈ batch := k.mem_batch (by rw [waiting]; exact List.mem_cons_self)
  have hmem : (⟨t, true⟩ : Offer τ) ∈ own batch h.journal.refused := mem_own.mpr ⟨hrefused, hbatch⟩
  rw [k.refused] at hmem
  simp at hmem

/-- Handing over does what it does where the pool takes tasks. -/
theorem handed (k : Kept n batch h) (distinct : batch.Nodup) : Handed h h.hand := by
  have hserving := k.serving
  unfold hand
  split
  · rename_i ready
    split
    · rename_i hrest
      exact .complete ready hrest
    · rename_i t rest hrest
      have hfresh := k.not_given_of_rest distinct ready (hrest ▸ List.mem_cons_self) false
      simp only [Journal.step, hfresh, if_false]
      cases hpool : h.journal.pool.trySubmit ⟨t, false⟩ with
      | ok pool =>
        obtain ⟨-, hwaiting, hroom, rfl⟩ := Pool.trySubmit_eq_ok hpool
        exact .queued t rest ready hrest hwaiting hroom
      | error why =>
        simp only [Pool.trySubmit, hserving, ne_eq, not_true, if_false] at hpool
        split at hpool
        · cases hpool
        · rename_i hfull
          cases hpool
          exact .turnedAway t rest ready hrest (by simpa [Pool.hasRoom] using hfull)
  · rename_i t away
    have hfresh := k.not_given_of_turnedAway distinct away
    simp only [Journal.step, hfresh, if_false]
    cases hpool : h.journal.pool.submit ⟨t, true⟩ with
    | ok pool =>
      obtain ⟨-, rfl⟩ := Pool.submit_eq_ok hpool
      exact .waits t away
    | error why =>
      simp only [Pool.submit, hserving, ne_eq, not_true, if_false] at hpool
      cases hpool
  · rename_i t waiting
    split
    · rename_i haccepted
      exact .arrived t waiting haccepted
    · rename_i haccepted
      rw [if_neg (k.not_refused_of_waiting waiting)]
      exact .stays t waiting haccepted
  · rename_i hstopped
    exact absurd hstopped k.going

/-- Handing over keeps all of it. -/
theorem hand (k : Kept n batch h) (distinct : batch.Nodup) : Kept n batch h.hand := by
  have hc := k.handed distinct
  have horder := k.order
  have hline := k.line
  have hwaits := k.waits
  have hrefused := k.refused
  generalize h.hand = h' at hc
  cases hc with
  | complete => exact k
  | stays => exact k
  | queued t rest ready hrest hwaiting hroom =>
    have hfresh := k.not_given_of_rest distinct ready (hrest ▸ List.mem_cons_self) false
    have hbatch : t ∈ batch := k.mem_batch (List.mem_append_right _ (hrest ▸ List.mem_cons_self))
    rw [ready, hrest] at horder
    rw [ready, hwaiting] at hline
    refine { k with
      sound := k.sound.queued hfresh k.serving, order := ?_, line := ?_, refused := ?_ }
    · rw [← horder, ready]
      simp [Stage.task?]
    · rw [ready, hwaiting, own_append, own_cons_of_mem hbatch]
      simpa [Stage.offer?] using hline
    · rw [hrefused]
      simp [turned]
  | turnedAway t rest ready hrest =>
    have hfresh := k.not_given_of_rest distinct ready (hrest ▸ List.mem_cons_self) false
    have hbatch : t ∈ batch := k.mem_batch (List.mem_append_right _ (hrest ▸ List.mem_cons_self))
    rw [ready, hrest] at horder
    rw [ready] at hline hwaits
    refine { k with
      sound := k.sound.refused hfresh, going := by simp, order := horder, line := hline
      waits := hwaits, refused := ?_ }
    rw [own_append, own_cons_of_mem hbatch, hrefused]
    simp [turned, ready, Stage.task?]
  | waits t away =>
    have hfresh := k.not_given_of_turnedAway distinct away
    have hbatch : t ∈ batch := k.mem_batch (by rw [away]; exact List.mem_cons_self)
    rw [away] at horder hline hwaits
    have hnone : own batch h.journal.pool.waiting = [] := List.sublist_nil.mp hwaits
    have hsecond : own batch (h.journal.pool.waiting ++ [⟨t, true⟩]) = [⟨t, true⟩] := by
      rw [own_append, hnone, own_cons_of_mem hbatch]
      rfl
    refine { k with
      sound := k.sound.waits hfresh k.serving, going := by simp, order := horder, line := ?_
      waits := ?_, refused := ?_ }
    · rw [hnone] at hline
      rw [hsecond]
      simpa [Stage.offer?] using hline
    · rw [hsecond]
      exact List.Sublist.refl _
    · rw [hrefused]
      simp [turned, away, Stage.task?]
  | arrived t waiting haccepted =>
    rw [waiting] at horder hline hwaits
    have hnone : own batch h.journal.pool.waiting = [] := by
      rcases List.sublist_singleton.mp hwaits with hnil | hone
      · exact hnil
      · -- a copy that was accepted does not wait
        have hmem : (⟨t, true⟩ : Offer τ) ∈ own batch h.journal.pool.waiting :=
          hone ▸ List.mem_singleton_self _
        exact absurd haccepted (k.sound.not_mem_accepted (Or.inr (mem_own.mp hmem).1))
    refine { k with going := by simp, order := ?_, line := ?_, waits := ?_, refused := ?_ }
    · rw [← horder]
      simp [Stage.task?]
    · rw [hline]
      simp [Stage.offer?]
    · rw [hnone]
      exact List.nil_sublist _
    · rw [hrefused]
      simp [turned, waiting, Stage.task?]

/-- Every turn that leaves the pool open and the batch alone keeps all of
it. -/
theorem step (k : Kept n batch h) (distinct : batch.Nodup) {turn : Turn τ}
    (steady : turn.IsSteady batch) : Kept n batch (h.step turn) := by
  cases turn with
  | hand => exact k.hand distinct
  | pool m =>
    obtain ⟨hm, hothers⟩ := steady
    refine k.pool (h.journal.step_change m) (Journal.serving_step k.serving hm) fun o ho => ?_
    rcases h.journal.given_step m with hsame | ⟨u, hu, hmore⟩
    · exact Or.inl (hsame ▸ ho)
    · rw [hmore, List.mem_append, List.mem_singleton] at ho
      refine ho.imp_right fun hnew => ?_
      rw [hnew]
      exact hothers u hu

theorem run (k : Kept n batch h) (distinct : batch.Nodup) {turns : List (Turn τ)}
    (steady : ∀ turn ∈ turns, turn.IsSteady batch) : Kept n batch (h.run turns) :=
  List.foldlRecOn turns Handover.step k fun _ k turn hturn => k.step distinct (steady turn hturn)

/-! ### What becomes of them -/

/-- The accepted copies of the batch are those of the handles, and it may be
the one that is waited for. -/
theorem accepted_cases (k : Kept n batch h) :
    own batch h.journal.accepted = h.handles
      ∨ ∃ t, h.stage = .waiting t
        ∧ own batch h.journal.accepted = h.handles ++ [⟨t, true⟩] := by
  have hline := k.line
  have hwaits := k.waits
  cases hstage : h.stage with
  | waiting t =>
    rw [hstage] at hline hwaits
    rcases List.sublist_singleton.mp hwaits with hnil | hone
    · rw [hnil, List.append_nil] at hline
      exact Or.inr ⟨t, rfl, hline⟩
    · rw [hone] at hline
      exact Or.inl (List.append_cancel_right hline)
  | _ =>
    rw [hstage] at hline hwaits
    have hnone : own batch h.journal.pool.waiting = [] := List.sublist_nil.mp hwaits
    rw [hnone] at hline
    exact Or.inl (by simpa [Stage.offer?] using hline)

/-- A copy that is waited for and does not wait was accepted. -/
theorem accepted_of_idle (k : Kept n batch h) {t : τ} (waiting : h.stage = .waiting t)
    (idle : h.journal.pool.waiting = []) : ⟨t, true⟩ ∈ h.journal.accepted := by
  have hline := k.line
  rw [waiting, idle, own_nil, List.append_nil] at hline
  have hmem : (⟨t, true⟩ : Offer τ) ∈ own batch h.journal.accepted := by
    rw [hline]
    exact List.mem_append_right _ (List.mem_singleton_self _)
  exact (mem_own.mp hmem).1

/-- The tasks of the accepted copies are the first of the batch, each once. -/
theorem accepted_prefix (k : Kept n batch h) :
    (own batch h.journal.accepted).map (·.task) <+: batch := by
  have horder := k.order
  rcases k.accepted_cases with hall | ⟨t, waiting, hall⟩
  · rw [hall]
    exact ⟨_, horder⟩
  · rw [waiting] at horder
    rw [hall, List.map_append]
    exact ⟨h.rest, by rw [← horder]; simp [Stage.task?]⟩

/-- Tasks are executed once and in the order of the batch. -/
theorem executed_prefix (k : Kept n batch h) : executed batch h <+: batch :=
  ((k.sound.started_prefix.filter _).map _).trans k.accepted_prefix

theorem mem_accepted (k : Kept n batch h) {o : Offer τ} (ho : o ∈ h.handles) :
    o ∈ h.journal.accepted ∧ o.task ∈ batch := by
  rw [← mem_own]
  rcases k.accepted_cases with hall | ⟨t, -, hall⟩
  · rw [hall]
    exact ho
  · rw [hall]
    exact List.mem_append_left _ ho

/-- The first copies that were refused are those of the tasks that there was
no place for. -/
theorem refused_iff (k : Kept n batch h) {t : τ} :
    ⟨t, false⟩ ∈ h.journal.refused ∧ t ∈ batch ↔ t ∈ h.turned := by
  have hmem : (⟨t, false⟩ : Offer τ) ∈ own batch h.journal.refused ↔ t ∈ h.turned := by
    rw [k.refused]
    simp
  rw [← hmem, mem_own]

/-- A handle is of a second copy exactly if the first was refused. -/
theorem again_iff (k : Kept n batch h) {o : Offer τ} (ho : o ∈ h.handles) :
    o.again = true ↔ ⟨o.task, false⟩ ∈ h.journal.refused := by
  obtain ⟨haccepted, hbatch⟩ := k.mem_accepted ho
  constructor
  · intro hagain
    have hturned : o.task ∈ h.turned :=
      List.mem_append_left _ (List.mem_map_of_mem (List.mem_filter.mpr ⟨ho, hagain⟩))
    exact (k.refused_iff.mpr hturned).1
  · intro hrefused
    by_contra hfirst
    have hsame : (⟨o.task, false⟩ : Offer τ) = o := by
      obtain ⟨t, again⟩ := o
      simpa using hfirst
    exact k.sound.not_mem_accepted (Or.inl hrefused) (hsame ▸ haccepted)

/-- A task whose first copy was refused, and no other, is offered again. -/
theorem second_iff (k : Kept n batch h) {t : τ} (ht : t ∈ batch) :
    ⟨t, false⟩ ∈ h.journal.refused ↔ h.stage = .turnedAway t ∨ ⟨t, true⟩ ∈ h.journal.given := by
  have hline : ∀ o ∈ h.handles ++ h.stage.offer?.toList, o ∈ h.journal.given := by
    intro o ho
    rw [← k.line, List.mem_append, mem_own, mem_own] at ho
    refine k.sound.given.subset ?_
    exact ho.elim (fun ha => List.mem_append_right _ (List.mem_append_left _ ha.1))
      fun hw => List.mem_append_left _ hw.1
  constructor
  · intro hrefused
    rcases List.mem_append.mp (k.refused_iff.mp ⟨hrefused, ht⟩) with hhanded | hstage
    · obtain ⟨o, ho, rfl⟩ := List.mem_map.mp hhanded
      obtain ⟨ho, hagain⟩ := List.mem_filter.mp ho
      obtain ⟨t, again⟩ := o
      obtain rfl : again = true := hagain
      exact Or.inr (hline _ (List.mem_append_left _ ho))
    · cases hs : h.stage with
      | ready => simp [hs, Stage.task?] at hstage
      | stopped => exact absurd hs k.going
      | turnedAway v =>
        obtain rfl : t = v := by simpa [hs, Stage.task?] using hstage
        exact Or.inl rfl
      | waiting v =>
        obtain rfl : t = v := by simpa [hs, Stage.task?] using hstage
        have hlast : (⟨t, true⟩ : Offer τ) ∈ h.stage.offer?.toList := by
          rw [hs]
          exact List.mem_singleton_self _
        exact Or.inr (hline _ (List.mem_append_right _ hlast))
  · rintro (away | hgiven)
    · have hturned : t ∈ h.turned := List.mem_append_right _ (by rw [away]; exact List.mem_cons_self)
      exact (k.refused_iff.mpr hturned).1
    · rcases k.of_given hgiven ht with hplace | ⟨u, -, heq⟩
      · rcases List.mem_append.mp hplace with ho | hstage
        · exact (k.again_iff ho).mp rfl
        · have waiting : h.stage = .waiting t := by
            cases hs : h.stage <;> simp [hs, Stage.offer?] at hstage
            rw [hstage]
          have hturned : t ∈ h.turned :=
            List.mem_append_right _ (by rw [waiting]; exact List.mem_cons_self)
          exact (k.refused_iff.mpr hturned).1
      · cases heq

end Kept

/-! ### What is still to be done -/

omit [DecidableEq τ] in
/-- Handing over goes on, unless all is handed over or the pool has not yet
accepted the copy that is waited for. -/
theorem Handed.work {h h' : Handover τ} (hc : Handed h h') :
    (h' = h ∧ ((h.stage = .ready ∧ h.rest = [])
        ∨ ∃ t, h.stage = .waiting t ∧ ⟨t, true⟩ ∉ h.journal.accepted))
      ∨ h'.work < h.work := by
  cases hc with
  | complete ready hrest => exact Or.inl ⟨rfl, Or.inl ⟨ready, hrest⟩⟩
  | stays t waiting hnot => exact Or.inl ⟨rfl, Or.inr ⟨t, waiting, hnot⟩⟩
  | queued t rest ready hrest =>
    right
    simp only [Handover.work, Pool.load, ready, hrest, Stage.work, List.length_cons,
      List.length_append, List.length_nil]
    omega
  | turnedAway t rest ready hrest =>
    right
    simp only [Handover.work, ready, hrest, Stage.work, List.length_cons]
    omega
  | waits t away =>
    right
    simp only [Handover.work, Pool.load, away, Stage.work, List.length_append, List.length_cons,
      List.length_nil]
    omega
  | arrived t waiting =>
    right
    simp only [Handover.work, waiting, Stage.work]
    omega

namespace Kept

variable {n : Nat} {batch : List τ} {h : Handover τ}

/-- A turn without new tasks does nothing, or less is to be done after it. -/
theorem work_step (k : Kept n batch h) (distinct : batch.Nodup) {turn : Turn τ}
    (inner : turn.IsInner) : h.step turn = h ∨ (h.step turn).work < h.work := by
  cases turn with
  | hand => exact (k.handed distinct).work.imp_left (·.1)
  | pool m =>
    obtain ⟨hm, hnone⟩ := inner
    have hgiven : (h.journal.step m).given = h.journal.given := by
      rcases h.journal.given_step m with hsame | ⟨u, hu, -⟩
      · exact hsame
      · rw [hnone] at hu
        cases hu
    rcases (h.journal.step_change m).load k.serving (Journal.serving_step k.serving hm) hgiven with
      hsame | hless
    · exact Or.inl (by rw [Handover.step, hsame])
    · right
      simp only [Handover.step, Handover.work]
      omega

/-- As long as something is to be done, some turn without new tasks does
it. -/
theorem progress (k : Kept n batch h) (distinct : batch.Nodup) (workers : 0 < n)
    (left : 0 < h.work) :
    ∃ turn : Turn τ, turn.IsInner ∧ (h.step turn).work < h.work := by
  have hfalls : ∀ m : Workers.Move (Offer τ), m ≠ .shutdown → m.given? = none →
      (h.journal.step m).pool ≠ h.journal.pool →
        ∃ turn : Turn τ, turn.IsInner ∧ (h.step turn).work < h.work := by
    intro m hm hnone hmoved
    have inner : (Turn.pool m).IsInner := ⟨hm, hnone⟩
    refine ⟨.pool m, inner, (k.work_step distinct inner).resolve_left fun hsame => ?_⟩
    exact hmoved (congrArg (fun h => h.journal.pool) hsame)
  cases hrunning : h.journal.pool.running with
  | cons o others =>
    -- a task that runs comes to its end
    refine hfalls (.finish o false) (by simp) rfl fun hsame => ?_
    have hfewer := congrArg (fun p => p.running.length) hsame
    simp [Journal.step, Pool.finish, hrunning] at hfewer
  | nil =>
    cases hheld : h.journal.pool.held with
    | some o =>
      refine hfalls .start (by simp) rfl fun hsame => ?_
      have hfree : h.journal.pool.running.length < h.journal.pool.workers := by
        rw [hrunning, k.sound.workers]
        exact workers
      have hnone := congrArg (fun p => p.held) hsame
      simp [Journal.step, Pool.start?, hheld, hfree] at hnone
    | none =>
      cases hqueue : h.journal.pool.queue with
      | cons o others =>
        refine hfalls .take (by simp) rfl fun hsame => ?_
        have hsome := congrArg (fun p => p.held) hsame
        simp [Journal.step, Pool.take?, hheld, hqueue] at hsome
      | nil =>
        cases hwaiting : h.journal.pool.waiting with
        | cons o others =>
          refine hfalls (.accept 0) (by simp) rfl fun hsame => ?_
          have hfewer := congrArg (fun p => p.waiting.length) hsame
          simp [Journal.step, Pool.favour, Pool.accept?, Pool.hasRoom, hwaiting, hqueue,
            k.places] at hfewer
        | nil =>
          -- the pool is idle, and so it is the next step to hand over
          refine ⟨.hand, trivial, (k.handed distinct).work.resolve_left ?_⟩
          rintro ⟨-, ⟨ready, hrest⟩ | ⟨t, waiting, hnot⟩⟩
          · simp [Handover.work, Pool.load, ready, hrest, Stage.work, hrunning, hheld, hqueue,
              hwaiting] at left
          · exact hnot (k.accepted_of_idle waiting hwaiting)

/-- When nothing is to be done any more, all tasks have been executed. -/
theorem done (k : Kept n batch h) (none_left : h.work = 0) :
    (h.rest = [] ∧ h.stage = .ready) ∧ h.handles.map (·.task) = batch
      ∧ executed batch h = batch
      ∧ ∀ o ∈ h.handles, h.journal.handle? o = some .completed
          ∨ h.journal.handle? o = some .failed := by
  simp only [Handover.work, Pool.load, Nat.add_eq_zero_iff, Nat.mul_eq_zero,
    List.length_eq_zero_iff, Option.toList_eq_nil_iff, reduceCtorEq, false_or] at none_left
  obtain ⟨⟨hrest, hstage⟩, ⟨⟨hwaiting, hqueue⟩, hheld⟩, hrunning⟩ := none_left
  have ready : h.stage = .ready := by
    cases hs : h.stage with
    | ready => rfl
    | stopped => exact absurd hs k.going
    | turnedAway t => rw [hs] at hstage; cases hstage
    | waiting t => rw [hs] at hstage; cases hstage
  have horder := k.order
  rw [ready, hrest] at horder
  have hall : h.handles.map (·.task) = batch := by simpa [Stage.task?] using horder
  have hgone : h.journal.abandoned = [] := k.sound.abandoned_eq_nil (Or.inr (Or.inl k.serving))
  have hstarted : h.journal.accepted = h.journal.started := by
    rw [k.sound.order, hheld, hqueue, hgone]
    simp
  have hhandles : own batch h.journal.accepted = h.handles := by
    rcases k.accepted_cases with hsame | ⟨t, waiting, -⟩
    · exact hsame
    · rw [ready] at waiting
      cases waiting
  refine ⟨⟨hrest, ready⟩, hall, ?_, fun o ho => ?_⟩
  · rw [executed, ← hstarted, hhandles, hall]
  · have haccepted := (k.mem_accepted ho).1
    rcases k.sound.handle?_cases haccepted with ⟨u, hu, -, -, htold⟩ | ⟨-, -, -, hopen⟩ |
      ⟨-, habandoned, -⟩
    · rw [htold]
      cases u with
      | completed => exact Or.inl rfl
      | failed => exact Or.inr rfl
      | cancelled => exact absurd rfl (k.sound.ran _ hu)
    · have hplace := (k.sound.handle?_eq_none haccepted).mp hopen
      simp [hqueue, hheld, hrunning] at hplace
    · rw [hgone] at habandoned
      cases habandoned

end Kept

/-- **Every job of a batch is run once.** A batch that was claimed is handed
over to any pool that takes tasks and does not know the batch yet, and
whatever else happens to the pool, in whatever order, but that it is closed
or given the same jobs by others:

* the handles are those of the first jobs of the batch in the order of their
  numbers, and of all jobs once all are handed over. Handing over is not
  broken off before that;
* every handle is of a copy that the pool accepted, and that is the second
  copy exactly if the first was refused. The jobs that are offered again are
  those whose first copy was refused, and no refused copy is ever started;
* the jobs of which the pool accepted a copy, and those that were started,
  are the first of the batch, each once and in the order of their numbers.

Where nobody else gives tasks to the pool, every turn does nothing or leaves
less to be done, and as long as anything is to be done some turn does it.
When nothing is, all jobs are handed over, each was executed once, and every
handle tells how. -/
theorem dispatched_exactly_once {workers depth : Nat} {p : Pool (Offer Job)}
    (made : Pool.create? workers depth = some p) (before : List (Workers.Move (Offer Job)))
    {j : Journal (Offer Job)} (reached : ({ pool := p } : Journal (Offer Job)).run before = j)
    (serving : j.pool.phase = .serving)
    {c c' : Connection} (ordered : c.store.Ordered) {size : Int} {batch : List Job}
    (claimed : c.claim size = (.ok batch, c')) (fresh : ∀ o ∈ j.given, o.task ∉ batch)
    (turns : List (Turn Job)) (steady : ∀ turn ∈ turns, turn.IsSteady batch) :
    let h := Handover.run { journal := j, rest := batch } turns
    (batch.Pairwise fun a b => a.id < b.id)
      ∧ h.handles.map (·.task) <+: batch ∧ h.stage ≠ .stopped
      ∧ (h.rest = [] ∧ h.stage = .ready → h.handles.map (·.task) = batch)
      ∧ (∀ o ∈ h.handles, o ∈ h.journal.accepted
          ∧ (o.again = true ↔ ⟨o.task, false⟩ ∈ h.journal.refused))
      ∧ (∀ job ∈ batch, ⟨job, false⟩ ∈ h.journal.refused ↔
          h.stage = .turnedAway job ∨ ⟨job, true⟩ ∈ h.journal.given)
      ∧ (∀ o ∈ h.journal.refused, o ∉ h.journal.started)
      ∧ (own batch h.journal.accepted).map (·.task) <+: batch ∧ executed batch h <+: batch
      ∧ (∀ turn : Turn Job, turn.IsInner → h.step turn = h ∨ (h.step turn).work < h.work)
      ∧ (0 < h.work → ∃ turn : Turn Job, turn.IsInner ∧ (h.step turn).work < h.work)
      ∧ (h.work = 0 → (h.rest = [] ∧ h.stage = .ready) ∧ h.handles.map (·.task) = batch
          ∧ executed batch h = batch
          ∧ ∀ o ∈ h.handles, h.journal.handle? o = some .completed
              ∨ h.journal.handle? o = some .failed) := by
  intro h
  have sorted : batch.Pairwise fun a b => a.id < b.id :=
    (Connection.claim_eq_ok claimed).1 ▸ ordered.claimed size
  have distinct : batch.Nodup := sorted.imp fun {a b} hlt heq => by
    rw [heq] at hlt
    exact Int.lt_irrefl _ hlt
  have hsound : j.Sound _ := reached ▸ (Journal.Sound.start made).run before
  have hplaces : 0 < j.pool.depth := by
    have hdepth : j.pool.depth = max 1 depth :=
      reached ▸ ((Journal.Fits.start made).run before).depth
    omega
  have k : Kept (max 1 (min workers Workers.maxWorkers)) batch h :=
    (Kept.start hsound serving hplaces fresh).run distinct steady
  refine ⟨sorted, ⟨_, k.order⟩, k.going, ?_, fun o ho => ⟨(k.mem_accepted ho).1, k.again_iff ho⟩,
    fun job hjob => k.second_iff hjob, ?_, k.accepted_prefix, k.executed_prefix,
    fun turn inner => k.work_step distinct inner, k.progress distinct (by omega), k.done⟩
  · rintro ⟨hrest, ready⟩
    have horder := k.order
    rw [hrest, ready] at horder
    simpa [Stage.task?] using horder
  · intro o ho hstarted
    exact k.sound.not_mem_accepted (Or.inl ho) (k.sound.started_prefix.subset hstarted)

/-- A pool of one worker and one place, both of them taken. -/
def crowded : Journal (Offer Job) :=
  ({ pool := { workers := 1, depth := 1 } } : Journal (Offer Job)).run
    [.trySubmit ⟨{ (default : Job) with id := 0 }, false⟩, .take, .start,
      .trySubmit ⟨{ (default : Job) with id := 1 }, false⟩]

/-- The jobs that wait in a store. -/
def threeJobs : List Job :=
  (Store.mixedRows.claim 3).2

/-- Two jobs are turned away and offered again, the third finds a place. -/
def crowdedTurns : List (Turn Job) :=
  let other (id : Int) : Offer Job := ⟨{ (default : Job) with id }, false⟩
  let again (place : Nat) : Offer Job := ⟨threeJobs.getD place default, true⟩
  [.hand, .hand, .pool .take, .pool (.accept 0), .hand, .hand, .pool (.finish (other 0) false),
    .pool .start, .pool .take, .hand, .pool (.accept 0), .hand, .pool (.finish (other 1) true),
    .pool .start, .pool .take, .hand, .pool (.finish (again 0) false), .pool .start, .pool .take,
    .pool (.finish (again 1) false), .pool .start,
    .pool (.finish ⟨threeJobs.getD 2 default, false⟩ false)]

/-- All of them are executed. -/
theorem dispatched_exactly_once_crowded :
    let h := run { journal := crowded, rest := threeJobs } crowdedTurns
    threeJobs.map (·.id) = [2, 5, 8] ∧ h.handles.map (·.again) = [true, true, false]
      ∧ h.handles.map (·.task) = threeJobs ∧ executed threeJobs h = threeJobs := by
  intro h
  have claimed : ({ store := Store.mixedRows } : Connection).claim 3
      = (.ok threeJobs, { store := (Store.mixedRows.claim 3).1 }) := rfl
  have made : Pool.create? 1 1 = some ({ workers := 1, depth := 1 } : Pool (Offer Job)) := rfl
  obtain ⟨-, -, -, -, -, -, -, -, -, -, -, hdone⟩ :=
    dispatched_exactly_once made _ (rfl : _ = crowded) (by decide +kernel)
      (show Store.mixedRows.Ordered by decide) claimed (by decide +kernel) crowdedTurns
      (by decide +kernel)
  obtain ⟨-, hhandles, hexecuted, -⟩ := hdone (by decide +kernel)
  exact ⟨by decide +kernel, by decide +kernel, hhandles, hexecuted⟩

end Handover

end Rounds

end CallAudit
