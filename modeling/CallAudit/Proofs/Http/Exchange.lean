/-
CallAudit.Proofs.Http.Exchange — what is said in a conversation.

* `Exchange`, `noted` — a request with its reply, and services that keep a
  list of what was exchanged with them.
* `Session.Goes` — the exchanges a conversation can consist of and the
  result it then ends with. Nothing is asked of the replies, so what is
  shown of every such list holds whatever services answer.
* `goes_bind` — a conversation that goes on when another is over splits
  into the exchanges of the two. Every proof about a conversation takes it
  apart along its steps in this way.
* `run_noted` — what services note of a conversation is a list it can
  consist of.
-/
import CallAudit.Http.Session

namespace CallAudit.Http

/-- A request and what became of it. -/
abbrev Exchange := Request × Reply

/-- Services that keep a list of what was exchanged with them. -/
def noted {σ : Type} (serve : σ → Request → Reply × σ) (s : σ × List Exchange) (r : Request) :
    Reply × (σ × List Exchange) :=
  let (reply, after) := serve s.1 r
  (reply, (after, s.2 ++ [(r, reply)]))

namespace Session

variable {α β σ : Type}

/-- A conversation can consist of some exchanges, one after the other, and
then ends with a result. -/
def Goes : Session α → List Exchange → α → Prop
  | done a, log, b => log = [] ∧ b = a
  | ask _ r next, log, b => ∃ reply rest, log = (r, reply) :: rest ∧ (next reply).Goes rest b

@[simp] theorem goes_done {a b : α} {log : List Exchange} :
    (done a).Goes log b ↔ log = [] ∧ b = a := Iff.rfl

theorem goes_ask {delay : Time.Span} {r : Request} {next : Reply → Session α}
    {log : List Exchange} {b : α} :
    (ask delay r next).Goes log b ↔
      ∃ reply rest, log = (r, reply) :: rest ∧ (next reply).Goes rest b := Iff.rfl

/-- A single request is one exchange. -/
theorem goes_request {delay : Time.Span} {r : Request} {read : Reply → α} {log : List Exchange}
    {b : α} : (request delay r read).Goes log b ↔ ∃ reply, log = [(r, reply)] ∧ b = read reply := by
  rw [request, goes_ask]
  constructor
  · rintro ⟨reply, rest, rfl, rfl, hb⟩
    exact ⟨reply, rfl, hb⟩
  · rintro ⟨reply, rfl, hb⟩
    exact ⟨reply, [], rfl, rfl, hb⟩

/-- One conversation after another consists of the exchanges of the first
and then those of the second. -/
theorem goes_bind {s : Session α} {f : α → Session β} {log : List Exchange} {b : β} :
    (s.bind f).Goes log b ↔
      ∃ before a after, log = before ++ after ∧ s.Goes before a ∧ (f a).Goes after b := by
  induction s generalizing log with
  | done a =>
    constructor
    · exact fun h => ⟨[], a, log, rfl, ⟨rfl, rfl⟩, h⟩
    · rintro ⟨before, a', after, rfl, ⟨rfl, rfl⟩, h⟩
      exact h
  | ask delay r next ih =>
    rw [bind, goes_ask]
    constructor
    · rintro ⟨reply, rest, rfl, h⟩
      obtain ⟨before, a, after, rfl, hbefore, hafter⟩ := (ih reply).mp h
      exact ⟨(r, reply) :: before, a, after, rfl, ⟨reply, before, rfl, hbefore⟩, hafter⟩
    · rintro ⟨_, a, after, rfl, ⟨reply, before, rfl, hbefore⟩, hafter⟩
      exact ⟨reply, before ++ after, rfl, (ih reply).mpr ⟨before, a, after, rfl, hbefore, hafter⟩⟩

/-- One conversation after another is held with what the first one leaves of
the services. -/
theorem run_bind (serve : σ → Request → Reply × σ) (session : Session α) (f : α → Session β) :
    ∀ s : σ, (session.bind f).run serve s
      = (f (session.run serve s).1).run serve (session.run serve s).2 := by
  induction session with
  | done a => exact fun s => rfl
  | ask delay r next ih => exact fun s => ih (serve s r).1 (serve s r).2

/-- What services note of a conversation is what it consists of. -/
theorem run_noted (serve : σ → Request → Reply × σ) (session : Session α) :
    ∀ (s : σ) (log : List Exchange), ∃ log',
      (session.run (noted serve) (s, log)).2.2 = log ++ log'
        ∧ session.Goes log' (session.run (noted serve) (s, log)).1 := by
  induction session with
  | done a => exact fun s log => ⟨[], by simp [run], rfl, rfl⟩
  | ask delay r next ih =>
    intro s log
    obtain ⟨rest, hrest, hgoes⟩ := ih (serve s r).1 (serve s r).2 (log ++ [(r, (serve s r).1)])
    refine ⟨(r, (serve s r).1) :: rest, ?_, (serve s r).1, rest, rfl, hgoes⟩
    rw [List.append_cons]
    exact hrest

end Session

end CallAudit.Http
