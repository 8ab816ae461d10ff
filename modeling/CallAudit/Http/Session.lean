/-
CallAudit.Http.Session — conversations with services.

* `Request`, `Response` — what is asked of a service and what it answers.
* `Session` — a conversation as a tree: it is over, or it asks for
  something and goes on as the reply says. A request without a reply has
  failed on its way.
* `Session.bind` — one conversation after another.
* `Session.run` — a conversation with services that have a state.
* `unreached` — services of which none can be reached.
-/
import CallAudit.Json.Value
import CallAudit.Time.Instant

namespace CallAudit.Http

open CallAudit.Json (Value)
open CallAudit.Time (Span)

/-! ## Requests and replies -/

/-- What is done with what a URL names. -/
inductive Method where
  | get
  | post
  | patch
deriving DecidableEq, Repr

/-- The name of a method. -/
def Method.name : Method → String
  | get => "GET"
  | post => "POST"
  | patch => "PATCH"

/-- A request. -/
structure Request where
  method : Method
  url : String
  /-- The token of the call history services. -/
  access : Option String := none
  authorization : Option String := none
  /-- What is sent along, as JSON. -/
  body : Option Value := none
  /-- How long the reply is waited for. -/
  timeout : Span

/-- An answer: its status and the text of its body. -/
structure Response where
  status : Nat
  body : String
deriving DecidableEq, Repr

/-- Whether a status says that what was asked for was done. -/
def Response.isSuccess (r : Response) : Bool :=
  200 ≤ r.status && r.status < 300

/-- What becomes of a request: an answer, or none. -/
abbrev Reply := Option Response

/-! ## Conversations -/

/-- A conversation. A request is made some time after what was before
it. -/
inductive Session (α : Type) where
  | done (a : α)
  | ask (delay : Span) (request : Request) (next : Reply → Session α)

namespace Session

variable {α β σ : Type}

/-- A conversation that goes on when another one is over. -/
def bind : Session α → (α → Session β) → Session β
  | done a, f => f a
  | ask delay request next, f => ask delay request fun reply => (next reply).bind f

instance : Monad Session where
  pure := done
  bind := bind

/-- A single request, and what is made of its reply. -/
def request (delay : Span) (r : Request) (read : Reply → α) : Session α :=
  ask delay r fun reply => done (read reply)

/-- A conversation held with services. -/
def run (serve : σ → Request → Reply × σ) : σ → Session α → α × σ
  | s, done a => (a, s)
  | s, ask _ r next =>
    let (reply, s) := serve s r
    run serve s (next reply)

end Session

/-- Services of which none can be reached: every request fails on its way. -/
def unreached {σ : Type} (s : σ) (_ : Request) : Reply × σ :=
  (none, s)

end CallAudit.Http
