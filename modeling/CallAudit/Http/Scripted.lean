/-
CallAudit.Http.Scripted — services that answer as a script says.

* `Route` — which requests a line of the script is for, how often, and what
  is answered.
* `Scripted` — a script with how often each line was used, and the
  requests that arrived.
* `Scripted.serve` — the reply to a request. A request that cannot be sent
  does not arrive.
-/
import CallAudit.Http.Charset
import CallAudit.Http.Session
import CallAudit.Http.Url

namespace CallAudit.Http

/-- What is answered: some bytes, or nothing, so that the request fails on
its way. -/
inductive Answer where
  | lost
  | given (status : Nat) (contentType : Option String) (bytes : List UInt8)
deriving DecidableEq, Repr

/-- A line of a script. What is not said of the requests it is for does not
matter. -/
structure Route where
  method : Option String := none
  target : Option String := none
  times : Option Nat := none
  answer : Answer := .given 200 none []
  /-- Whether the answer is held back until the gate is open. -/
  gated : Bool := false
deriving DecidableEq, Repr

/-- A request that arrived, with the path and the query it arrived for. -/
structure Sent where
  target : String
  request : Request

/-- A script at work. -/
structure Scripted where
  routes : List (Route × Nat)
  log : List Sent := []

namespace Scripted

/-- A script of which no line was used. -/
def ofRoutes (routes : List Route) : Scripted :=
  ⟨routes.map fun r => (r, 0), []⟩

/-- Whether a text can be sent as a header: it has no control character but
the tab. -/
def isHeader (s : String) : Bool :=
  s.toList.all fun c => c == '\t' || (32 ≤ c.toNat && c.toNat != 127)

/-- What a request arrives for, if it can be sent. -/
def arrival? (r : Request) : Option String :=
  if (r.access.all isHeader) && (r.authorization.all isHeader) then target? r.url else none

/-- Whether a line is for a request and may still be used. -/
def Route.isFor (route : Route) (used : Nat) (method target : String) : Bool :=
  (route.method.all (· == method)) && (route.target.all (· == target))
    && (route.times.all fun most => used < most)

/-- The first line for a request, and the script with one more use of
it. -/
def take (method target : String) : List (Route × Nat) → Option (Route × List (Route × Nat))
  | [] => none
  | (route, used) :: rest =>
    if Route.isFor route used method target then some (route, (route, used + 1) :: rest)
    else (take method target rest).map fun (found, rest) => (found, (route, used) :: rest)

/-- What comes back of an answer. -/
def replyOf : Answer → Reply
  | .lost => none
  | .given status contentType bytes =>
    let bytes := if status = 204 ∨ status = 304 then [] else bytes
    some ⟨status, bodyText (.ofContentType contentType) bytes⟩

/-- A request arrives, and a line of the script is found for it. Without
one it is answered that nothing was found. -/
def arrive (s : Scripted) (r : Request) : Option (Route × Scripted) :=
  (arrival? r).map fun target =>
    let s := { s with log := s.log ++ [⟨target, r⟩] }
    match take r.method.name target s.routes with
    | some (route, routes) => (route, { s with routes := routes })
    | none => ({ answer := .given 404 none [] }, s)

/-- The reply to a request. -/
def serve (s : Scripted) (r : Request) : Reply × Scripted :=
  match s.arrive r with
  | some (route, s) => (replyOf route.answer, s)
  | none => (none, s)

end Scripted

end CallAudit.Http
