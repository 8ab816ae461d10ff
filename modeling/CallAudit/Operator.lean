/-
CallAudit.Operator — commands for whoever looks after the store.

* `Report` — what a command prints and its exit code.
* `ceilingOf` — the ceiling a command works with.
* `run` — a command on a store.
-/
import CallAudit.Settings.Load
import CallAudit.Store.Connection
import CallAudit.Text.Quoted

namespace CallAudit.Operator

/-! ## Reports -/

/-- What a command prints, and its exit code. -/
structure Report where
  code : Nat
  out : String := ""
  err : String := ""
deriving DecidableEq, Repr

/-- Lines, each with its line end. -/
def linesOf (ls : List String) : String :=
  String.join (ls.map (· ++ "\n"))

/-- A command that succeeded. -/
def success (ls : List String) : Report := ⟨0, linesOf ls, ""⟩

/-- A command that failed. -/
def failed (message : String) : Report := ⟨1, "", linesOf ["Error: " ++ message]⟩

/-- How the commands are used. -/
def usage : String :=
  linesOf
    ["auditctl <command>", "Commands:",
      "- migrate   apply schema migrations",
      "- reset     discard every job (what a worker does on start)",
      "- rules     enabled rules with outstanding jobs and watermark",
      "- stats     job counts per rule and state",
      "- enqueue   run one rule evaluation pass",
      "- reap      retire done jobs and advance watermarks",
      "", "Uses DATABASE_URL or TEST_DATABASE_URL."]

/-! ## Settings -/

/-- The address of the store: the first of two variables that is there. -/
def database? (env : Variables) : Option String :=
  (env "DATABASE_URL").or (env "TEST_DATABASE_URL")

/-- The ceiling: a positive number, without anything around it. -/
def ceilingOf (env : Variables) : Int :=
  let read (s : String) : Option Int :=
    (Number.int? (-9223372036854775808) Settings.maxInt64 s.toList).filter (0 < ·)
  ((env "CALL_AUDIT_RULE_CEILING").bind read).getD ({} : RoundSettings).ceiling

/-! ## Commands -/

/-- A number in digits. -/
def number (n : Int) : String := String.ofList (Json.intText n)

/-- A rule on a line. -/
def ruleLine (ceiling : Int) (r : Rule) : String :=
  let mode :=
    match r.scorecard.filter (· ≠ 0) with
    | some id => "scorecard:" ++ number id
    | none => "summary"
  "rule " ++ number r.id ++ " domain=" ++ number r.domain ++ " name=" ++ Text.quoted r.name
    ++ " mode=" ++ mode ++ " active=" ++ number r.active ++ "/" ++ number ceiling
    ++ " last=" ++ r.resumeAt.display ++ " direction=" ++ r.directionFilter.getD "any"
    ++ " target=" ++ r.targetField.getD "-"

/-- The jobs of a rule on a line. -/
def countsLine (c : Store.Counts) : String :=
  "rule " ++ number c.rule ++ ": queued=" ++ number c.tally.queued ++ " in_progress="
    ++ number c.tally.inProgress ++ " done=" ++ number c.tally.done

/-- The watermark of a rule on a line. -/
def movedLine (m : Store.Moved) : String :=
  "rule " ++ number m.rule ++ ": reaped=" ++ number m.reaped ++ " last_stored_at="
    ++ m.watermark.display

/-- A pass over the rules on a line. -/
def passLine (p : Store.Pass) : String :=
  "rules=" ++ number p.rules ++ " inserted=" ++ number p.inserted ++ " failed_rules="
    ++ number p.failed

/-- Lines, or one that says that there are none. -/
def orElseLine (empty : String) (ls : List String) : List String :=
  if ls.isEmpty then [empty] else ls

/-- The report of a statement. -/
def reportOf {α : Type} (answer : Connection.Answer α) (lines : α → List String) :
    Report × Connection :=
  (match answer.1 with
    | .ok a => success (lines a)
    | .error t => failed t.message, answer.2)

/-- A command on a store. -/
def command (env : Variables) (c : Connection) : String → Report × Connection
  | "migrate" => reportOf (c.ask fun _ => ()) fun _ => ["migrations OK"]
  | "reset" => reportOf c.discardAll fun _ => ["reset OK"]
  | "rules" =>
    reportOf (c.runnable Settings.maxInt64) fun rules =>
      orElseLine "no enabled rules" (rules.map (ruleLine (ceilingOf env)))
  | "stats" => reportOf c.countsByRule fun cs => orElseLine "no jobs" (cs.map countsLine)
  | "enqueue" => reportOf (c.enqueueAll (ceilingOf env)) fun pass => [passLine pass]
  | "reap" => reportOf c.reap fun ms => orElseLine "nothing to reap" (ms.map movedLine)
  | other => (⟨2, "", linesOf ["Unknown command: " ++ other, "", usage]⟩, c)

/-- A command line. `connect` opens the store at an address. -/
def run (env : Variables) (args : List String) (connect : String → Except Trouble Connection) :
    Report × Option Connection :=
  match args with
  | [] => (⟨2, "", linesOf [usage]⟩, none)
  | name :: _ =>
    match database? env with
    | none => (failed "DATABASE_URL or TEST_DATABASE_URL must be set", none)
    | some url =>
      match connect url with
      | .error t => (failed t.message, none)
      | .ok c =>
        let (report, c) := command env c name
        (report, some c)

end CallAudit.Operator
