/-
CallAudit.Main — the command line.

The commands work on a store in memory, which is empty at the start of
each.
-/
import CallAudit.Operator

open CallAudit in
/-- Runs one command. The variables it looks at are those it needs. -/
def main (args : List String) : IO UInt32 := do
  let names := ["DATABASE_URL", "TEST_DATABASE_URL", "CALL_AUDIT_RULE_CEILING"]
  let values ← names.mapM fun name => do return (name, ← IO.getEnv name)
  let env : Variables := fun name => (values.find? fun v => v.1 == name).bind (·.2)
  let (report, _) := Operator.run env args fun _ => .ok {}
  IO.print report.out
  IO.eprint report.err
  return report.code.toUInt32
