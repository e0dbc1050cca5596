/-!
# Log records

The stages report what they do as records, which are data like every other
result.
-/

namespace SmallC.Log

/-- How much a record matters, the most important first. -/
inductive Severity where
  | warning
  | debug
  | trace
  deriving DecidableEq, Inhabited, Repr

/-- The rank of a severity, zero for the most important. -/
def Severity.rank : Severity → Nat
  | .warning => 0
  | .debug => 1
  | .trace => 2

/-- The stage that reports. -/
inductive Stage where
  | scanner
  | preprocessor
  | parser
  | pipeline
  deriving DecidableEq, Inhabited, Repr

/-- One report. -/
structure Record where
  /-- How much it matters. -/
  severity : Severity
  /-- Who reports. -/
  stage : Stage
  /-- The text of the report. -/
  message : String
  deriving DecidableEq, Inhabited, Repr

/-- The records that are no less important than a severity. -/
def upTo (least : Severity) (records : List Record) : List Record :=
  records.filter fun r => r.severity.rank ≤ least.rank

end SmallC.Log
