import Latchwork.Text.Basic

/-!
# Logs

What is reported while work goes on, in order.
-/

namespace Latchwork

/-- How much a report matters. -/
inductive LogLevel where
  | debug
  | info
  deriving DecidableEq, Repr

/-- A report. -/
structure LogEntry where
  level : LogLevel
  message : Text
  deriving DecidableEq, Repr

namespace LogEntry

/-- A detail. -/
def debug (message : Text) : LogEntry := ⟨.debug, message⟩

/-- A report of a step. -/
def info (message : Text) : LogEntry := ⟨.info, message⟩

end LogEntry

end Latchwork
