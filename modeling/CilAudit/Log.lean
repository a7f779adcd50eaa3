import CilAudit.Text

/-!
# Log

What the analyses tell besides their results: entries in order, each with a level and the
part of the program it comes from.
-/

set_option autoImplicit false

namespace CilAudit

inductive LogLevel where
  | critical
  | error
  | warning
  | notice
  | info
  | debug
  deriving DecidableEq, Repr

def LogLevel.name : LogLevel → String
  | critical => "critical"
  | error => "error"
  | warning => "warning"
  | notice => "notice"
  | info => "info"
  | debug => "debug"

structure LogEntry where
  level : LogLevel
  logger : String
  message : Text
  deriving DecidableEq, Repr

/-- Entries in the order in which they were made. -/
abbrev Log := List LogEntry

end CilAudit
