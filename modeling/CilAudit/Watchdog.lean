import CilAudit.Duration

/-!
# Watchdog

Work is announced piece by piece. A monitor looks at the clock now and then, and ends the
program when the last announced piece has run for longer than the timeout. The steps below
are the ones that exclude each other; they may come in any order, and the monitor may look
at any time.
-/

set_option autoImplicit false

namespace CilAudit

/-- The watchdog between two steps. Clock readings are in nanoseconds. -/
structure Watchdog where
  timeout : Duration
  /-- The last announced piece of work, empty before the first. -/
  name : Text
  deadline : Int
  /-- No more announcements and no decision once this is false. -/
  isRunning : Bool
  /-- Has the monitor been told to look before its timer ends? -/
  isWoken : Bool
  /-- Does the monitor still look at the clock? -/
  isWatching : Bool
  deriving DecidableEq, Repr

namespace Watchdog

inductive Step where
  | announce (name : Text) (clock : Int)
  | shutdown
  /-- The monitor looks: woken, at the end of its timer, or for no reason. -/
  | look (clock : Int)
  deriving DecidableEq, Repr

def defaultTimeout : Duration := .ofSeconds 30

/-- A timeout that can be used: one that is not positive stands for the default. -/
def effectiveTimeout (timeout : Duration) : Duration :=
  if timeout.nanoseconds ≤ 0 then defaultTimeout else timeout

/-- A new watchdog: the first deadline is one timeout away. -/
def start (timeout : Duration) (clock : Int) : Watchdog :=
  let timeout := effectiveTimeout timeout
  { timeout, name := [], deadline := clock + timeout.nanoseconds, isRunning := true
    isWoken := false, isWatching := true }

/-- One step, with the name that the program ends with if the monitor decides so. -/
def step (w : Watchdog) : Step → Watchdog × Option Text
  | .announce name clock =>
    if w.isRunning then
      ({ w with name, deadline := clock + w.timeout.nanoseconds, isWoken := true }, none)
    else (w, none)
  | .shutdown => ({ w with isRunning := false, isWoken := true }, none)
  | .look clock =>
    if !w.isWatching then (w, none)
    else if !w.isRunning then ({ w with isWatching := false }, none)
    else if w.deadline ≤ clock then
      ({ w with isRunning := false, isWatching := false }, some w.name)
    else ({ w with isWoken := false }, none)

/-- The steps in turn, with the names of all decisions. -/
def run (w : Watchdog) : List Step → Watchdog × List Text
  | [] => (w, [])
  | s :: rest =>
    let (next, decision) := w.step s
    let (last, decisions) := run next rest
    (last, decision.toList ++ decisions)

end Watchdog

end CilAudit
