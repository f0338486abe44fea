import BalancedLinks.Failure

/-!
# Events

What a tree reports while it changes, and the levels that decide which reports a logger keeps.
-/

set_option autoImplicit false

namespace BalancedLinks

/-- The levels of reports, and of loggers. -/
inductive Level where
  | fatal
  | error
  | warn
  | info
  | debug
  | trace
  | silent
  deriving DecidableEq, Repr

namespace Level

/-- All levels, the most severe first. -/
def all : List Level :=
  [.fatal, .error, .warn, .info, .debug, .trace, .silent]

/-- The name of a level. -/
def name : Level → String
  | .fatal => "fatal"
  | .error => "error"
  | .warn => "warn"
  | .info => "info"
  | .debug => "debug"
  | .trace => "trace"
  | .silent => "silent"

/-- The level of a name. -/
def ofName? (name : String) : Option Level :=
  all.find? fun level => level.name == name

/-- The severity of a level; silence stands above all reports. -/
def severity : Level → Nat
  | .trace => 10
  | .debug => 20
  | .info => 30
  | .warn => 40
  | .error => 50
  | .fatal => 60
  | .silent => 70

/-- Whether a logger at the first level keeps reports of the second: those at least as severe. -/
def keeps (logger report : Level) : Bool :=
  logger.severity ≤ report.severity

end Level

/-- How a subtree was repaired. -/
inductive RotationKind where
  | single
  | double
  deriving DecidableEq, Repr

/-- The operations of a tree that change it. -/
inductive Change where
  | insert
  | erase
  deriving DecidableEq, Repr

/-- One report of a tree. -/
inductive Event where
  /-- A subtree was repaired, and its new top has this balance. -/
  | rotated (kind : RotationKind) (balance : Balance)
  /-- An element was linked, and the tree has this size now. -/
  | inserted (size : Int)
  /-- An element was unlinked, and the tree has this size now. -/
  | erased (size : Int)
  /-- The check after a change found a violation. -/
  | violated (change : Change) (cause : Violation)
  deriving DecidableEq, Repr

/-- The level of a report: violations are errors, all else is a trace. -/
def Event.level : Event → Level
  | .violated _ _ => .error
  | _ => .trace

end BalancedLinks
