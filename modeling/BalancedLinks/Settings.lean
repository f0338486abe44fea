import BalancedLinks.Event

/-!
# Settings

What the environment decides: the level of the log, whether the log is meant for readers rather than for
machines, and whether trees check themselves. Words are compared without regard to case; each of them is
plain ASCII, and no letter outside ASCII becomes part of one when its case is dropped.
-/

set_option autoImplicit false

namespace BalancedLinks

/-- The settings of a run. -/
structure Settings where
  level : Level
  /-- Lines for readers instead of objects. -/
  pretty : Bool
  /-- A check of the whole tree after every change. -/
  verify : Bool
  deriving DecidableEq, Repr

namespace Settings

/-- Whether a variable is set to one of the words for yes. -/
def isYes : Option String → Bool
  | none => false
  | some word => ["1", "true", "yes", "on"].contains word.toLower

/-- Whether a variable is set to a text that is not empty. -/
def isGiven : Option String → Bool
  | none => false
  | some word => !word.isEmpty

/--
The settings of an environment. A level named there wins; without one, logs are quiet when they are hidden
or in production, and talkative otherwise.
-/
def ofEnvironment (lookup : String → Option String) : Settings :=
  let hidden := isGiven (lookup "HIDE_LOGS")
  let quiet := hidden || lookup "NODE_ENV" == some "production"
  let named := (lookup "LOG_LEVEL").bind fun word => Level.ofName? word.toLower
  { level := named.getD (if quiet then .warn else .debug)
    pretty := lookup "NODE_ENV" == some "development" && !hidden
    verify := isYes (lookup "AVL_VERIFY") }

end Settings

end BalancedLinks
