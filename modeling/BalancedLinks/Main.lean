import BalancedLinks.Command

/-!
# The program

Reads the environment and the arguments, runs the command, and writes the graph to the output and the log to
the error output.
-/

set_option autoImplicit false

namespace BalancedLinks

/-- The variables of the environment that settings come from. -/
def readEnvironment : IO (String → Option String) := do
  let names := ["HIDE_LOGS", "NODE_ENV", "LOG_LEVEL", "AVL_VERIFY"]
  let values ← names.mapM fun name => do return (name, ← IO.getEnv name)
  return fun name => (values.lookup name).join

/-- Writes one line of the log. -/
def writeLine (settings : Settings) (line : LogLine) : IO Unit :=
  IO.eprintln (if settings.pretty then line.message.printable else line.render (some Command.loggerName))

/-- Runs the command once. -/
def runProgram (arguments : List String) : IO UInt32 := do
  let settings := Settings.ofEnvironment (← readEnvironment)
  let run := Command.runWith settings arguments
  for text in run.printed do
    IO.print text
  for line in run.log do
    writeLine settings line
  match run.exit with
  | .code code => return code.toUInt32
  | .raised name message =>
    IO.eprintln (errorText name message)
    return 1

end BalancedLinks

/-- Links the keys given as arguments and prints their tree. -/
def main (arguments : List String) : IO UInt32 :=
  BalancedLinks.runProgram arguments
