import RpcSchema.Command

/-! The program: it runs the command of its arguments on the files of the working directory. -/
namespace RpcSchema

def loadFile (path : String) : IO (Option String) := do
  try
    return String.fromUTF8? (← IO.FS.readBinFile path)
  catch _ =>
    return none

def showTrouble (trouble : Trouble) : IO Unit := do
  let report := trouble.report
  IO.eprintln (report.code ++ ": " ++ report.text)
  for label in report.labels do
    IO.eprintln ("  " ++ label.sourceName ++ ": " ++ label.text)
  if let some help := report.help then
    IO.eprintln ("  help: " ++ help)

/-- Writes what an outcome writes, as far as standard output can be written to. -/
def deliver (stdout : IO.FS.Stream) (outcome : Outcome) : IO Outcome := do
  try
    stdout.putStr outcome.written
    stdout.flush
    return outcome
  catch _ =>
    return outcome.undelivered "stdout"

end RpcSchema

open RpcSchema in
def main (argv : List String) : IO UInt32 := do
  let stdout ← IO.getStdout
  let outcome ← Outcome.ofArguments loadFile (← stdout.isTty) argv
  for event in outcome.events do
    IO.eprintln event.line
  let outcome ← deliver stdout outcome
  if let some trouble := outcome.trouble then
    showTrouble trouble
  else if outcome.exitCode = 2 then
    IO.eprint Outcome.helpText
  return outcome.exitCode.toUInt32
