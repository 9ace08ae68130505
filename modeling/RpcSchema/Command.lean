import RpcSchema.CommandLine
import RpcSchema.FileTree
import RpcSchema.Json
import RpcSchema.SchemaReader
import RpcSchema.Summary

/-! Running a command. Files are loaded through a function of the caller, so a command runs on any
collection of files. It leaves what it writes or what went wrong, and what was noted on the way. -/
namespace RpcSchema

structure Report where
  result : Except Trouble String
  events : List Event

namespace Command

variable {m : Type → Type} [Monad m]

def policy (load : String → m (Option String)) (config : Option String) (choices : Choices) :
    m (Except Trouble Policy) := do
  match config with
  | none => return .ok (choices.onto .lenient)
  | some path =>
    match ← load path with
    | none => return .error (.unreadable path)
    | some text =>
      match PolicyDocument.read text with
      | .ok policy => return .ok (choices.onto policy)
      | .error _ => return .error (.badPolicy path)

def render (coloured : Bool) (format : Format) (file : Interface) : String :=
  match format with
  | .json => file.printed
  | .summary => if coloured then Summary.coloured file else Summary.plain file

/-- The report on a file that is read with what was loaded from its path. -/
def parsed (policy : Policy) (path : String) (written : Interface → String)
    (loaded : Option String) : Report :=
  let (result, _) := Id.run ((SchemaReader.fresh policy).readPath (fun _ => pure loaded) path)
  ⟨result.map written, loaded.elim [] fun source => (readSource policy source).2.events⟩

def run (load : String → m (Option String)) (coloured : Bool) : Command → m Report
  | .parse path format config choices => do
    match ← policy load config choices with
    | .error trouble => return ⟨.error trouble, []⟩
    | .ok policy => return parsed policy path (render coloured format) (← load path)
  | .normalize path => do
    match ← load path with
    | none => return ⟨.error (.unreadable path), []⟩
    | some source => return ⟨.ok ((Buffer.ofSource source).text ++ "\n"), []⟩

end Command

structure Outcome where
  exitCode : Nat
  written : String
  trouble : Option Trouble
  events : List Event

namespace Outcome

def versionText : String := "protoidl 0.1.0\n"

def helpText : String :=
  String.join (["Parse RPC interface definitions into a method IR.",
    "",
    "Usage: protoidl [OPTIONS] <COMMAND>",
    "",
    "Commands:",
    "  parse      Parse an IDL file and print its method IR",
    "  normalize  Print the normalized buffer that error positions refer to",
    "  help       Print this message or the help of the given subcommand(s)",
    "",
    "Options:",
    "  -v, --verbose...  Increase log verbosity (-v debug, -vv trace)",
    "  -h, --help        Print help",
    "  -V, --version     Print version"].map (· ++ "\n"))

def ofUsage (usage : Usage) : Outcome :=
  match usage with
  | .help => ⟨usage.exitCode, helpText, none, []⟩
  | .version => ⟨usage.exitCode, versionText, none, []⟩
  | _ => ⟨usage.exitCode, "", none, []⟩

/-- Of what was noted only that is shown for which the verbosity is enough. -/
def ofReport (verbosity : Nat) (report : Report) : Outcome :=
  let events := report.events.filter (·.isShown verbosity)
  match report.result with
  | .ok written => ⟨0, written, none, events⟩
  | .error trouble => ⟨1, "", some trouble, events⟩

def ofArguments {m : Type → Type} [Monad m] (load : String → m (Option String)) (coloured : Bool)
    (argv : List String) : m Outcome := do
  match CommandLine.read argv with
  | .error usage => return ofUsage usage
  | .ok invocation =>
    return ofReport invocation.verbosity (← invocation.command.run load coloured)

def inTree (tree : FileTree) (coloured : Bool) (argv : List String) : Outcome :=
  Id.run (ofArguments (fun path => pure (tree.load path)) coloured argv)

/-- The outcome when nothing can be written to the target. -/
def undelivered (outcome : Outcome) (target : String) : Outcome :=
  { outcome with exitCode := 1, written := "", trouble := some (.unwritable target) }

end Outcome

end RpcSchema
