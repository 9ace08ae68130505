import RpcSchema.PolicyDocument

/-! The arguments of a command line. Flags act at once. The value of an option and the file wait
until the next flag, option or file, or the end of the line, and are judged then, so the fault that
is reported is the first that is judged and not always the first that is written. -/
namespace RpcSchema

inductive Format where
  | json
  | summary
deriving DecidableEq, Repr

def Format.word : Format → String
  | json => "json"
  | summary => "summary"

def Format.ofWord? (word : String) : Option Format :=
  [json, summary].find? (·.word == word)

inductive Command where
  | parse (file : String) (format : Format) (config : Option String) (choices : Choices)
  | normalize (file : String)
deriving DecidableEq, Repr

structure Invocation where
  verbosity : Nat
  command : Command
deriving DecidableEq, Repr

/-- Why no command is run. Asking for help or for the version is no mistake. -/
inductive Usage where
  | help
  | version
  | nothingGiven
  | noCommand
  | unknownCommand
  | unknownArgument
  | invalidValue
  | repeatedOption
  | unwantedValue
  | noFile
deriving DecidableEq, Repr

def Usage.exitCode : Usage → Nat
  | help | version => 0
  | _ => 2

namespace CommandLine

/-- An argument by its shape. A lone dash is plain. -/
inductive Word where
  | separator
  | long (name : String) (value : Option String)
  | short (letters : List Char)
  | plain (text : String)
deriving DecidableEq, Repr

def Word.ofArgument (argument : String) : Word :=
  match argument.toList with
  | ['-', '-'] => .separator
  | '-' :: '-' :: rest =>
    let name := String.ofList (rest.takeWhile (· != '='))
    match rest.dropWhile (· != '=') with
    | [] => .long name none
    | _ :: value => .long name (some (String.ofList value))
  | '-' :: letter :: rest => .short (letter :: rest)
  | _ => .plain argument

inductive Kind where
  | parse
  | normalize
deriving DecidableEq, Repr

def Kind.word : Kind → String
  | parse => "parse"
  | normalize => "normalize"

def Kind.ofWord? (word : String) : Option Kind :=
  [parse, normalize].find? (·.word == word)

def isCommandWord (word : String) : Bool := word == "help" || (Kind.ofWord? word).isSome

inductive Target where
  | file
  | format
  | config
  | duplicates
  | trailingComma
deriving DecidableEq, Repr

def Target.option? (kind : Kind) (name : String) : Option Target :=
  match kind with
  | .normalize => none
  | .parse =>
    [("format", format), ("config", config), ("duplicates", duplicates),
      ("trailing-comma", trailingComma)].lookup name

/-- A target that waits to be judged; an option may still lack its value. -/
structure Pending where
  target : Target
  value : Option String
deriving DecidableEq, Repr

structure Given where
  verbosity : Nat
  file : Option String
  format : Option Format
  config : Option String
  choices : Choices
  pending : Option Pending
deriving DecidableEq, Repr

namespace Given

def nothing : Given := ⟨0, none, none, none, .none, none⟩

def hasFile (given : Given) : Bool :=
  given.file.isSome || given.pending.any (·.target == .file)

def countFlag (count : Nat) : Nat := min (count + 1) 255

/-- Judges a value: an option may be given once, and paths must not be empty. -/
def store (given : Given) (target : Target) (value : String) : Except Usage Given :=
  match target with
  | .file => if value = "" then .error .invalidValue else .ok { given with file := some value }
  | .config =>
    if given.config.isSome then .error .repeatedOption
    else if value = "" then .error .invalidValue
    else .ok { given with config := some value }
  | .format =>
    if given.format.isSome then .error .repeatedOption
    else
      match Format.ofWord? value with
      | some format => .ok { given with format := some format }
      | none => .error .invalidValue
  | .duplicates => choose .duplicates
  | .trailingComma => choose .trailingComma
where
  choose (field : PolicyField) : Except Usage Given :=
    if field.isMade given.choices then .error .repeatedOption
    else
      match field.choose? value given.choices with
      | some choices => .ok { given with choices }
      | none => .error .invalidValue

def settle (given : Given) : Except Usage Given :=
  match given.pending with
  | none => .ok given
  | some ⟨_, none⟩ => .error .invalidValue
  | some ⟨target, some value⟩ => { given with pending := none }.store target value

def flag (given : Given) : Except Usage Given := do
  let given ← given.settle
  return { given with verbosity := countFlag given.verbosity }

def askHelp (given : Given) : Except Usage Given := do
  let _ ← given.settle
  .error .help

def long (kind : Kind) (given : Given) (name : String) (value : Option String) :
    Except Usage Given :=
  match Target.option? kind name, value with
  | some target, some value => do (← given.settle).store target value
  | some target, none => do return { ← given.settle with pending := some ⟨target, none⟩ }
  | none, value =>
    if name = "verbose" || name = "help" then
      if value.isSome then .error .unwantedValue
      else if name = "verbose" then given.flag
      else given.askHelp
    else .error .unknownArgument

def short (given : Given) : List Char → Except Usage Given
  | [] => .ok given
  | letter :: rest =>
    if letter = 'v' then do (← given.flag).short rest
    else if letter = 'h' then given.askHelp
    else .error .unknownArgument

/-- A word that is no flag: the value that an option waits for, or the file. -/
def plain (given : Given) (literal : Bool) (text : String) : Except Usage Given :=
  match given.pending with
  | some ⟨target, none⟩ =>
    if literal then place given else .ok { given with pending := some ⟨target, some text⟩ }
  | _ => place given
where
  place (given : Given) : Except Usage Given :=
    if given.hasFile then .error .unknownArgument
    else do return { ← given.settle with pending := some ⟨.file, some text⟩ }

/-- The arguments of a command. Behind a separator every word is taken literally. -/
def read (kind : Kind) (given : Given) (literal : Bool) : List String → Except Usage Given
  | [] => given.settle
  | argument :: rest => do
    match if literal then .plain argument else Word.ofArgument argument with
    | .separator => read kind given true rest
    | .long name value => read kind (← given.long kind name value) literal rest
    | .short letters => read kind (← given.short letters) literal rest
    | .plain text => read kind (← given.plain literal text) literal rest

def command (kind : Kind) (given : Given) : Except Usage Command :=
  match given.file with
  | none => .error .noFile
  | some file =>
    match kind with
    | .parse => .ok (.parse file (given.format.getD .json) given.config given.choices)
    | .normalize => .ok (.normalize file)

end Given

/-- Counts given to the command replace those given before it. -/
def invocation (kind : Kind) (outer : Nat) (arguments : List String) :
    Except Usage Invocation := do
  let given ← Given.nothing.read kind false arguments
  let command ← given.command kind
  return ⟨if given.verbosity = 0 then outer else given.verbosity, command⟩

/-- Help is there for the commands, not for anything below them. -/
def helpOn : List String → Usage
  | [] => .help
  | [word] => if isCommandWord word then .help else .unknownCommand
  | _ :: _ :: _ => .unknownCommand

def unfinished (verbosity : Nat) : Usage := if verbosity = 0 then .nothingGiven else .noCommand

def shortFlags (verbosity : Nat) : List Char → Except Usage Nat
  | [] => .ok verbosity
  | letter :: rest =>
    if letter = 'v' then shortFlags (Given.countFlag verbosity) rest
    else if letter = 'h' then .error .help
    else if letter = 'V' then .error .version
    else .error .unknownArgument

def longFlag (verbosity : Nat) (name : String) (value : Option String) : Except Usage Nat :=
  if name = "verbose" || name = "help" || name = "version" then
    if value.isSome then .error .unwantedValue
    else if name = "verbose" then .ok (Given.countFlag verbosity)
    else if name = "help" then .error .help
    else .error .version
  else .error .unknownArgument

def arguments (verbosity : Nat) : List String → Except Usage Invocation
  | [] => .error (unfinished verbosity)
  | argument :: rest =>
    if argument = "help" then .error (helpOn rest)
    else
      match Kind.ofWord? argument with
      | some kind => invocation kind verbosity rest
      | none =>
        match Word.ofArgument argument with
        | .separator =>
          match rest with
          | [] => .error (unfinished verbosity)
          | word :: _ => .error (if isCommandWord word then .unknownArgument else .unknownCommand)
        | .long name value => do arguments (← longFlag verbosity name value) rest
        | .short letters => do arguments (← shortFlags verbosity letters) rest
        | .plain _ => .error .unknownCommand

def read (argv : List String) : Except Usage Invocation := arguments 0 argv

end CommandLine

end RpcSchema
