import RpcSchema.Diagnostic
import RpcSchema.Grammar

/-! A reader for a single source. It is spent by the first source that it is given, whether that is
well formed or not, and refuses every later one; what the first one declared stays. A file that
cannot be loaded does not count. -/
namespace RpcSchema

structure SchemaReader where
  policy : Policy
  spent : Bool
  result : Option Declared
deriving DecidableEq

namespace SchemaReader

def fresh (policy : Policy) : SchemaReader := ⟨policy, false, none⟩

def read (reader : SchemaReader) (source : String) : Except Failure Interface × SchemaReader :=
  if reader.spent then (.error ⟨0, .alreadySpent⟩, reader)
  else
    match (readSource reader.policy source).1 with
    | .ok declared => (.ok declared.interface, ⟨reader.policy, true, some declared⟩)
    | .error failure => (.error failure, ⟨reader.policy, true, reader.result⟩)

/-- A failure is reported with the normal form of the source under the given name. -/
def readNamed (reader : SchemaReader) (name source : String) :
    Except Trouble Interface × SchemaReader :=
  match reader.read source with
  | (.ok file, after) => (.ok file, after)
  | (.error failure, after) =>
    (.error (.unparsed failure ⟨name, (Buffer.ofSource source).text⟩), after)

def readPath {m : Type → Type} [Monad m] (load : String → m (Option String))
    (reader : SchemaReader) (path : String) : m (Except Trouble Interface × SchemaReader) := do
  match ← load path with
  | none => return (.error (.unreadable path), reader)
  | some source => return reader.readNamed path source

theorem read_of_spent {reader : SchemaReader} (spent : reader.spent = true) (source : String) :
    reader.read source = (.error ⟨0, .alreadySpent⟩, reader) := by
  simp [read, spent]

theorem read_fresh (policy : Policy) (source : String) :
    (fresh policy).read source =
      match (readSource policy source).1 with
      | .ok d => (.ok d.interface, ⟨policy, true, some d⟩)
      | .error e => (.error e, ⟨policy, true, none⟩) := rfl

theorem readNamed_fresh_error {policy : Policy} {name source : String} {trouble : Trouble}
    {after : SchemaReader}
    (failed : (fresh policy).readNamed name source = (.error trouble, after)) :
    ∃ e, trouble = .unparsed e ⟨name, (Buffer.ofSource source).text⟩ ∧
      (readSource policy source).1 = .error e := by
  unfold readNamed at failed
  rw [read_fresh] at failed
  cases read : (readSource policy source).1 with
  | ok d =>
    rw [read] at failed
    cases failed
  | error e =>
    rw [read] at failed
    cases failed
    exact ⟨e, rfl, rfl⟩

end SchemaReader

end RpcSchema
