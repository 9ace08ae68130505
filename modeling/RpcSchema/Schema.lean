import RpcSchema.OrderedMap

/-! What a source declares: an interface is the row of its methods, and every method holds the
names and whole bodies of its request and response, so that it is read without the messages that
were in scope where it stood. -/
namespace RpcSchema

/-- Fields in order, each with its type as written. -/
abbrev Body := OrderedMap String

structure Reference where
  name : String
  body : Body
deriving DecidableEq

structure Method where
  name : String
  request : Reference
  response : Reference
deriving DecidableEq

structure Interface where
  methods : List Method
deriving DecidableEq

namespace Interface

def empty : Interface := ⟨[]⟩

def push (file : Interface) (method : Method) : Interface := ⟨file.methods ++ [method]⟩

def size (file : Interface) : Nat := file.methods.length

def get? (file : Interface) (name : String) : Option Method :=
  file.methods.find? (·.name == name)

@[simp] theorem methods_push (file : Interface) (method : Method) :
    (file.push method).methods = file.methods ++ [method] := rfl

theorem size_push (file : Interface) (method : Method) :
    (file.push method).size = file.size + 1 := by
  simp [size]

end Interface

/-- The messages that have been declared, each with its latest body. -/
abbrev Scope := OrderedMap Body

def Scope.resolve (scope : Scope) (name : String) : Option Reference :=
  (scope.get? name).map fun body => ⟨name, body⟩

theorem Scope.resolve_name {scope : Scope} {name : String} {reference : Reference}
    (found : Scope.resolve scope name = some reference) :
    reference.name = name ∧ scope.get? name = some reference.body := by
  unfold Scope.resolve at found
  cases value : scope.get? name with
  | none =>
    rw [value] at found
    cases found
  | some body =>
    rw [value] at found
    cases found
    exact ⟨rfl, rfl⟩

end RpcSchema
