/-! The two liberties that a reader of sources may take or refuse. -/
namespace RpcSchema

inductive OnDuplicate where
  | overwrite
  | reject
deriving DecidableEq, Repr

inductive OnTrailingComma where
  | allow
  | reject
deriving DecidableEq, Repr

structure Policy where
  duplicates : OnDuplicate
  trailingComma : OnTrailingComma
deriving DecidableEq, Repr

def OnDuplicate.word : OnDuplicate → String
  | overwrite => "overwrite"
  | reject => "reject"

def OnTrailingComma.word : OnTrailingComma → String
  | allow => "allow"
  | reject => "reject"

def OnDuplicate.ofWord? (word : String) : Option OnDuplicate :=
  [overwrite, reject].find? (·.word == word)

def OnTrailingComma.ofWord? (word : String) : Option OnTrailingComma :=
  [allow, reject].find? (·.word == word)

theorem OnDuplicate.ofWord?_word (choice : OnDuplicate) : ofWord? choice.word = some choice := by
  cases choice <;> rfl

theorem OnTrailingComma.ofWord?_word (choice : OnTrailingComma) :
    ofWord? choice.word = some choice := by
  cases choice <;> rfl

namespace Policy

def lenient : Policy := ⟨.overwrite, .allow⟩

def strict : Policy := ⟨.reject, .reject⟩

end Policy

end RpcSchema
