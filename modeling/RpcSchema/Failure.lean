import RpcSchema.CharClass

/-! Why reading stops. A failure is a position of the buffer and a cause. Six causes are fatal: an
ordered choice tries no further branch after one of them. The wording of every cause is here. -/
namespace RpcSchema

inductive Role where
  | request
  | response
deriving DecidableEq, Repr

def Role.label : Role → String
  | request => "request"
  | response => "response"

inductive Cause where
  | endOfInput (expected : String)
  | wrongChar (expected : String) (found : Char)
  | wrongKeyword (expected : List String)
  | noBranch (rules : List String) (found : Option Char)
  | badRange (range : BadRange)
  | undefinedMessage (role : Role) (name : String)
  | duplicateMessage (name : String)
  | danglingComma (found : Option Char)
  | alreadySpent
  | internal (reason : String)
deriving DecidableEq, Repr

namespace Cause

def isFatal : Cause → Bool
  | endOfInput _ | wrongChar _ _ | wrongKeyword _ | noBranch _ _ => false
  | badRange _ | undefinedMessage _ _ | duplicateMessage _ | danglingComma _ | alreadySpent
  | internal _ => true

def quoted (c : Char) : String := "'" ++ c.toString ++ "'"

def foundText : Option Char → String
  | some c => quoted c
  | none => "end of input"

def message : Cause → String
  | endOfInput expected => "expected " ++ expected ++ " but reached end of input"
  | wrongChar expected found =>
    "expected a character in [" ++ expected ++ "], found " ++ quoted found
  | wrongKeyword expected =>
    "expected one of " ++ ", ".intercalate (expected.map fun word => "'" ++ word ++ "'")
  | noBranch rules found =>
    "expected " ++ " or ".intercalate rules ++ " but found " ++ foundText found
  | badRange ⟨spec, low, high⟩ =>
    "invalid character range '" ++ low.toString ++ "-" ++ high.toString ++ "' in class \""
      ++ spec ++ "\": lower bound must precede upper bound"
  | undefinedMessage role name => role.label ++ " message '" ++ name ++ "' is not defined"
  | duplicateMessage name => "message '" ++ name ++ "' is already defined"
  | danglingComma found => "expected a field after ',' but found " ++ foundText found
  | alreadySpent => "parser instance has already been consumed"
  | internal reason => "internal parser error: " ++ reason

/-- The last part of the code under which a cause is looked up. -/
def code : Cause → String
  | endOfInput _ => "end_of_input"
  | wrongChar _ _ => "char_mismatch"
  | wrongKeyword _ => "keyword_mismatch"
  | noBranch _ _ => "ambiguous_failure"
  | badRange _ => "invalid_range"
  | undefinedMessage _ _ => "undefined_message"
  | duplicateMessage _ => "duplicate_message"
  | danglingComma _ => "dangling_comma"
  | alreadySpent => "already_consumed"
  | internal _ => "internal"

def label : Cause → String
  | endOfInput _ => "input ends here"
  | wrongChar _ _ => "unexpected character"
  | wrongKeyword _ => "unexpected token"
  | noBranch _ _ => "no alternative could continue here"
  | badRange _ => "while matching here"
  | undefinedMessage _ _ => "undefined message"
  | duplicateMessage _ => "redeclared here"
  | danglingComma _ => "field expected here"
  | alreadySpent => "parser reused"
  | internal _ => "parser stopped here"

def help? : Cause → Option String
  | undefinedMessage _ name =>
    some ("declare `message " ++ name ++ " \x7b ... \x7d` before the method that uses it")
  | duplicateMessage name =>
    some ("rename one of the '" ++ name ++ "' declarations or allow overwriting duplicates")
  | danglingComma _ => some "remove the trailing ',' or allow trailing commas"
  | alreadySpent => some "create a new parser for every input"
  | internal _ => some "This is an internal parser error. Please report this as a bug."
  | endOfInput _ | wrongChar _ _ | wrongKeyword _ | noBranch _ _ | badRange _ => none

end Cause

structure Failure where
  position : Nat
  cause : Cause
deriving DecidableEq, Repr

namespace Failure

def isFatal (failure : Failure) : Bool := failure.cause.isFatal

def message (failure : Failure) : String :=
  failure.cause.message ++ " at position " ++ toString failure.position

end Failure

end RpcSchema
