import RpcSchema.Blank
import RpcSchema.Policy
import RpcSchema.Yaml.Document

/-! A reading policy written as a document. The document maps the names of the two choices to their
words. A name is judged before its value is looked at, and the first fault in the document is the
one that is reported. -/
namespace RpcSchema

open Yaml (Place Part Document)

inductive DocumentFault where
  | malformed
  | unknownField (name : String) (place : Place)
  | duplicateField (name : String) (place : Place)
  | unknownWord (field word : String) (expected : List String) (place : Place)
deriving DecidableEq, Repr

def tick (text : String) : String := "`" ++ text ++ "`"

def alternatives (words : List String) : String := " or ".intercalate (words.map tick)

def DocumentFault.message? : DocumentFault → Option String
  | malformed => none
  | unknownField name place =>
    some ("unknown field " ++ tick name ++ ", expected " ++
      alternatives ["duplicate-messages", "trailing-comma"] ++ place.shown)
  | duplicateField name place => some ("duplicate field " ++ tick name ++ place.shown)
  | unknownWord field word expected place =>
    some (field ++ ": unknown variant " ++ tick word ++ ", expected " ++ alternatives expected ++
      place.shown)

structure Choices where
  duplicates : Option OnDuplicate
  trailingComma : Option OnTrailingComma
deriving DecidableEq, Repr

namespace Choices

def none : Choices := ⟨Option.none, Option.none⟩

def policy (choices : Choices) : Policy :=
  ⟨choices.duplicates.getD .overwrite, choices.trailingComma.getD .allow⟩

/-- The choices of `later` where it makes one, of `policy` elsewhere. -/
def onto (later : Choices) (policy : Policy) : Policy :=
  ⟨later.duplicates.getD policy.duplicates, later.trailingComma.getD policy.trailingComma⟩

end Choices

inductive PolicyField where
  | duplicates
  | trailingComma
deriving DecidableEq, Repr

namespace PolicyField

def name : PolicyField → String
  | duplicates => "duplicate-messages"
  | trailingComma => "trailing-comma"

def ofName? (text : String) : Option PolicyField :=
  [duplicates, trailingComma].find? (·.name == text)

def isMade (field : PolicyField) (choices : Choices) : Bool :=
  match field with
  | duplicates => choices.duplicates.isSome
  | trailingComma => choices.trailingComma.isSome

def words : PolicyField → List String
  | duplicates => [OnDuplicate.overwrite.word, OnDuplicate.reject.word]
  | trailingComma => [OnTrailingComma.allow.word, OnTrailingComma.reject.word]

def choose? (field : PolicyField) (word : String) (choices : Choices) : Option Choices :=
  match field with
  | duplicates =>
    (OnDuplicate.ofWord? word).map fun made => { choices with duplicates := some made }
  | trailingComma =>
    (OnTrailingComma.ofWord? word).map fun made => { choices with trailingComma := some made }

end PolicyField

namespace PolicyDocument

/-- The field that a key names, when it may be set now. -/
def field (document : Document) (choices : Choices) (key : Part) :
    Except DocumentFault PolicyField :=
  match PolicyField.ofName? key.text with
  | none => .error (.unknownField key.text key.place)
  | some field =>
    if field.isMade choices then .error (.duplicateField key.text document.place) else .ok field

def set (field : PolicyField) (value : Part) (choices : Choices) :
    Except DocumentFault Choices :=
  match field.choose? value.text choices with
  | some choices => .ok choices
  | none => .error (.unknownWord field.name value.text field.words value.place)

def choices (document : Document) (made : Choices) : List Part → Except DocumentFault Choices
  | [] => if document.complete then .ok made else .error .malformed
  | [key] => do
    let _ ← field document made key
    .error .malformed
  | key :: value :: rest => do
    let made ← set (← field document made key) value made
    choices document made rest

/-- The policy that a text sets. Blank text sets nothing. -/
def read (text : String) : Except DocumentFault Policy :=
  if text.toList.all isBlank then .ok .lenient
  else
    match Document.ofText? text.toList with
    | none => .error .malformed
    | some document => (choices document .none document.parts).map Choices.policy

end PolicyDocument

end RpcSchema
