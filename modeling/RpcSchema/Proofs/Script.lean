import RpcSchema.Grammar

/-! Sources as they are written. A script is a row of phrases, each a row of tokens. A layout puts
blanks and comments between the tokens; only two tokens of name characters need a blank between
them. The normal form of a layout keeps the tokens and at most one space between two of them. -/
namespace RpcSchema

def isNameChar (c : Char) : Bool :=
  (decide ('0' ≤ c) && decide (c ≤ '9')) || (decide ('A' ≤ c) && decide (c ≤ 'Z')) ||
    (decide ('a' ≤ c) && decide (c ≤ 'z')) || c == '[' || c == ']'

structure Word where
  text : String
  ne_nil : text.toList ≠ []
  named : ∀ c ∈ text.toList, isNameChar c = true
deriving DecidableEq

inductive Keyword where
  | message
  | method
deriving DecidableEq

def Keyword.text : Keyword → String
  | message => "message"
  | method => "method"

inductive Sign where
  | openBrace
  | closeBrace
  | openParen
  | closeParen
  | colon
  | comma
  | arrow
  | semicolon
deriving DecidableEq

def Sign.text : Sign → String
  | openBrace => "\x7b"
  | closeBrace => "\x7d"
  | openParen => "("
  | closeParen => ")"
  | colon => ":"
  | comma => ","
  | arrow => "->"
  | semicolon => ";"

inductive Token where
  | keyword (keyword : Keyword)
  | sign (sign : Sign)
  | word (word : Word)
deriving DecidableEq

namespace Token

def chars : Token → List Char
  | keyword k => k.text.toList
  | sign s => s.text.toList
  | word w => w.text.toList

def isWord : Token → Bool
  | word _ => true
  | keyword _ | sign _ => false

/-- Whether the token is made of name characters, so that it could run into a word behind it. -/
def isName : Token → Bool
  | keyword _ | word _ => true
  | sign _ => false

theorem isName_of_isWord {t : Token} (h : t.isWord = true) : t.isName = true := by
  cases t with
  | word w => rfl
  | keyword k => cases h
  | sign s => cases h

theorem chars_ne_nil (t : Token) : t.chars ≠ [] := by
  cases t with
  | word w => exact w.ne_nil
  | keyword k => cases k <;> decide
  | sign s => cases s <;> decide

theorem named_of_isName {t : Token} (h : t.isName = true) : ∀ c ∈ t.chars, isNameChar c = true := by
  cases t with
  | word w => exact w.named
  | keyword k => exact List.all_eq_true.1 (by cases k <;> decide)
  | sign s => cases h

end Token

structure Field where
  name : Word
  type : Word
deriving DecidableEq

def Field.tokens (field : Field) : List Token :=
  [.word field.name, .sign .colon, .word field.type]

/-- Fields with a comma after each but the last, and after the last too when `comma` says so. -/
def fieldsTokens (comma : Bool) : List Field → List Token
  | [] => []
  | field :: rest =>
    field.tokens ++
      if rest.isEmpty && !comma then [] else .sign .comma :: fieldsTokens comma rest

theorem fieldsTokens_comma (last : Bool) (field : Field) (rest : List Field) :
    fieldsTokens (last || rest.isEmpty) (field :: rest) =
      field.tokens ++ .sign .comma :: fieldsTokens last rest := by
  cases rest with
  | nil => simp [fieldsTokens]
  | cons next later => simp [fieldsTokens]

structure MessagePhrase where
  name : Word
  fields : List Field
  comma : Bool
  comma_follows : comma = true → fields ≠ []
deriving DecidableEq

inductive Phrase where
  | message (message : MessagePhrase)
  | method (name request response : Word)
  | bare (token : Word)
deriving DecidableEq

def Phrase.tokens : Phrase → List Token
  | message m =>
    [.keyword .message, .word m.name, .sign .openBrace] ++ fieldsTokens m.comma m.fields ++
      [.sign .closeBrace]
  | method name request response =>
    [.keyword .method, .word name, .sign .openParen, .word request, .sign .closeParen,
      .sign .arrow, .word response, .sign .semicolon]
  | bare token => [.word token]

def scriptTokens (script : List Phrase) : List Token := script.flatMap Phrase.tokens

theorem tokens_ne_nil (phrase : Phrase) : phrase.tokens ≠ [] := by
  cases phrase <;> simp [Phrase.tokens]

/-- What may stand between two tokens: a blank, or a comment with the newline that ends it. -/
inductive Filler where
  | blank (c : Char) (isBlank : isBlank c = true)
  | comment (text : List Char) (oneLine : '\n' ∉ text)

def Filler.chars : Filler → List Char
  | blank c _ => [c]
  | comment text _ => '#' :: (text ++ ['\n'])

def Filler.isOpen : Filler → Bool
  | blank _ _ => true
  | comment _ _ => false

abbrev Gap := List Filler

namespace Gap

def chars (gap : Gap) : List Char := gap.flatMap Filler.chars

/-- Whether a blank stands outside the comments of a gap. -/
def isOpen (gap : Gap) : Bool := gap.any Filler.isOpen

end Gap

/-- Tokens with a gap after each. Two tokens of name characters have a blank between them. -/
inductive LaidOut : List Token → List Char → Prop where
  | nil : LaidOut [] []
  | last (t : Token) (gap : Gap) : LaidOut [t] (t.chars ++ gap.chars)
  | cons (t u : Token) {rest : List Token} (gap : Gap) {text : List Char}
      (apart : t.isName = true → u.isName = true → gap.isOpen = true)
      (laid : LaidOut (u :: rest) text) : LaidOut (t :: u :: rest) (t.chars ++ gap.chars ++ text)

/-- A script as a source: a gap, then its tokens with a gap after each. -/
def IsLayout (script : List Phrase) (source : List Char) : Prop :=
  ∃ (lead : Gap) (text : List Char), LaidOut (scriptTokens script) text ∧
    source = lead.chars ++ text

/-- No name character comes first. -/
def EndsName (text : List Char) : Prop := ∀ c, text.head? = some c → isNameChar c = false

/-- Tokens with at most one space between two of them, each greedy one running as far as name
characters go. -/
inductive Written (greedy : Token → Bool) : List Token → List Char → Prop where
  | nil : Written greedy [] []
  | last (t : Token) : Written greedy [t] t.chars
  | joined (t u : Token) {rest : List Token} {text : List Char}
      (ends : greedy t = true → EndsName text) (written : Written greedy (u :: rest) text) :
      Written greedy (t :: u :: rest) (t.chars ++ text)
  | spaced (t u : Token) {rest : List Token} {text : List Char}
      (written : Written greedy (u :: rest) text) :
      Written greedy (t :: u :: rest) (t.chars ++ ' ' :: text)

end RpcSchema
