import RpcSchema.Proofs.Script

/-! What a script declares. A message name stands for the body of its latest message, a method
holds the bodies that its two names stand for where it is written, and a bare word declares
nothing. -/
namespace RpcSchema

def MessagePhrase.body (m : MessagePhrase) : Body :=
  OrderedMap.ofList (m.fields.map fun field => (field.name.text, field.type.text))

namespace Phrase

def bodyOf? (name : String) : Phrase → Option Body
  | message m => if m.name.text = name then some m.body else none
  | method _ _ _ | bare _ => none

end Phrase

def latestBody (script : List Phrase) (name : String) : Option Body :=
  script.reverse.findSome? (Phrase.bodyOf? name)

/-- The name is that of a message of the script. -/
def Declares (script : List Phrase) (name : Word) : Prop :=
  ∃ m, .message m ∈ script ∧ m.name.text = name.text

namespace Phrase

def method? (before : List Phrase) : Phrase → Option Method
  | method name request response => do
    let requested ← latestBody before request.text
    let responded ← latestBody before response.text
    some ⟨name.text, ⟨request.text, requested⟩, ⟨response.text, responded⟩⟩
  | message _ | bare _ => none

def methodName? : Phrase → Option String
  | method name _ _ => some name.text
  | message _ | bare _ => none

def ResolvedIn (before : List Phrase) : Phrase → Prop
  | method _ request response => Declares before request ∧ Declares before response
  | message _ | bare _ => True

end Phrase

/-- The methods of the phrases that come after `before`. -/
def methodsAfter : (before : List Phrase) → List Phrase → List Method
  | _, [] => []
  | before, phrase :: rest =>
    (phrase.method? before).toList ++ methodsAfter (before ++ [phrase]) rest

def methodsOf (script : List Phrase) : List Method := methodsAfter [] script

/-- Every method names messages that are declared before it. -/
def ResolvedAfter : (before : List Phrase) → List Phrase → Prop
  | _, [] => True
  | before, phrase :: rest => phrase.ResolvedIn before ∧ ResolvedAfter (before ++ [phrase]) rest

def Resolved (script : List Phrase) : Prop := ResolvedAfter [] script

theorem latestBody_concat (script : List Phrase) (phrase : Phrase) (name : String) :
    latestBody (script ++ [phrase]) name =
      (phrase.bodyOf? name).or (latestBody script name) := by
  unfold latestBody
  rw [List.reverse_append, List.reverse_singleton, List.singleton_append, List.findSome?_cons]
  cases phrase.bodyOf? name <;> rfl

theorem declares_iff (script : List Phrase) (name : Word) :
    Declares script name ↔ ∃ body, latestBody script name.text = some body := by
  unfold Declares latestBody
  rw [← Option.isSome_iff_exists, List.findSome?_isSome_iff]
  constructor
  · rintro ⟨m, member, same⟩
    exact ⟨.message m, by simpa using member, by simp [Phrase.bodyOf?, same]⟩
  · rintro ⟨phrase, member, given⟩
    rw [List.mem_reverse] at member
    cases phrase with
    | message m =>
      simp only [Phrase.bodyOf?, Option.isSome_ite] at given
      exact ⟨m, member, given⟩
    | method _ _ _ | bare _ => cases given

theorem methodsAfter_concat (before script : List Phrase) (phrase : Phrase) :
    methodsAfter before (script ++ [phrase]) =
      methodsAfter before script ++ (phrase.method? (before ++ script)).toList := by
  induction script generalizing before with
  | nil => simp [methodsAfter]
  | cons first rest ih => simp [methodsAfter, ih]

theorem methodsOf_concat (script : List Phrase) (phrase : Phrase) :
    methodsOf (script ++ [phrase]) = methodsOf script ++ (phrase.method? script).toList :=
  methodsAfter_concat [] script phrase

theorem names_methodsAfter {before script : List Phrase} (resolved : ResolvedAfter before script) :
    (methodsAfter before script).map Method.name = script.filterMap Phrase.methodName? := by
  induction script generalizing before with
  | nil => rfl
  | cons phrase rest ih =>
    rw [methodsAfter, List.map_append, ih resolved.2]
    cases phrase with
    | method name request response =>
      obtain ⟨body, requested⟩ := (declares_iff before request).1 resolved.1.1
      obtain ⟨other, responded⟩ := (declares_iff before response).1 resolved.1.2
      simp [Phrase.method?, Phrase.methodName?, requested, responded]
    | message m => rfl
    | bare token => rfl

def Declared.add (d : Declared) : Declaration → Declared
  | .method m => { d with interface := d.interface.push m }
  | .message name body => { d with scope := d.scope.insert name body }
  | .bare _ => d

/-- The declaration of a phrase that is read in a scope, if its names are there. -/
def Phrase.declaration? (scope : Scope) : Phrase → Option Declaration
  | message m => some (.message m.name.text m.body)
  | method name request response => do
    let requested ← Scope.resolve scope request.text
    let responded ← Scope.resolve scope response.text
    some (.method ⟨name.text, requested, responded⟩)
  | bare token => some (.bare token.text)

/-- The beginning of a method up to the first of its names that is not declared. -/
inductive Opening where
  | request (name last : Word)
  | response (name request last : Word)

namespace Opening

def lead : Opening → List Token
  | request name _ => [.keyword .method, .word name, .sign .openParen]
  | response name q _ =>
    [.keyword .method, .word name, .sign .openParen, .word q, .sign .closeParen, .sign .arrow]

def last : Opening → Word
  | request _ x | response _ _ x => x

def role : Opening → Role
  | request _ _ => .request
  | response _ _ _ => .response

/-- The last name is not in scope, and a request before it is. -/
def BreaksIn (scope : Scope) : Opening → Prop
  | request _ x => Scope.resolve scope x.text = none
  | response _ q x =>
    (∃ found, Scope.resolve scope q.text = some found) ∧ Scope.resolve scope x.text = none

end Opening

/-- Rows of tokens that decide that a message or a method is read or refused, whatever comes behind
them: all tokens of the phrase, or those of a method up to a name that is not in scope. -/
inductive Decides (scope : Scope) : List Token → Prop where
  | phrase (phrase : Phrase) (complex : ∀ w, phrase ≠ .bare w) (declaration : Declaration)
      (declared : phrase.declaration? scope = some declaration) : Decides scope phrase.tokens
  | opening (opening : Opening) (breaks : opening.BreaksIn scope) :
      Decides scope (opening.lead ++ [.word opening.last])

def Phrase.Permitted (policy : Policy) (scope : Scope) : Phrase → Prop
  | message m =>
    (m.comma = true → policy.trailingComma = .allow) ∧
      (policy.duplicates = .reject → scope.get? m.name.text = none)
  | method _ _ _ | bare _ => True

theorem Phrase.permitted_lenient (scope : Scope) (phrase : Phrase) :
    phrase.Permitted .lenient scope := by
  cases phrase with
  | message m => exact ⟨fun _ => rfl, fun rejected => by cases rejected⟩
  | method name request response => trivial
  | bare token => trivial

/-- Reading the phrases one after the other leads from what is declared before to what is declared
after them. -/
def Interprets (policy : Policy) : Declared → List Phrase → Declared → Prop
  | d, [], d' => d = d'
  | d, phrase :: rest, d' =>
    ∃ declaration, phrase.Permitted policy d.scope ∧
      phrase.declaration? d.scope = some declaration ∧
        Interprets policy (d.add declaration) rest d'

/-- What has been declared is what a script says. -/
structure Describes (script : List Phrase) (d : Declared) : Prop where
  methods : d.interface.methods = methodsOf script
  bodies : ∀ name, d.scope.get? name = latestBody script name

theorem describes_nil : Describes [] .nothing := ⟨rfl, fun _ => rfl⟩

namespace Describes

variable {script : List Phrase} {d : Declared}

theorem resolve (h : Describes script d) (name : String) :
    Scope.resolve d.scope name = (latestBody script name).map fun body => ⟨name, body⟩ := by
  rw [Scope.resolve, h.bodies]

theorem add (h : Describes script d) {phrase : Phrase} {declaration : Declaration}
    (read : phrase.declaration? d.scope = some declaration) :
    Describes (script ++ [phrase]) (d.add declaration) := by
  cases phrase with
  | message m =>
    cases read
    refine ⟨?_, fun name => ?_⟩
    · rw [methodsOf_concat, ← h.methods]
      simp [Declared.add, Phrase.method?]
    · rw [latestBody_concat, ← h.bodies]
      simp only [Declared.add, OrderedMap.get?_insert, Phrase.bodyOf?, eq_comm (a := name)]
      split <;> rfl
  | method name request response =>
    simp only [Phrase.declaration?, h.resolve] at read
    cases requested : latestBody script request.text with
    | none => simp [requested] at read
    | some body =>
      cases responded : latestBody script response.text with
      | none => simp [requested, responded] at read
      | some other =>
        simp only [requested, responded] at read
        cases read
        refine ⟨?_, fun name => ?_⟩
        · rw [methodsOf_concat, ← h.methods]
          simp [Declared.add, Phrase.method?, requested, responded]
        · rw [latestBody_concat, ← h.bodies]
          rfl
  | bare token =>
    cases read
    refine ⟨?_, fun name => ?_⟩
    · rw [methodsOf_concat, ← h.methods]
      simp [Declared.add, Phrase.method?]
    · rw [latestBody_concat, ← h.bodies]
      rfl

theorem declaration?_of_resolved (h : Describes script d) {phrase : Phrase}
    (resolved : phrase.ResolvedIn script) :
    ∃ declaration, phrase.declaration? d.scope = some declaration := by
  cases phrase with
  | message m => exact ⟨_, rfl⟩
  | bare token => exact ⟨_, rfl⟩
  | method name request response =>
    obtain ⟨body, requested⟩ := (declares_iff script request).1 resolved.1
    obtain ⟨other, responded⟩ := (declares_iff script response).1 resolved.2
    simp [Phrase.declaration?, h.resolve, requested, responded]

theorem resolvedIn (h : Describes script d) {phrase : Phrase} {declaration : Declaration}
    (read : phrase.declaration? d.scope = some declaration) : phrase.ResolvedIn script := by
  cases phrase with
  | message m => trivial
  | bare token => trivial
  | method name request response =>
    simp only [Phrase.ResolvedIn, declares_iff]
    simp only [Phrase.declaration?, h.resolve] at read
    cases requested : latestBody script request.text with
    | none => simp [requested] at read
    | some body =>
      cases responded : latestBody script response.text with
      | none => simp [requested, responded] at read
      | some other => exact ⟨⟨body, rfl⟩, other, rfl⟩

theorem interprets (h : Describes script d) {policy : Policy} {rest : List Phrase} {d' : Declared}
    (read : Interprets policy d rest d') :
    Describes (script ++ rest) d' ∧ ResolvedAfter script rest := by
  induction rest generalizing script d with
  | nil =>
    cases read
    exact ⟨by simpa using h, trivial⟩
  | cons phrase rest ih =>
    obtain ⟨declaration, _, declared, read⟩ := read
    obtain ⟨described, resolved⟩ := ih (h.add declared) read
    exact ⟨by simpa using described, h.resolvedIn declared, resolved⟩

theorem interprets_of_resolved (h : Describes script d) {rest : List Phrase}
    (resolved : ResolvedAfter script rest) : ∃ d', Interprets .lenient d rest d' := by
  induction rest generalizing script d with
  | nil => exact ⟨d, rfl⟩
  | cons phrase rest ih =>
    obtain ⟨declaration, declared⟩ := h.declaration?_of_resolved resolved.1
    obtain ⟨d', read⟩ := ih (h.add declared) resolved.2
    exact ⟨d', declaration, phrase.permitted_lenient _, declared, read⟩

end Describes

theorem comma_of_interprets {policy : Policy} {script : List Phrase} {d d' : Declared}
    (read : Interprets policy d script d') {m : MessagePhrase} (member : .message m ∈ script)
    (comma : m.comma = true) : policy.trailingComma = .allow := by
  induction script generalizing d with
  | nil => cases member
  | cons phrase rest ih =>
    obtain ⟨declaration, permitted, _, read⟩ := read
    cases member with
    | head => exact permitted.1 comma
    | tail _ later => exact ih read later

end RpcSchema
