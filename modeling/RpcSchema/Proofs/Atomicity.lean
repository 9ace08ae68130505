import RpcSchema.Program
import RpcSchema.Proofs.Leads
import RpcSchema.Proofs.Meaning

/-! What productions declare. The offset is all that a choice sets back, so that a production that
fails must not have declared anything. Each production declares as its last act, when nothing in it
can fail any more; what it reads before that declares nothing. -/
namespace RpcSchema

namespace Rule

variable {σ α β : Type}

/-- A rule that succeeds changes what is held by the effect of its value, and a rule that fails
leaves it as it was. -/
def Commits (effect : α → σ → σ) (r : Rule σ α) : Prop :=
  ∀ b s, r.Leads b s (fun a s' => s'.held = effect a s.held) fun _ s' => s'.held = s.held

def Keeps (r : Rule σ α) : Prop := r.Commits fun _ held => held

def Moves (step : α → σ → σ → Prop) (r : Rule σ α) : Prop :=
  ∀ b s, r.Leads b s (fun a s' => step a s.held s'.held) fun _ s' => s'.held = s.held

theorem Moves.commits {r : Rule σ α} {step : α → σ → σ → Prop} {effect : α → σ → σ}
    (moves : r.Moves step) (same : ∀ a held after, step a held after → after = effect a held) :
    r.Commits effect :=
  fun b s => (moves b s).imp (fun a _ => same a _ _) fun _ _ kept => kept

theorem Commits.moves {r : Rule σ α} {effect : α → σ → σ} (commits : r.Commits effect) :
    r.Moves fun a held after => after = effect a held := commits

theorem keeps_pure (a : α) : (pure a : Rule σ α).Keeps := fun _ _ => leads_pure rfl

theorem commits_fail (effect : α → σ → σ) (e : Failure) : (fail e : Rule σ α).Commits effect :=
  fun _ _ => leads_fail rfl

theorem keeps_skipSpace : (skipSpace : Rule σ Unit).Keeps := fun _ _ => rfl

theorem keeps_offset : (offset : Rule σ Nat).Keeps := fun _ _ => rfl

theorem keeps_unread : (unread : Rule σ Nat).Keeps := fun _ _ => rfl

theorem keeps_peek : (peek : Rule σ (Option Char)).Keeps := fun _ _ => rfl

theorem Moves.bind {r : Rule σ α} {f : α → Rule σ β} {tells : α → σ → Prop}
    {step : β → σ → σ → Prop} (first : r.Moves fun a held after => tells a held ∧ after = held)
    (next : ∀ a, (f a).Moves fun c held after => tells a held → step c held after) :
    (r >>= f).Moves step := by
  intro b s
  refine (first b s).bind (fun a s' met => ?_) fun _ _ kept => kept
  obtain ⟨told, kept⟩ := met
  have rest := next a b s'
  rw [kept] at rest
  exact rest.imp (fun _ _ moved => moved told) fun _ _ still => still

theorem Keeps.andThen {r : Rule σ α} {f : α → Rule σ β} {step : β → σ → σ → Prop}
    (first : r.Keeps) (next : ∀ a, (f a).Moves step) : (r >>= f).Moves step := by
  intro b s
  refine (first b s).bind (fun a s' kept => ?_) fun _ _ kept => kept
  have rest := next a b s'
  rwa [kept] at rest

theorem Keeps.bind {r : Rule σ α} {f : α → Rule σ β} {effect : β → σ → σ} (first : r.Keeps)
    (next : ∀ a, (f a).Commits effect) : (r >>= f).Commits effect :=
  (first.andThen fun a => (next a).moves).commits fun _ _ _ => id

theorem Commits.congr {r : Rule σ α} {effect effect' : α → σ → σ} (commits : r.Commits effect)
    (same : ∀ a held, effect' a held = effect a held) : r.Commits effect' := by
  have equal : effect' = effect := funext fun a => funext (same a)
  exact equal ▸ commits

theorem Moves.map {r : Rule σ α} {step : α → σ → σ → Prop} (first : r.Moves step) (g : α → β)
    {step' : β → σ → σ → Prop} (same : ∀ a held after, step a held after → step' (g a) held after) :
    (g <$> r).Moves step' := by
  intro b s
  exact leads_map ((first b s).imp (fun a _ => same a _ _) fun _ _ kept => kept)

theorem Commits.map {r : Rule σ α} {effect : α → σ → σ} (first : r.Commits effect) (g : α → β)
    {effect' : β → σ → σ} (same : ∀ a, effect' (g a) = effect a) :
    (g <$> r).Commits effect' := by
  refine (first.moves.map g fun a held after changed => ?_).commits fun _ _ _ => id
  rw [changed, same]

theorem keeps_of_held {r : Rule σ α} (same : ∀ b s, (r b s).2.held = s.held) : r.Keeps := by
  intro b s
  have held := same b s
  refine leads_of_results (fun a s' ran => ?_) fun e s' ran => ?_
  · rwa [ran] at held
  · rwa [ran] at held

theorem keeps_char (spec : Option String) : (char spec : Rule σ Char).Keeps := by
  refine keeps_of_held fun b s => ?_
  unfold char
  split
  · rfl
  · split
    · rfl
    · split
      · rfl
      · dsimp only
        split <;> rfl

theorem keeps_keyword (literals : List String) : (keyword literals : Rule σ String).Keeps := by
  refine keeps_of_held fun b s => ?_
  unfold keyword
  dsimp only
  split
  · rfl
  · split <;> rfl

theorem keeps_tryKeyword (literals : List String) :
    (tryKeyword literals : Rule σ (Option String)).Keeps := by
  intro b s
  exact (leads_tryKeyword (keeps_keyword literals b s)).imp (fun _ _ kept => kept)
    fun _ _ => False.elim

theorem Commits.recover {r : Rule σ α} {effect : α → σ → σ} (commits : r.Commits effect) :
    (Rule.recover r).Commits fun value held => value.elim held fun a => effect a held := by
  intro b s
  exact leads_recover ((commits b s).imp (fun _ _ changed => changed)
    fun _ _ kept => ⟨fun _ => kept, fun _ => kept⟩)

theorem keeps_repeated {r : Rule σ (Option α)} (keeps : r.Keeps) (limit : Nat) :
    (repeated r limit).Keeps := by
  induction limit with
  | zero => exact keeps_pure _
  | succ limit ih =>
    refine keeps.bind fun value => ?_
    cases value with
    | none => exact keeps_pure _
    | some a => exact ih.bind fun _ => keeps_pure _

theorem moves_firstOf {branches : List (Branch σ α)} {step : α → σ → σ → Prop}
    (moves : ∀ branch ∈ branches, branch.rule.Moves step) (entry : Nat)
    (furthest : Option Furthest) : (firstOf entry branches furthest).Moves step := by
  induction branches generalizing furthest with
  | nil => exact fun _ _ => leads_firstOf_nil rfl
  | cons branch rest ih =>
    intro b s
    have first := moves branch (List.mem_cons_self ..)
    have later := ih fun other member => moves other (List.mem_cons_of_mem _ member)
    refine leads_firstOf_cons ((first b s).imp (fun _ _ moved => moved) ?_)
    intro e s' kept
    refine ⟨fun _ => kept, fun _ => ?_⟩
    have tried := later (some (Furthest.add furthest branch.name e)) b
      ((s'.note (.branchFailed branch.name e.position)).moveTo s.offset)
    simpa only [State.moveTo_held, State.note_held, kept] using tried

theorem moves_choice {branches : List (Branch σ α)} {step : α → σ → σ → Prop}
    (moves : ∀ branch ∈ branches, branch.rule.Moves step) : (choice branches).Moves step := by
  intro b s
  exact leads_choice (moves_firstOf moves s.offset none b (s.moveTo (b.pastSpace s.offset)))

theorem commits_choice {branches : List (Branch σ α)} {effect : α → σ → σ}
    (commits : ∀ branch ∈ branches, branch.rule.Commits effect) :
    (choice branches).Commits effect :=
  (moves_choice fun branch member => (commits branch member).moves).commits fun _ _ _ => id

theorem commits_tryChoice {branches : List (Branch σ α)} {effect : α → σ → σ}
    (commits : ∀ branch ∈ branches, branch.rule.Commits effect) :
    (tryChoice branches).Commits fun value held => value.elim held fun a => effect a held :=
  (commits_choice commits).recover

end Rule

/-- What a declaration that is read asks of what has been declared before. The references of a
method are what its names stand for there, and a message name is new where the policy does not let
it be declared again. -/
def Declaration.Fits (policy : Policy) (d : Declared) : Declaration → Prop
  | method m =>
    Scope.resolve d.scope m.request.name = some m.request ∧
      Scope.resolve d.scope m.response.name = some m.response
  | message name _ => policy.duplicates = .reject → d.scope.get? name = none
  | bare _ => True

namespace Grammar

open Rule

theorem keeps_string : string.Keeps := by
  refine (keeps_char _).bind fun first => keeps_unread.bind fun limit => ?_
  have next : (tryChar (some nameClass) : Production (Option Char)).Keeps :=
    (keeps_char _).recover.congr fun value _ => by cases value <;> rfl
  exact (keeps_repeated next limit).bind fun rest => keeps_pure _

theorem keeps_identifier : identifier.Keeps := by
  refine commits_choice fun branch member => ?_
  rw [List.mem_singleton] at member
  exact member ▸ keeps_string

theorem keeps_pair : pair.Keeps :=
  keeps_identifier.bind fun _ => (keeps_keyword _).bind fun _ =>
    keeps_identifier.bind fun _ => keeps_pure _

theorem keeps_tryPair : (tryChoice [⟨"pair", pair⟩]).Keeps := by
  have commits : (tryChoice [⟨"pair", pair⟩]).Commits
      fun value (d : Declared) => value.elim d fun _ => d :=
    commits_tryChoice fun branch member => List.mem_singleton.1 member ▸ keeps_pair
  refine commits.congr fun value d => ?_
  cases value <;> rfl

theorem keeps_refuseBrace : refuseBrace.Keeps := by
  refine keeps_skipSpace.bind fun _ => keeps_peek.bind fun next => keeps_offset.bind fun here => ?_
  split
  · exact commits_fail _ _
  · exact keeps_pure _

theorem keeps_fields (policy : Policy) (limit : Nat) (afterComma : Bool) (body : Body) :
    (fields policy limit afterComma body).Keeps := by
  induction limit generalizing afterComma body with
  | zero => exact keeps_pure _
  | succ limit ih =>
    refine keeps_tryPair.bind fun read => ?_
    match read with
    | none =>
      dsimp only
      split
      · exact keeps_refuseBrace.bind fun _ => keeps_pure _
      · exact keeps_pure _
    | some (name, type) =>
      refine (keeps_tryKeyword _).bind fun comma => ?_
      cases comma with
      | none => exact keeps_pure _
      | some _ => exact ih true _

theorem keeps_body (policy : Policy) : (body policy).Keeps :=
  (keeps_keyword _).bind fun _ => keeps_unread.bind fun _ =>
    (keeps_fields policy _ _ _).bind fun _ => (keeps_keyword _).bind fun _ => keeps_pure _

theorem moves_declare (policy : Policy) (start : Nat) (name : String) (body : Body) :
    (declare policy start name body).Moves fun _ d d' =>
      (Declaration.message name body).Fits policy d ∧ d' = d.add (.message name body) := by
  intro b s
  refine leads_bind_of_ok (a := s.held) rfl ?_
  dsimp only
  split
  · exact leads_fail rfl
  · next allowed =>
    have fits : (Declaration.message name body).Fits policy s.held := by
      intro reject
      simpa [OrderedMap.contains, reject] using allowed
    refine leads_bind_of_ok rfl ?_
    split
    · exact ⟨fits, rfl⟩
    · exact ⟨fits, rfl⟩

theorem moves_message (policy : Policy) :
    (message policy).Moves fun read d d' =>
      (Declaration.message read.1 read.2).Fits policy d ∧ d' = d.add (.message read.1 read.2) :=
  (keeps_keyword _).andThen fun _ => keeps_skipSpace.andThen fun _ =>
    keeps_offset.andThen fun start => keeps_string.andThen fun name =>
    keeps_skipSpace.andThen fun _ => (keeps_body policy).andThen fun body =>
      (moves_declare policy start name body).map (fun _ => (name, body)) fun _ _ _ moved => moved

theorem moves_reference (role : Role) :
    (reference role).Moves fun found d d' =>
      Scope.resolve d.scope found.name = some found ∧ d' = d := by
  refine keeps_skipSpace.andThen fun _ => keeps_offset.andThen fun start =>
    keeps_identifier.andThen fun name => ?_
  intro b s
  refine leads_bind_of_ok (a := s.held) rfl ?_
  dsimp only
  split
  · next found resolved =>
    have same := (Scope.resolve_name resolved).1
    exact leads_pure ⟨same ▸ resolved, rfl⟩
  · exact leads_fail rfl

theorem moves_method (policy : Policy) :
    method.Moves fun m d d' =>
      (Declaration.method m).Fits policy d ∧ d' = d.add (.method m) := by
  refine (keeps_keyword _).andThen fun _ => keeps_identifier.andThen fun name =>
    (keeps_keyword _).andThen fun _ => (moves_reference _).bind fun request =>
    (keeps_keyword _).andThen fun _ => (keeps_keyword _).andThen fun _ =>
    (moves_reference _).bind fun response => (keeps_keyword _).andThen fun _ => ?_
  intro b s responded requested
  exact ⟨⟨requested, responded⟩, rfl⟩

theorem moves_complexType (policy : Policy) :
    (complexType policy).Moves fun declaration d d' =>
      declaration.Fits policy d ∧ d' = d.add declaration := by
  apply moves_choice
  intro branch member
  simp only [List.mem_cons, List.not_mem_nil, or_false] at member
  rcases member with rfl | rfl
  · exact (moves_method policy).map _ fun _ _ _ moved => moved
  · exact (moves_message policy).map _ fun _ _ _ moved => moved

theorem commits_primitiveType : primitiveType.Commits fun declaration => (·.add declaration) :=
  keeps_identifier.map _ fun _ => rfl

theorem moves_anyType (policy : Policy) :
    (anyType policy).Moves fun declaration d d' =>
      declaration.Fits policy d ∧ d' = d.add declaration := by
  apply moves_choice
  intro branch member
  simp only [List.mem_cons, List.not_mem_nil, or_false] at member
  rcases member with rfl | rfl
  · exact moves_complexType policy
  · exact keeps_identifier.moves.map _ fun _ _ _ kept => ⟨trivial, kept⟩

theorem moves_declaration (policy : Policy) :
    (declaration policy).Moves fun declaration d d' =>
      declaration.Fits policy d ∧ d' = d.add declaration := by
  apply moves_choice
  intro branch member
  rw [List.mem_singleton] at member
  exact member ▸ moves_anyType policy

theorem commits_message (policy : Policy) :
    (message policy).Commits fun read => (·.add (.message read.1 read.2)) :=
  (moves_message policy).commits fun _ _ _ => And.right

theorem commits_method : method.Commits fun m => (·.add (.method m)) :=
  (moves_method .lenient).commits fun _ _ _ => And.right

theorem commits_complexType (policy : Policy) :
    (complexType policy).Commits fun declaration => (·.add declaration) :=
  (moves_complexType policy).commits fun _ _ _ => And.right

theorem commits_anyType (policy : Policy) :
    (anyType policy).Commits fun declaration => (·.add declaration) :=
  (moves_anyType policy).commits fun _ _ _ => And.right

theorem commits_declaration (policy : Policy) :
    (declaration policy).Commits fun declaration => (·.add declaration) :=
  (moves_declaration policy).commits fun _ _ _ => And.right

end Grammar

/-- What a production declares when it gives a value. -/
def Value.declares : Value → Declared → Declared
  | declaration value => (·.add value)
  | message name content => (·.add (.message name content))
  | method value => (·.add (.method value))
  | _ => id

theorem Symbol.commits_rule (policy : Policy) (symbol : Symbol) :
    (symbol.rule policy).Commits Value.declares := by
  cases symbol with
  | declaration => exact (Grammar.commits_declaration policy).map _ fun _ => rfl
  | anyType => exact (Grammar.commits_anyType policy).map _ fun _ => rfl
  | complexType => exact (Grammar.commits_complexType policy).map _ fun _ => rfl
  | primitiveType => exact Grammar.commits_primitiveType.map _ fun _ => rfl
  | string => exact Grammar.keeps_string.map _ fun _ => rfl
  | pair => exact Grammar.keeps_pair.map _ fun _ => rfl
  | body => exact (Grammar.keeps_body policy).map _ fun _ => rfl
  | message => exact (Grammar.commits_message policy).map _ fun _ => rfl
  | method => exact Grammar.commits_method.map _ fun _ => rfl

def Symbol.branch (policy : Policy) (named : String × Symbol) : Branch Declared Value :=
  ⟨named.1, named.2.rule policy⟩

theorem Symbol.commits_branch (policy : Policy) (branches : List (String × Symbol)) :
    ∀ branch ∈ branches.map (Symbol.branch policy), branch.rule.Commits Value.declares := by
  intro branch member
  obtain ⟨named, _, rfl⟩ := List.mem_map.1 member
  exact named.2.commits_rule policy

/-- One declaration, and nothing else, has been added. -/
def AddsOnly (before after : Declared) : Declaration → Prop
  | .method m =>
    after.interface.methods = before.interface.methods ++ [m] ∧ after.scope = before.scope
  | .message name body =>
    after.interface = before.interface ∧ after.scope.get? name = some body ∧
      ∀ other, other ≠ name → after.scope.get? other = before.scope.get? other
  | .bare _ => after = before

theorem addsOnly_add (d : Declared) (declaration : Declaration) :
    AddsOnly d (d.add declaration) declaration := by
  cases declaration with
  | method m => exact ⟨rfl, rfl⟩
  | message name body =>
    refine ⟨rfl, ?_, fun other different => ?_⟩
    · simp [Declared.add, OrderedMap.get?_insert]
    · simp [Declared.add, OrderedMap.get?_insert, different]
  | bare token => rfl

/-- A production, and a choice between productions in any order, declares nothing when it fails or
gives no value. A declaration that is read declares itself and nothing else. -/
theorem declares_only_what_is_read (policy : Policy) (b : Buffer) (s s' : State Declared) :
    (∀ (symbol : Symbol) (e : Failure),
      symbol.rule policy b s = (.error e, s') → s'.held = s.held) ∧
    (∀ (branches : List (String × Symbol)) (e : Failure),
      Rule.choice (branches.map (Symbol.branch policy)) b s = (.error e, s') →
        s'.held = s.held) ∧
    (∀ (branches : List (String × Symbol)) (e : Failure),
      Rule.tryChoice (branches.map (Symbol.branch policy)) b s = (.error e, s') →
        s'.held = s.held) ∧
    (∀ branches : List (String × Symbol),
      Rule.tryChoice (branches.map (Symbol.branch policy)) b s = (.ok none, s') →
        s'.held = s.held) ∧
    ∀ declaration : Declaration,
      Grammar.declaration policy b s = (.ok declaration, s') →
        AddsOnly s.held s'.held declaration := by
  refine ⟨fun symbol e ran => ?_, fun branches e ran => ?_, fun branches e ran => ?_,
    fun branches ran => ?_, fun declaration ran => ?_⟩
  · exact (symbol.commits_rule policy b s).of_error ran
  · exact (Rule.commits_choice (Symbol.commits_branch policy branches) b s).of_error ran
  · exact (Rule.commits_tryChoice (Symbol.commits_branch policy branches) b s).of_error ran
  · exact (Rule.commits_tryChoice (Symbol.commits_branch policy branches) b s).of_ok ran
  · rw [(Grammar.commits_declaration policy b s).of_ok ran]
    exact addsOnly_add s.held declaration

/-- A method that breaks off at its response, whose request is in scope. -/
theorem half_read_method_declares_nothing :
    let b := Buffer.ofText "method N(A) -> B;"
    let s : State Declared := .initial ⟨.empty, OrderedMap.empty.insert "A" .empty⟩
    ∃ e s', Symbol.method.rule .lenient b s = (.error e, s') ∧ s'.held = s.held := by
  intro b s
  have broken : (Symbol.method.rule .lenient b s).1.isOk = false := by decide +kernel
  match ran : Symbol.method.rule .lenient b s with
  | (.ok m, s') =>
    rw [ran] at broken
    cases broken
  | (.error e, s') => exact ⟨e, s', rfl, (declares_only_what_is_read _ _ _ s').1 .method e ran⟩

end RpcSchema
