import RpcSchema.Program

/-! Properties that all productions have. When a property holds of the rules that the grammar is
made of, and each way of putting rules together keeps it, then every production has it, for every
policy. -/
namespace RpcSchema

namespace Rule

/-- A property of rules that is kept by each way in which the grammar puts rules together, whatever
characters and literals are read and whatever is declared and refused. -/
structure Closed {σ : Type} (P : {α : Type} → Rule σ α → Prop) : Prop where
  pure {α : Type} (a : α) : P (Pure.pure a : Rule σ α)
  bind {α β : Type} {r : Rule σ α} {f : α → Rule σ β} (first : P r) (next : ∀ a, P (f a)) :
    P (r >>= f)
  recover {α : Type} {r : Rule σ α} (tried : P r) : P (Rule.recover r)
  choice {α : Type} {branches : List (Branch σ α)} (each : ∀ branch ∈ branches, P branch.rule) :
    P (Rule.choice branches)
  fail {α : Type} (e : Failure) : P (Rule.fail e : Rule σ α)
  char (spec : Option String) : P (Rule.char spec : Rule σ Char)
  keyword (literals : List String) : P (Rule.keyword literals : Rule σ String)
  tryKeyword (literals : List String) : P (Rule.tryKeyword literals : Rule σ (Option String))
  skipSpace : P (Rule.skipSpace : Rule σ Unit)
  peek : P (Rule.peek : Rule σ (Option Char))
  offset : P (Rule.offset : Rule σ Nat)
  unread : P (Rule.unread : Rule σ Nat)
  held : P (Rule.held : Rule σ σ)
  setHeld (value : σ) : P (Rule.setHeld value : Rule σ Unit)
  note (event : Event) : P (Rule.note event : Rule σ Unit)

namespace Closed

section

variable {σ α β : Type} {P : {α : Type} → Rule σ α → Prop}

theorem map (closed : Closed P) {r : Rule σ α} (holds : P r) (g : α → β) : P (g <$> r) :=
  closed.bind holds fun a => closed.pure (g a)

theorem repeated (closed : Closed P) {r : Rule σ (Option α)} (holds : P r) (limit : Nat) :
    P (Rule.repeated r limit) := by
  induction limit with
  | zero => exact closed.pure []
  | succ limit ih =>
    refine closed.bind holds fun value => ?_
    cases value with
    | none => exact closed.pure []
    | some a => exact closed.bind ih fun rest => closed.pure (a :: rest)

end

variable {P : {α : Type} → Grammar.Production α → Prop} (closed : Closed P) (policy : Policy)

include closed

theorem string : P Grammar.string :=
  closed.bind (closed.char _) fun _ => closed.bind closed.unread fun limit =>
    closed.bind (closed.repeated (closed.recover (closed.char _)) limit) fun _ => closed.pure _

theorem identifier : P Grammar.identifier :=
  closed.choice (List.forall_mem_singleton.2 closed.string)

theorem pair : P Grammar.pair :=
  closed.bind closed.identifier fun _ => closed.bind (closed.keyword _) fun _ =>
    closed.bind closed.identifier fun _ => closed.pure _

theorem refuseBrace : P Grammar.refuseBrace := by
  refine closed.bind closed.skipSpace fun _ => closed.bind closed.peek fun next =>
    closed.bind closed.offset fun here => ?_
  split
  · exact closed.fail _
  · exact closed.pure ()

theorem fields (limit : Nat) (afterComma : Bool) (body : Body) :
    P (Grammar.fields policy limit afterComma body) := by
  have field : P (Rule.choice [⟨"pair", Grammar.pair⟩]) :=
    closed.choice (List.forall_mem_singleton.2 closed.pair)
  induction limit generalizing afterComma body with
  | zero => exact closed.pure body
  | succ limit ih =>
    refine closed.bind (closed.recover field) fun read => ?_
    match read with
    | none =>
      dsimp only
      split
      · exact closed.bind closed.refuseBrace fun _ => closed.pure body
      · exact closed.pure body
    | some (name, type) =>
      refine closed.bind (closed.tryKeyword [","]) fun comma => ?_
      cases comma with
      | none => exact closed.pure _
      | some _ => exact ih true _

theorem body : P (Grammar.body policy) :=
  closed.bind (closed.keyword _) fun _ => closed.bind closed.unread fun _ =>
    closed.bind (closed.fields policy _ _ _) fun _ => closed.bind (closed.keyword _) fun _ =>
    closed.pure _

theorem declare (start : Nat) (name : String) (body : Body) :
    P (Grammar.declare policy start name body) := by
  refine closed.bind closed.held fun declared => ?_
  dsimp only
  split
  · exact closed.fail _
  · refine closed.bind (closed.setHeld _) fun _ => ?_
    split
    · exact closed.note _
    · exact closed.pure ()

theorem message : P (Grammar.message policy) :=
  closed.bind (closed.keyword _) fun _ => closed.bind closed.skipSpace fun _ =>
    closed.bind closed.offset fun start => closed.bind closed.string fun name =>
    closed.bind closed.skipSpace fun _ => closed.bind (closed.body policy) fun body =>
    closed.bind (closed.declare policy start name body) fun _ => closed.pure _

theorem reference (role : Role) : P (Grammar.reference role) := by
  refine closed.bind closed.skipSpace fun _ => closed.bind closed.offset fun start =>
    closed.bind closed.identifier fun name => closed.bind closed.held fun declared => ?_
  cases declared.scope.resolve name with
  | some found => exact closed.pure found
  | none => exact closed.fail _

theorem method : P Grammar.method :=
  closed.bind (closed.keyword _) fun _ => closed.bind closed.identifier fun _ =>
    closed.bind (closed.keyword _) fun _ => closed.bind (closed.reference _) fun _ =>
    closed.bind (closed.keyword _) fun _ => closed.bind (closed.keyword _) fun _ =>
    closed.bind (closed.reference _) fun _ => closed.bind (closed.keyword _) fun _ =>
    closed.bind closed.held fun _ => closed.bind (closed.setHeld _) fun _ => closed.pure _

theorem complexType : P (Grammar.complexType policy) :=
  closed.choice (List.forall_mem_cons.2 ⟨closed.map closed.method _,
    List.forall_mem_singleton.2 (closed.map (closed.message policy) _)⟩)

theorem primitiveType : P Grammar.primitiveType := closed.map closed.identifier _

theorem anyType : P (Grammar.anyType policy) :=
  closed.choice (List.forall_mem_cons.2 ⟨closed.complexType policy,
    List.forall_mem_singleton.2 closed.primitiveType⟩)

theorem declaration : P (Grammar.declaration policy) :=
  closed.choice (List.forall_mem_singleton.2 (closed.anyType policy))

theorem rounds (limit : Nat) : P (Grammar.rounds policy limit) := by
  induction limit with
  | zero => exact closed.pure ()
  | succ limit ih =>
    refine closed.bind closed.unread fun unread => closed.bind closed.offset fun start => ?_
    split
    · exact closed.pure ()
    · refine closed.bind (closed.declaration policy) fun declaration =>
        closed.bind closed.offset fun reached => ?_
      split
      · exact closed.fail _
      · exact closed.bind (closed.note _) fun _ => ih

theorem source : P (Grammar.source policy) :=
  closed.bind closed.unread fun limit => closed.bind (closed.rounds policy limit) fun _ =>
    closed.bind closed.held fun _ => closed.bind (closed.note _) fun _ => closed.pure _

theorem symbol (production : Symbol) : P (production.rule policy) := by
  cases production with
  | declaration => exact closed.map (closed.declaration policy) _
  | anyType => exact closed.map (closed.anyType policy) _
  | complexType => exact closed.map (closed.complexType policy) _
  | primitiveType => exact closed.map closed.primitiveType _
  | string => exact closed.map closed.string _
  | pair => exact closed.map closed.pair _
  | body => exact closed.map (closed.body policy) _
  | message => exact closed.map (closed.message policy) _
  | method => exact closed.map closed.method _

end Closed

end Rule

end RpcSchema
