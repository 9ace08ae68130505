import RpcSchema.Proofs.Atomicity
import RpcSchema.Proofs.Text

/-! The history of a run: the declarations that its rounds read, each with the offset where it
starts and with what was declared before it. -/
namespace RpcSchema

structure Round where
  start : Nat
  before : Declared
  declaration : Declaration

namespace Round

def isMessage (r : Round) : Bool :=
  match r.declaration with
  | .message _ _ => true
  | .method _ | .bare _ => false

/-- The declaration is that of a message whose name is in scope already. -/
def redeclares (r : Round) : Bool :=
  match r.declaration with
  | .message name _ => r.before.scope.contains name
  | .method _ | .bare _ => false

/-- Where the name of a message starts, behind the keyword and the space that may follow it. -/
def nameStart (b : Buffer) (r : Round) : Nat := b.pastToken r.start (.keyword .message)

end Round

theorem OrderedMap.size_insert {α : Type} {m : OrderedMap α} {name : String}
    (fresh : m.contains name = false) (value : α) : (m.insert name value).size = m.size + 1 := by
  have absent : name ∉ m.keys := by
    rw [← OrderedMap.get?_eq_none_iff]
    simpa [OrderedMap.contains] using fresh
  have keys := congrArg List.length (m.keys_insert name value)
  rw [if_neg absent] at keys
  simpa [OrderedMap.keys, OrderedMap.size] using keys

theorem Round.size_add {r : Round} (fresh : r.redeclares = false) :
    (r.before.add r.declaration).scope.size =
      r.before.scope.size + if r.isMessage then 1 else 0 := by
  obtain ⟨start, before, declaration⟩ := r
  cases declaration with
  | message name body => exact OrderedMap.size_insert fresh body
  | method m => rfl
  | bare token => rfl

namespace Grammar

open Rule

def history (policy : Policy) (b : Buffer) : (limit : Nat) → State Declared → List Round
  | 0, _ => []
  | limit + 1, s =>
    if b.size ≤ s.offset then []
    else
      match declaration policy b s with
      | (.error _, _) => []
      | (.ok declaration, s') =>
        ⟨s.offset, s.held, declaration⟩ :: history policy b limit (s'.note declaration.event)

variable {policy : Policy} {b : Buffer} {limit : Nat} {s s' : State Declared}

theorem history_of_ended (ended : b.size ≤ s.offset) : history policy b limit s = [] := by
  cases limit with
  | zero => rfl
  | succ limit => simp only [history, ended, if_true]

theorem history_of_error {e : Failure} (ran : declaration policy b s = (.error e, s')) :
    history policy b limit s = [] := by
  cases limit with
  | zero => rfl
  | succ limit => simp only [history, ran, ite_self]

theorem history_of_ok {declaration : Declaration} (unread : s.offset < b.size)
    (ran : Grammar.declaration policy b s = (.ok declaration, s')) :
    history policy b (limit + 1) s =
      ⟨s.offset, s.held, declaration⟩ :: history policy b limit (s'.note declaration.event) := by
  simp only [history, ran, Nat.not_le.2 unread, if_false]

theorem rounds_of_ended (ended : b.size ≤ s.offset) : rounds policy limit b s = (.ok (), s) := by
  cases limit with
  | zero => rfl
  | succ limit =>
    rw [rounds, bind_of_ok rfl, bind_of_ok rfl, if_pos (Nat.sub_eq_zero_of_le ended)]
    rfl

theorem rounds_of_error {e : Failure} (unread : s.offset < b.size)
    (ran : declaration policy b s = (.error e, s')) :
    rounds policy (limit + 1) b s = (.error e, s') := by
  rw [rounds, bind_of_ok rfl, bind_of_ok rfl, if_neg (Nat.sub_ne_zero_of_lt unread),
    bind_of_error ran]

theorem rounds_of_ok {declaration : Declaration} (unread : s.offset < b.size)
    (ran : Grammar.declaration policy b s = (.ok declaration, s'))
    (further : s.offset < s'.offset) :
    rounds policy (limit + 1) b s = rounds policy limit b (s'.note declaration.event) := by
  rw [rounds, bind_of_ok rfl, bind_of_ok rfl, if_neg (Nat.sub_ne_zero_of_lt unread),
    bind_of_ok ran, bind_of_ok rfl, if_neg (Nat.not_le.2 further), bind_of_ok rfl]

theorem rounds_of_still {declaration : Declaration} (unread : s.offset < b.size)
    (ran : Grammar.declaration policy b s = (.ok declaration, s')) (still : s'.offset ≤ s.offset) :
    rounds policy (limit + 1) b s = (.error (noProgress s.offset), s') := by
  rw [rounds, bind_of_ok rfl, bind_of_ok rfl, if_neg (Nat.sub_ne_zero_of_lt unread),
    bind_of_ok ran, bind_of_ok rfl, if_pos still]
  rfl

theorem size_of_rounds (ran : rounds policy limit b s = (.ok (), s'))
    (fresh : ∀ r ∈ history policy b limit s, r.redeclares = false) :
    s'.held.scope.size =
      s.held.scope.size + (history policy b limit s).countP Round.isMessage := by
  induction limit generalizing s with
  | zero =>
    cases ran
    rfl
  | succ limit ih =>
    by_cases ended : b.size ≤ s.offset
    · rw [rounds_of_ended ended] at ran
      cases ran
      rw [history_of_ended ended]
      rfl
    · have unread := Nat.lt_of_not_le ended
      cases read : declaration policy b s with
      | mk result t =>
        cases result with
        | error e => cases (rounds_of_error unread read).symm.trans ran
        | ok declaration =>
          by_cases still : t.offset ≤ s.offset
          · cases (rounds_of_still unread read still).symm.trans ran
          · rw [rounds_of_ok unread read (Nat.lt_of_not_le still)] at ran
            rw [history_of_ok unread read] at fresh ⊢
            have ⟨here, later⟩ := List.forall_mem_cons.1 fresh
            -- What is in scope behind the round is what was there before and the declaration.
            have held : t.held = s.held.add declaration :=
              (commits_declaration policy b s).of_ok read
            have first : (s.held.add declaration).scope.size = s.held.scope.size + _ :=
              Round.size_add here
            rw [ih ran later, State.note_held, held, first, List.countP_cons]
            omega

end Grammar

def sourceHistory (policy : Policy) (source : String) : List Round :=
  let b := Buffer.ofSource source
  Grammar.history policy b b.size ((State.initial .nothing).note (.normalized b.size))

end RpcSchema
