import RpcSchema.Rule

/-! Ordered choice between named rules. The branches run from one offset, the first that succeeds
wins, and a fatal failure ends the choice at once. When every branch fails the failure that got
furthest is reported; branches that tie there are reported together by name. -/
namespace RpcSchema

structure Branch (σ α : Type) where
  name : String
  rule : Rule σ α

/-- The failure that got furthest so far, with the names of all branches that failed there. -/
structure Furthest where
  failure : Failure
  names : List String

namespace Furthest

def add : Option Furthest → String → Failure → Furthest
  | none, name, failure => ⟨failure, [name]⟩
  | some best, name, failure =>
    if failure.position < best.failure.position then best
    else if failure.position = best.failure.position then ⟨best.failure, best.names ++ [name]⟩
    else ⟨failure, [name]⟩

def emptyChoice (entry : Nat) : Failure :=
  ⟨entry, .internal "ordered choice over an empty alternative list"⟩

/-- What a choice entered at `entry` reports when every branch failed. -/
def verdict (b : Buffer) (entry : Nat) : Option Furthest → Failure
  | none => emptyChoice entry
  | some best =>
    if best.names.length = 1 then best.failure
    else ⟨best.failure.position, .noBranch best.names (b.get? best.failure.position)⟩

end Furthest

namespace Rule

variable {σ α : Type}

/-- The branches that are left, each from the present offset, in a choice entered at `entry`. -/
def firstOf (entry : Nat) : List (Branch σ α) → Option Furthest → Rule σ α
  | [], furthest => fun b s => (.error (Furthest.verdict b entry furthest), s.moveTo entry)
  | branch :: rest, furthest => fun b s =>
    match branch.rule b s with
    | (.ok a, s') => (.ok a, s'.moveTo (b.pastSpace s'.offset))
    | (.error e, s') =>
      if e.isFatal then (.error e, s'.moveTo entry)
      else
        firstOf entry rest (some (Furthest.add furthest branch.name e)) b
          ((s'.note (.branchFailed branch.name e.position)).moveTo s.offset)

def choice (branches : List (Branch σ α)) : Rule σ α := fun b s =>
  firstOf s.offset branches none b (s.moveTo (b.pastSpace s.offset))

def tryChoice (branches : List (Branch σ α)) : Rule σ (Option α) := recover (choice branches)

theorem firstOf_error_offset {entry : Nat} {branches : List (Branch σ α)}
    {furthest : Option Furthest} {b : Buffer} {s s' : State σ} {e : Failure}
    (ran : firstOf entry branches furthest b s = (.error e, s')) : s'.offset = entry := by
  induction branches generalizing furthest s with
  | nil =>
    cases ran
    rfl
  | cons branch rest ih =>
    unfold firstOf at ran
    split at ran
    · cases ran
    · split at ran
      · cases ran
        rfl
      · exact ih ran

theorem choice_error_offset {branches : List (Branch σ α)} {b : Buffer} {s s' : State σ}
    {e : Failure} (ran : choice branches b s = (.error e, s')) : s'.offset = s.offset :=
  firstOf_error_offset ran

end Rule

end RpcSchema
