import RpcSchema.Proofs.Commas
import RpcSchema.Proofs.Productions
import RpcSchema.Proofs.Restriction

/-! The productions under a policy and under a stricter one, in a tight buffer. The stricter reading
stops at the brace behind the first closed comma, or it denies a message that is in scope already,
at its name and once it has been read whole. Otherwise the two readings end alike. -/
namespace RpcSchema

/-- The first policy takes no liberty that the second one refuses. -/
structure Policy.Stricter (strict lenient : Policy) : Prop where
  commas : strict.trailingComma = lenient.trailingComma ∨
    (strict.trailingComma = .reject ∧ lenient.trailingComma = .allow)
  duplicates : strict.duplicates = lenient.duplicates ∨
    (strict.duplicates = .reject ∧ lenient.duplicates = .overwrite)

namespace Grammar

open Rule

variable {strict lenient : Policy} {b : Buffer} {s : State Declared} {o : Nat} {d : Declared}

def StopsAtComma (strict lenient : Policy) (b : Buffer) (o : Nat) (e : Failure) : Prop :=
  strict.trailingComma ≠ lenient.trailingComma ∧ b.Dangles o e

theorem StopsAtComma.of_open {e : Failure} {m : Nat} (stops : StopsAtComma strict lenient b m e)
    (le : o ≤ m) (opened : b.OpenCommas o m) : StopsAtComma strict lenient b o e :=
  ⟨stops.1, stops.2.of_open le opened⟩

/-- The failure of a message that starts at the position and whose name is in scope. -/
structure DeniesName (strict lenient : Policy) (b : Buffer) (o : Nat) (d : Declared)
    (name : String) (e : Failure) : Prop where
  differ : strict.duplicates ≠ lenient.duplicates
  known : d.scope.contains name = true
  begun : b.holds o (Token.keyword .message).chars = true
  named : b.wordAt (b.pastToken o (.keyword .message)) = name.toList
  failure : e = ⟨b.pastToken o (.keyword .message), .duplicateMessage name⟩

theorem refuseBrace_apply (start : b.Start o) (place : s.At o d) :
    refuseBrace b s =
      if b.get? o = some '\x7d' then (.error ⟨o, .danglingComma (some '\x7d')⟩, s)
      else (.ok (), s) := by
  have still : (skipSpace : Production Unit) b s = (.ok (), s) := by
    rw [skipSpace, place.pastSpace_eq start, ← place.offset_eq, State.moveTo_self]
  unfold refuseBrace
  rw [bind_of_ok still, bind_of_ok rfl, bind_of_ok rfl, place.offset_eq]
  split
  · next brace => rw [brace]; rfl
  · rfl

def Behind (b : Buffer) (c o : Nat) : (afterComma : Bool) → Prop
  | true => b.get? c = some ',' ∧ b.pastSpace (c + 1) = o
  | false => c = o

theorem Behind.le {c : Nat} {afterComma : Bool} (behind : Behind b c o afterComma) : c ≤ o := by
  cases afterComma with
  | true =>
    have further := b.le_pastSpace (c + 1)
    have same := behind.2
    omega
  | false => exact Nat.le_of_eq behind

theorem Behind.openCommas {c : Nat} {afterComma : Bool} (behind : Behind b c o afterComma)
    (next : b.get? o ≠ some '\x7d') : b.OpenCommas c o := by
  cases afterComma with
  | true =>
    obtain ⟨_, rfl⟩ := behind
    exact Buffer.openCommas_comma next
  | false =>
    cases behind
    exact b.openCommas_self _

theorem restricts_noField (stricter : strict.Stricter lenient) {c : Nat} (start : b.Start o)
    (place : s.At o d) {afterComma : Bool} (behind : Behind b c o afterComma) (body : Body) :
    Restricts
      (if (afterComma && decide (strict.trailingComma = .reject)) = true then do
        refuseBrace
        return body
      else return body)
      (if (afterComma && decide (lenient.trailingComma = .reject)) = true then do
        refuseBrace
        return body
      else return body)
      b s (StopsAtComma strict lenient b c) fun _ _ => False := by
  rcases stricter.commas with equal | ⟨reject, allow⟩
  · rw [equal]
    exact restricts_self _ _ _ _ _
  · cases afterComma with
    | false => exact restricts_self _ _ _ _ _
    | true =>
      have refused := refuseBrace_apply start place
      obtain ⟨comma, rfl⟩ := behind
      simp only [reject, allow, Bool.true_and, decide_true, if_true, reduceCtorEq, decide_false,
        Bool.false_eq_true, if_false]
      split at refused
      · next brace =>
        refine .stopped _ s (bind_of_error refused) rfl ⟨by simp [reject, allow], c, ?_⟩
        exact ⟨Nat.le_refl c, ⟨comma, brace⟩, b.openCommas_self c, rfl⟩
      · exact .same (bind_of_ok refused)

theorem restricts_fields (stricter : strict.Stricter lenient) (tight : b.Tight) (limit : Nat)
    {c : Nat} (start : b.Start o) (place : s.At o d) {afterComma : Bool}
    (behind : Behind b c o afterComma) (body : Body) :
    (fields strict limit afterComma body).Restricts (fields lenient limit afterComma body) b s
      (StopsAtComma strict lenient b c) fun _ _ => False := by
  induction limit generalizing s o c afterComma body with
  | zero => exact restricts_self _ _ _ _ _
  | succ limit ih =>
    refine Restricts.bind_self (leads_tryPair tight start place) fun value s₁ met => ?_
    match value with
    | none => exact restricts_noField stricter start met behind body
    | some read =>
      obtain ⟨field, o₁, spelled, rfl, place₁⟩ := met
      have start₁ := spelled.start tight start
      refine Restricts.bind_self (leads_trySign .comma start₁ place₁) fun value s₂ met => ?_
      match value with
      | none => exact restricts_self _ _ _ _ _
      | some _ =>
        obtain ⟨comma, place₂⟩ := met
        have start₂ := tight.start_pastToken comma
        have behind₂ : Behind b o₁ (b.pastToken o₁ (.sign .comma)) true :=
          ⟨Buffer.get?_of_holds comma, rfl⟩
        have rest := ih start₂ place₂ behind₂ (body.insert field.name.text field.type.text)
        -- A name stands behind the comma before these fields, so it is open.
        have before := behind.openCommas (Buffer.get?_ne_brace_of_word spelled.1.holds)
        have here := Buffer.openCommas_of_spells spelled field.comma_not_mem
        have le := Nat.le_trans behind.le spelled.le
        exact rest.imp (fun _ stops => stops.of_open le (before.trans here)) fun _ _ => id

theorem restricts_body (stricter : strict.Stricter lenient) (tight : b.Tight) (start : b.Start o)
    (place : s.At o d) :
    (body strict).Restricts (body lenient) b s (StopsAtComma strict lenient b o)
      fun _ _ => False := by
  refine Restricts.bind_self (leads_sign .openBrace start place) fun _ s₁ met => ?_
  obtain ⟨opened, place₁⟩ := met
  have start₁ := tight.start_pastToken opened
  have first := Buffer.openCommas_token opened (by simp)
  refine Restricts.bind (.same rfl) fun limit s₂ ran _ => ?_
  cases ran
  refine Restricts.bind ?_ fun _ _ _ _ => restricts_self _ _ _ _ _
  have behind : Behind b _ (b.pastToken o (.sign .openBrace)) false := rfl
  exact (restricts_fields stricter tight _ start₁ place₁ behind .empty).imp
    (fun _ stops => stops.of_open (Nat.le_of_lt (b.lt_pastToken o _)) first) fun _ _ => id

theorem restricts_declare (stricter : strict.Stricter lenient) (place : s.At o d) (start : Nat)
    (name : String) (body : Body) :
    (declare strict start name body).Restricts (declare lenient start name body) b s
      (fun _ => False) fun _ e =>
        strict.duplicates ≠ lenient.duplicates ∧ d.scope.contains name = true ∧
          e = ⟨start, .duplicateMessage name⟩ := by
  have held : Rule.held b s = (.ok d, s) := by rw [← place.held_eq]; rfl
  rcases stricter.duplicates with equal | ⟨reject, overwrite⟩
  · refine .same ?_
    unfold declare
    rw [equal]
  · cases known : d.scope.contains name with
    | false =>
      refine .same ?_
      unfold declare
      rw [bind_of_ok held, bind_of_ok held]
      simp only [known, Bool.false_and]
    | true =>
      cases read : declare lenient start name body b s with
      | mk result t' =>
        cases result with
        | error e =>
          -- A reader that overwrites refuses no name.
          have refused := (leads_declare place name body).of_error read
          cases overwrite.symm.trans refused.1
        | ok _ =>
          refine .denied ⟨start, .duplicateMessage name⟩ s () t' ?_ rfl read
            ⟨by simp [reject, overwrite], rfl, rfl⟩
          unfold declare
          rw [bind_of_ok held]
          simp only [known, reject, Bool.true_and, decide_true, if_true]
          rfl

theorem restricts_message (stricter : strict.Stricter lenient) (tight : b.Tight)
    (start : b.Start o) (place : s.At o d) :
    (message strict).Restricts (message lenient) b s (StopsAtComma strict lenient b o)
      fun read => DeniesName strict lenient b o d read.1 := by
  refine Restricts.bind_self (leads_keyword .message start place) fun _ s₁ met => ?_
  obtain ⟨found, place₁⟩ := met
  have start₁ := tight.start_pastToken found
  have first := Buffer.openCommas_token found (by simp)
  refine Restricts.bind (.same rfl) fun _ s₂ ran _ => ?_
  cases ran
  refine Restricts.bind (.same rfl) fun _ s₂ ran _ => ?_
  cases ran
  rw [State.moveTo_offset, place₁.pastSpace_eq start₁]
  refine Restricts.bind_self (leads_string (place₁.moveTo _)) fun _ s₂ met => ?_
  obtain ⟨w, rfl, word, place₂⟩ := met
  have hasWord := Buffer.has_word Token.isWord word
  have start₂ := tight.start_pastToken hasWord.holds
  have second := Buffer.openCommas_token hasWord.holds (by simp)
  refine Restricts.bind (.same rfl) fun _ s₃ ran _ => ?_
  cases ran
  rw [place₂.offset_eq]
  have place₃ := place₂.moveTo (b.pastToken (b.pastToken o (.keyword .message)) (.word w))
  have le := Nat.le_trans (Nat.le_of_lt (b.lt_pastToken o (.keyword .message)))
    (Nat.le_of_lt (b.lt_pastToken _ (.word w)))
  refine Restricts.bind ((restricts_body stricter tight start₂ place₃).imp
    (fun _ stops => stops.of_open le (first.trans second)) fun _ _ => id) fun body s₄ _ read => ?_
  obtain ⟨m, o', _, _, _, _, place₄⟩ := (leads_body tight start₂ place₃ w).of_ok read
  refine ((restricts_declare stricter place₄ _ w.text body).imp (fun _ => False.elim)
    fun _ _ => id).map (fun _ => (w.text, body)) ?_
  rintro _ e ⟨differ, known, rfl⟩
  exact ⟨differ, known, found, word, rfl⟩

def Denies (strict lenient : Policy) (b : Buffer) (o : Nat) (d : Declared)
    (declaration : Declaration) (e : Failure) : Prop :=
  ∃ name body, declaration = .message name body ∧ DeniesName strict lenient b o d name e

theorem restricts_complexType (stricter : strict.Stricter lenient) (tight : b.Tight)
    (start : b.Start o) (place : s.At o d) :
    (complexType strict).Restricts (complexType lenient) b s (StopsAtComma strict lenient b o)
      (Denies strict lenient b o d) := by
  refine Restricts.choice (Restricts.firstOf (restricts_self _ _ _ _ _) fun e t ran notFatal => ?_)
  have leads : method.Leads b (s.moveTo (b.pastSpace s.offset))
      (fun m => Reads lenient b o d (.method m)) (Stops lenient b o d) :=
    leads_method tight start (place.pastSpace start)
  have stops : Stops lenient b o d e t := (leads_map (g := Declaration.method) leads).of_error ran
  obtain ⟨p, gaveUp, _⟩ := stops.gaveUp notFatal
  have place₁ := gaveUp.next (.branchFailed "method" e.position) o
  rw [State.moveTo_offset, place.pastSpace_eq start]
  refine ((restricts_message stricter tight start place₁).map _ ?_).lastOf
  exact fun read e denied => ⟨read.1, read.2, rfl, denied⟩

theorem restricts_anyType (stricter : strict.Stricter lenient) (tight : b.Tight)
    (start : b.Start o) (place : s.At o d) :
    (anyType strict).Restricts (anyType lenient) b s (StopsAtComma strict lenient b o)
      (Denies strict lenient b o d) :=
  Restricts.choice ((restricts_complexType stricter tight start (place.pastSpace start)).firstOf
    fun _ _ _ _ => restricts_self _ _ _ _ _)

theorem restricts_declaration (stricter : strict.Stricter lenient) (tight : b.Tight)
    (start : b.Start o) (place : s.At o d) :
    (declaration strict).Restricts (declaration lenient) b s (StopsAtComma strict lenient b o)
      (Denies strict lenient b o d) :=
  Restricts.choice (restricts_anyType stricter tight start (place.pastSpace start)).lastOf

end Grammar

end RpcSchema
