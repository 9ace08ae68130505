import RpcSchema.Proofs.Acceptance
import RpcSchema.Proofs.History
import RpcSchema.Proofs.Strictness

/-! What each of the two liberties changes. A reader that refuses commas before closing braces
answers as one that allows them, or it stops at the first such brace. A reader that refuses to
declare a message again answers as one that overwrites, or it stops at the name of the first
message that is declared again. -/
namespace RpcSchema

namespace Grammar

open Rule

variable {strict lenient : Policy} {b : Buffer} {s : State Declared} {o : Nat} {d : Declared}

/-- How a round goes under a policy and under a stricter one. -/
inductive Abreast (strict lenient : Policy) (b : Buffer) (s : State Declared) (o : Nat)
    (d : Declared) : Prop where
  | failed (e : Failure) (t : State Declared) (ran : declaration strict b s = (.error e, t))
      (read : declaration lenient b s = (.error e, t))
  | read (declaration : Declaration) (t : State Declared) (phrase : Phrase) (o' : Nat)
      (ran : Grammar.declaration strict b s = (.ok declaration, t))
      (read : Grammar.declaration lenient b s = (.ok declaration, t))
      (spelled : b.Spells Token.isWord o phrase.tokens o')
      (permitted : phrase.Permitted strict d.scope)
      (declared : phrase.declaration? d.scope = some declaration)
      (place : t.At o' (d.add declaration))
  | stopped (e : Failure) (t : State Declared) (ran : declaration strict b s = (.error e, t))
      (reason : StopsAtComma strict lenient b o e)
  | denied (e : Failure) (t : State Declared) (name : String) (body : Body) (t' : State Declared)
      (ran : declaration strict b s = (.error e, t))
      (read : declaration lenient b s = (.ok (.message name body), t'))
      (reason : DeniesName strict lenient b o d name e)

theorem abreast (stricter : strict.Stricter lenient) (tight : b.Tight) (start : b.Start o)
    (unread : o < b.size) (place : s.At o d) : Abreast strict lenient b s o d := by
  cases restricts_declaration stricter tight start place with
  | same equal =>
    cases read : declaration lenient b s with
    | mk result t =>
      have ran := equal.trans read
      cases result with
      | error e => exact .failed e t ran read
      | ok declaration =>
        obtain ⟨phrase, o', spelled, permitted, declared, place'⟩ :=
          (leads_declaration tight start unread place).of_ok ran
        exact .read declaration t phrase o' ran read spelled permitted declared place'
  | stopped e t ran _ reason => exact .stopped e t ran reason
  | denied e t declaration t' ran _ read reason =>
    obtain ⟨name, body, rfl, denied⟩ := reason
    exact .denied e t name body t' ran read denied

theorem restricts_rounds (stricter : strict.Stricter lenient)
    (reject : strict.trailingComma = .reject) (same : strict.duplicates = lenient.duplicates)
    (tight : b.Tight) (limit : Nat) (start : b.Start o) (place : s.At o d) :
    (rounds strict limit).Restricts (rounds lenient limit) b s (StopsAtComma strict lenient b o)
      fun _ _ => False := by
  induction limit generalizing s o d with
  | zero => exact restricts_self _ _ _ _ _
  | succ limit ih =>
    by_cases ended : b.size ≤ s.offset
    · exact .same ((rounds_of_ended ended).trans (rounds_of_ended ended).symm)
    · have unread := Nat.lt_of_not_le ended
      cases abreast stricter tight start (place.offset_eq ▸ unread) place with
      | failed e t ran read =>
        exact .same ((rounds_of_error unread ran).trans (rounds_of_error unread read).symm)
      | read declaration t phrase o' ran read spelled permitted declared place' =>
        have further : s.offset < t.offset := by
          rw [place.offset_eq, place'.offset_eq]
          exact spelled.lt (tokens_ne_nil phrase)
        have opened : b.OpenCommas o o' := by
          refine Buffer.openCommas_phrase spelled ?_
          rintro m rfl
          cases comma : m.comma with
          | false => rfl
          | true => cases reject.symm.trans (permitted.1 comma)
        have rest := ih (spelled.start tight start) (place'.note declaration.event)
        exact (rest.imp (fun _ stops => stops.of_open spelled.le opened) fun _ _ => id).congr
          (rounds_of_ok unread ran further) (rounds_of_ok unread read further)
      | stopped e t ran reason =>
        exact .stopped e t (rounds_of_error unread ran) reason.2.isFatal reason
      | denied e t name body t' ran read reason => exact absurd same reason.differ

def Refuses (b : Buffer) (r : Round) (e : Failure) : Prop :=
  ∃ name body, r.declaration = .message name body ∧
    b.holds r.start (Token.keyword .message).chars = true ∧
    b.wordAt (r.nameStart b) = name.toList ∧ e = ⟨r.nameStart b, .duplicateMessage name⟩

theorem not_redeclares {policy : Policy} (reject : policy.duplicates = .reject) {phrase : Phrase}
    {declaration : Declaration} (permitted : phrase.Permitted policy d.scope)
    (declared : phrase.declaration? d.scope = some declaration) (n : Nat) :
    Round.redeclares ⟨n, d, declaration⟩ = false := by
  cases phrase with
  | message m =>
    cases declared
    simp [Round.redeclares, OrderedMap.contains, permitted.2 reject]
  | method name q r =>
    simp only [Phrase.declaration?, Option.bind_eq_bind, Option.bind_eq_some_iff,
      Option.some.injEq] at declared
    obtain ⟨request, _, response, _, rfl⟩ := declared
    rfl
  | bare token =>
    cases declared
    rfl

theorem rounds_of_rejecting (stricter : strict.Stricter lenient)
    (reject : strict.duplicates = .reject) (same : strict.trailingComma = lenient.trailingComma)
    (tight : b.Tight) (limit : Nat) (start : b.Start o) (place : s.At o d) :
    match (history lenient b limit s).find? Round.redeclares with
    | none => rounds strict limit b s = rounds lenient limit b s
    | some r => ∃ e t, rounds strict limit b s = (.error e, t) ∧ Refuses b r e := by
  induction limit generalizing s o d with
  | zero => rfl
  | succ limit ih =>
    by_cases ended : b.size ≤ s.offset
    · rw [history_of_ended ended]
      exact (rounds_of_ended ended).trans (rounds_of_ended ended).symm
    · have unread := Nat.lt_of_not_le ended
      cases abreast stricter tight start (place.offset_eq ▸ unread) place with
      | failed e t ran read =>
        rw [history_of_error read]
        exact (rounds_of_error unread ran).trans (rounds_of_error unread read).symm
      | read declaration t phrase o' ran read spelled permitted declared place' =>
        have further : s.offset < t.offset := by
          rw [place.offset_eq, place'.offset_eq]
          exact spelled.lt (tokens_ne_nil phrase)
        have fresh : Round.redeclares ⟨s.offset, s.held, declaration⟩ = false := by
          rw [place.held_eq]
          exact not_redeclares reject permitted declared s.offset
        rw [history_of_ok unread read, List.find?_cons_of_neg (by simp [fresh]),
          rounds_of_ok unread ran further, rounds_of_ok unread read further]
        exact ih (spelled.start tight start) (place'.note _)
      -- A round stops at a comma only where the policies differ on commas.
      | stopped e t ran reason => exact absurd same reason.1
      | denied e t name body t' ran read reason =>
        have again : Round.redeclares ⟨s.offset, s.held, .message name body⟩ = true := by
          rw [place.held_eq]
          exact reason.known
        rw [history_of_ok unread read, List.find?_cons_of_pos again]
        refine ⟨e, t, rounds_of_error unread ran, name, body, rfl, ?_⟩
        rw [Round.nameStart, place.offset_eq]
        exact ⟨reason.begun, reason.named, reason.failure⟩

theorem source_of_rounds {policy : Policy} {result : Except Failure Unit} {s' : State Declared}
    (ran : rounds policy (b.size - s.offset) b s = (result, s')) :
    (source policy b s).1 = result.map fun _ => s'.held := by
  rw [source, bind_of_ok rfl]
  cases result with
  | error e =>
    rw [bind_of_error ran]
    rfl
  | ok _ =>
    rw [bind_of_ok ran]
    rfl

end Grammar

def sourceRounds (policy : Policy) (source : String) : Except Failure Unit × State Declared :=
  let b := Buffer.ofSource source
  Grammar.rounds policy b.size b ((State.initial .nothing).note (.normalized b.size))

theorem readSource_eq (policy : Policy) (source : String) :
    (readSource policy source).1 =
      (sourceRounds policy source).1.map fun _ => (sourceRounds policy source).2.held :=
  Grammar.source_of_rounds rfl

theorem readSource_of_same {strict lenient : Policy} {source : String}
    (same : sourceRounds strict source = sourceRounds lenient source) :
    (readSource strict source).1 = (readSource lenient source).1 := by
  rw [readSource_eq, readSource_eq, same]

theorem readSource_of_error {policy : Policy} {source : String} {e : Failure} {t : State Declared}
    (ran : sourceRounds policy source = (.error e, t)) :
    (readSource policy source).1 = .error e := by
  rw [readSource_eq, ran]
  rfl

theorem exists_of_readSource_ok {policy : Policy} {source : String} {d : Declared}
    (read : (readSource policy source).1 = .ok d) :
    ∃ t, sourceRounds policy source = (.ok (), t) ∧ t.held = d := by
  rw [readSource_eq] at read
  cases ran : sourceRounds policy source with
  | mk result t =>
    rw [ran] at read
    cases result with
    | error e => cases read
    | ok _ =>
      cases read
      exact ⟨t, rfl, rfl⟩

theorem openCommas_of_accepted {duplicates : OnDuplicate} {source : String} {d : Declared}
    (accepted : (readSource ⟨duplicates, .reject⟩ source).1 = .ok d) :
    (Buffer.ofSource source).OpenCommas 0 (Buffer.ofSource source).size := by
  obtain ⟨script, spelled, interprets⟩ :=
    (leads_readSource ⟨duplicates, .reject⟩ source).of_ok (Prod.ext accepted rfl)
  refine Buffer.openCommas_script spelled fun m member => ?_
  cases comma : m.comma with
  | false => rfl
  | true => cases comma_of_interprets interprets member comma

/-- Refusing commas before closing braces only takes answers away. A source that is accepted with
them has the same answer if no comma is closed, and fails at the brace behind the first one
otherwise. -/
theorem refusing_closed_commas (duplicates : OnDuplicate) (source : String) :
    let b := Buffer.ofSource source
    let allowed := (readSource ⟨duplicates, .allow⟩ source).1
    let refused := (readSource ⟨duplicates, .reject⟩ source).1
    (refused = allowed ∨
      ∃ q, b.ClosedComma q ∧
        refused = .error ⟨b.pastSpace (q + 1), .danglingComma (some '\x7d')⟩) ∧
    ∀ d, allowed = .ok d →
      ((∀ q, ¬b.ClosedComma q) → refused = allowed) ∧
      ∀ q, b.ClosedComma q → (∀ p < q, ¬b.ClosedComma p) →
        refused = .error ⟨b.pastSpace (q + 1), .danglingComma (some '\x7d')⟩ := by
  intro b allowed refused
  have stricter : Policy.Stricter ⟨duplicates, .reject⟩ ⟨duplicates, .allow⟩ :=
    ⟨.inr ⟨rfl, rfl⟩, .inl rfl⟩
  have tight := Buffer.tight_ofSource source
  have restricts := Grammar.restricts_rounds stricter rfl rfl tight b.size tight.start_zero
    (s := (State.initial .nothing).note (.normalized b.size)) ⟨rfl, rfl, ClassTable.sound_nil⟩
  cases restricts with
  | same equal =>
    have same : refused = allowed := readSource_of_same equal
    refine ⟨.inl same, fun d accepted => ⟨fun _ => same, fun q closed _ => ?_⟩⟩
    have inside := Buffer.lt_size_of_get? closed.1
    exact absurd closed (openCommas_of_accepted (same.trans accepted) q (Nat.zero_le q) inside)
  | stopped e t ran _ reason =>
    obtain ⟨_, q, _, closed, before, rfl⟩ := reason
    have failed : refused = _ := readSource_of_error ran
    refine ⟨.inr ⟨q, closed, failed⟩, fun d _ => ⟨fun none => absurd closed (none q), ?_⟩⟩
    intro p closed' first
    -- Each of the two is the first closed comma.
    have same : p = q := by
      rcases Nat.lt_trichotomy p q with lt | eq | gt
      · exact absurd closed' (before p (Nat.zero_le p) lt)
      · exact eq
      · exact absurd closed (first q gt)
    exact same ▸ failed
  | denied e t a t' ran fatal read reason => exact reason.elim

/-- The comma before the first brace is open, and a space stands behind the one before the
second. -/
theorem refusing_closed_commas_of_second_message :
    let source := "message A\x7ba:b,c:d\x7d message B\x7ba:b, \x7d method m(A)->B;"
    let b := Buffer.ofSource source
    b.ClosedComma 32 ∧ (∃ d, (readSource .lenient source).1 = .ok d) ∧
      (readSource ⟨.overwrite, .reject⟩ source).1 =
        .error ⟨b.pastSpace 33, .danglingComma (some '\x7d')⟩ := by
  intro source b
  have accepted : (readSource .lenient source).1.isOk = true := by decide +kernel
  have closed : b.ClosedComma 32 := by decide +kernel
  have first : ∀ p < 32, ¬b.ClosedComma p := by decide +kernel
  match read : (readSource .lenient source).1 with
  | .ok d =>
    exact ⟨closed, ⟨d, rfl⟩,
      ((refusing_closed_commas .overwrite source).2 d read).2 32 closed first⟩
  | .error e =>
    rw [read] at accepted
    cases accepted

/-- Refusing to declare a message again only takes answers away: the answer is that of a reader
which overwrites, or the failure at the name of the first message that is in scope already. -/
theorem refusing_redeclarations (comma : OnTrailingComma) (source : String) :
    let b := Buffer.ofSource source
    let overwritten := (readSource ⟨.overwrite, comma⟩ source).1
    let refused := (readSource ⟨.reject, comma⟩ source).1
    let rounds := sourceHistory ⟨.overwrite, comma⟩ source
    ((∀ r ∈ rounds, r.redeclares = false) → refused = overwritten) ∧
    (∀ r, rounds.find? Round.redeclares = some r →
      ∃ name body, r.declaration = .message name body ∧
        b.holds r.start "message".toList = true ∧ b.wordAt (r.nameStart b) = name.toList ∧
        refused = .error ⟨r.nameStart b, .duplicateMessage name⟩) ∧
    ∀ d, refused = .ok d →
      overwritten = .ok d ∧ rounds.countP Round.isMessage = d.scope.size := by
  intro b overwritten refused rounds
  have stricter : Policy.Stricter ⟨.reject, comma⟩ ⟨.overwrite, comma⟩ :=
    ⟨.inl rfl, .inr ⟨rfl, rfl⟩⟩
  have tight := Buffer.tight_ofSource source
  have run := Grammar.rounds_of_rejecting stricter rfl rfl tight b.size tight.start_zero
    (s := (State.initial .nothing).note (.normalized b.size)) ⟨rfl, rfl, ClassTable.sound_nil⟩
  change match rounds.find? Round.redeclares with
    | none => sourceRounds _ source = sourceRounds _ source
    | some r => ∃ e t, sourceRounds _ source = (.error e, t) ∧ Grammar.Refuses b r e at run
  cases found : rounds.find? Round.redeclares with
  | none =>
    rw [found] at run
    have same : refused = overwritten := readSource_of_same run
    refine ⟨fun _ => same, (fun _ again => by cases again), fun d accepted => ?_⟩
    have read : overwritten = .ok d := same.symm.trans accepted
    refine ⟨read, ?_⟩
    have fresh : ∀ r ∈ rounds, r.redeclares = false := by
      simpa using List.find?_eq_none.1 found
    obtain ⟨t, ran, rfl⟩ := exists_of_readSource_ok read
    have size := Grammar.size_of_rounds ran fresh
    exact (size.trans (Nat.zero_add _)).symm
  | some r =>
    rw [found] at run
    obtain ⟨e, t, ran, name, body, declared, begun, named, rfl⟩ := run
    have failed : refused = _ := readSource_of_error ran
    refine ⟨fun fresh => ?_, ?_, fun d accepted => ?_⟩
    · have again := List.find?_some found
      rw [fresh r (List.mem_of_find?_eq_some found)] at again
      cases again
    · rintro _ ⟨⟩
      exact ⟨name, body, declared, begun, named, failed⟩
    · cases failed.symm.trans accepted

/-- What begins like a second message has no body and is a bare word, so that the third one is the
first to declare a name again. -/
theorem refusing_redeclarations_after_broken_body :
    let source := "message A\x7b\x7d messageA message A \x7b a:b \x7d ("
    let b := Buffer.ofSource source
    let rounds := sourceHistory .lenient source
    ∃ r, rounds.find? Round.redeclares = some r ∧
      ∃ name body, r.declaration = .message name body ∧
        b.holds r.start "message".toList = true ∧ b.wordAt (r.nameStart b) = name.toList ∧
        (readSource ⟨.reject, .allow⟩ source).1 = .error ⟨r.nameStart b, .duplicateMessage name⟩ := by
  intro source b rounds
  have again : (rounds.find? Round.redeclares).isSome = true := by decide +kernel
  obtain ⟨r, found⟩ := Option.isSome_iff_exists.1 again
  exact ⟨r, found, (refusing_redeclarations .allow source).2.1 r found⟩

end RpcSchema
