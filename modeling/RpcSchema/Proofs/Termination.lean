import RpcSchema.Proofs.History
import RpcSchema.Proofs.Progress

/-! Loops without a limit. A loop is given by its round, which goes on with a new value, ends the
loop with a result, or fails. The loops of the grammar carry a limit that none of them meets: a
round that goes on takes a character, and at the end of the buffer the next round is the last. -/
namespace RpcSchema

namespace Rule

variable {ι σ α β : Type}

theorem bind_apply (r : Rule σ α) (f : α → Rule σ β) (b : Buffer) (s : State σ) :
    (r >>= f) b s = match r b s with
      | (.ok a, s') => f a b s'
      | (.error e, s') => (.error e, s') := rfl

instance : LawfulMonad (Rule σ) := by
  refine LawfulMonad.mk' (Rule σ) (fun r => ?_) (fun _ _ => rfl) fun r f g => ?_
  · funext b s
    change (r >>= pure) b s = r b s
    rw [bind_apply]
    split <;> simp only [pure_apply, *]
  · funext b s
    simp only [bind_apply]
    rcases r b s with ⟨_ | _, _⟩ <;> rfl

/-- The loop runs its round from `i` and `s` until one ends it or fails. Of the rounds, `n` do not
end it. -/
inductive Loops (round : ι → Rule σ (ι ⊕ α)) (b : Buffer) :
    Nat → ι → State σ → Except Failure α × State σ → Prop
  | ends {i : ι} {a : α} {s s' : State σ} (ran : round i b s = (.ok (.inr a), s')) :
      Loops round b 0 i s (.ok a, s')
  | fails {i : ι} {e : Failure} {s s' : State σ} (ran : round i b s = (.error e, s')) :
      Loops round b 1 i s (.error e, s')
  | again {n : Nat} {i j : ι} {s s' : State σ} {outcome : Except Failure α × State σ}
      (ran : round i b s = (.ok (.inl j), s')) (rest : Loops round b n j s' outcome) :
      Loops round b (n + 1) i s outcome

/-- The loop runs the round as often as its limit allows. A round that goes on has taken a
character, and at the end of the buffer none goes on. -/
structure Limits (round : ι → Rule σ (ι ⊕ α)) (loop : Nat → ι → Rule σ α) : Prop where
  unrolls (limit : Nat) (i : ι) {b : Buffer} {s : State σ} (inside : s.offset ≤ b.size) :
    loop (limit + 1) i b s = (round i >>= Sum.elim (loop limit) pure) b s
  last (i : ι) {b : Buffer} {s : State σ} (past : b.size ≤ s.offset) :
    ∃ a s', round i b s = (.ok (.inr a), s') ∧ loop 0 i b s = (.ok a, s')
  takes (i : ι) {b : Buffer} {s : State σ} (inside : s.offset ≤ b.size) :
    (round i).Leads b s (fun next s' => ∀ j, next = .inl j → s'.Inside b (s.offset + 1))
      fun _ _ => True

/-- A limit that is not below the number of unread characters is never met. -/
theorem Limits.loops {round : ι → Rule σ (ι ⊕ α)} {loop : Nat → ι → Rule σ α}
    (limits : Limits round loop) {b : Buffer} {limit : Nat} {i : ι} {s : State σ}
    (inside : s.offset ≤ b.size) (enough : b.size ≤ s.offset + limit) :
    ∃ n ≤ b.size - s.offset, Loops round b n i s (loop limit i b s) := by
  induction limit generalizing i s with
  | zero =>
    obtain ⟨a, s', ran, same⟩ := limits.last i enough
    exact ⟨0, Nat.zero_le _, same ▸ .ends ran⟩
  | succ limit ih =>
    rw [limits.unrolls limit i inside]
    cases ran : round i b s with
    | mk result s' =>
      match result with
      | .error e =>
        -- at the end of the buffer the round would have ended the loop
        have unread : s.offset < b.size := by
          refine Nat.lt_of_not_le fun past => ?_
          obtain ⟨_, _, ended, _⟩ := limits.last i past
          cases ran.symm.trans ended
        rw [bind_of_error ran]
        exact ⟨1, by omega, .fails ran⟩
      | .ok (.inr a) =>
        rw [bind_of_ok ran]
        exact ⟨0, Nat.zero_le _, .ends ran⟩
      | .ok (.inl j) =>
        have behind := (limits.takes i inside).of_ok ran j rfl
        have further := behind.le_offset
        have bounded := behind.le_size
        obtain ⟨n, few, rest⟩ := ih (i := j) bounded (by omega)
        rw [bind_of_ok ran]
        exact ⟨n + 1, by omega, .again ran rest⟩

theorem char_of_ended (spec : Option String) {b : Buffer} {s : State σ} (past : b.size ≤ s.offset) :
    char spec b s = (.error ⟨s.offset, .endOfInput (expectedChar spec)⟩, s) := by
  simp only [char, (b.get?_eq_none_iff s.offset).2 past]

/-- At the end of the buffer the rule gives up, and stays there. -/
def Starves (r : Rule σ α) : Prop :=
  ∀ b s, b.size ≤ s.offset → r.Leads b s (fun _ _ => False)
    fun e s' => e.isFatal = false ∧ b.size ≤ s'.offset

theorem starves_char (spec : Option String) : (char spec : Rule σ Char).Starves :=
  fun _ _ past => leads_of_error (char_of_ended spec past) ⟨rfl, past⟩

namespace Starves

variable {r : Rule σ α}

theorem bind (starves : r.Starves) (f : α → Rule σ β) : (r >>= f).Starves :=
  fun b s past => (starves b s past).bind (fun _ _ => False.elim) fun _ _ met => met

theorem choice (starves : r.Starves) (name : String) : (Rule.choice [⟨name, r⟩]).Starves := by
  intro b s past
  have behind : b.size ≤ b.pastSpace s.offset := Nat.le_trans past (b.le_pastSpace _)
  refine leads_choice_one ((starves b _ behind).imp (fun _ _ => False.elim) ?_)
  exact fun _ _ met => ⟨fun _ => ⟨met.1, past⟩, fun _ => ⟨met.1, past⟩⟩

theorem recover_eq (starves : r.Starves) {b : Buffer} {s : State σ} (past : b.size ≤ s.offset) :
    ∃ s', recover r b s = (.ok none, s') ∧ b.size ≤ s'.offset := by
  have gives : (recover r).Gives b s fun found s' => found = none ∧ b.size ≤ s'.offset := by
    refine leads_recover ((starves b s past).imp (fun _ _ => False.elim) ?_)
    rintro e s' ⟨notFatal, still⟩
    exact ⟨fun fatal => Bool.false_ne_true (notFatal.symm.trans fatal), fun _ => ⟨rfl, still⟩⟩
  obtain ⟨_, s', ran, rfl, still⟩ := gives.exists_ok
  exact ⟨s', ran, still⟩

end Starves

end Rule

namespace Grammar

open Rule

variable (policy : Policy)

def nameRound (read : List Char) : Production (List Char ⊕ List Char) := do
  match ← tryChar (some nameClass) with
  | none => return .inr read
  | some c => return .inl (read ++ [c])

def fieldRound : Bool × Body → Production ((Bool × Body) ⊕ Body)
  | (afterComma, body) => do
    match ← tryChoice [⟨"pair", pair⟩] with
    | none =>
      if afterComma && policy.trailingComma = .reject then do
        refuseBrace
        return .inr body
      else return .inr body
    | some (name, type) =>
      match ← tryKeyword [","] with
      | none => return .inr (body.insert name type)
      | some _ => return .inl (true, body.insert name type)

/-- One more declaration of a source. Whether it got any further is not asked. -/
def declarationRound (_ : Unit) : Production (Unit ⊕ Unit) := do
  if (← unread) = 0 then return .inr ()
  else do
    let declaration ← declaration policy
    note declaration.event
    return .inl ()

def moreName (limit : Nat) (read : List Char) : Production (List Char) :=
  (read ++ ·) <$> repeated (tryChar (some nameClass)) limit

theorem moreName_succ (limit : Nat) (read : List Char) :
    moreName (limit + 1) read = nameRound read >>= Sum.elim (moreName limit) pure := by
  simp only [moreName, repeated, nameRound, map_bind, bind_assoc]
  congr 1
  funext next
  cases next with
  | none => simp
  | some c => simp [moreName]

theorem limits_name : Limits nameRound moreName where
  unrolls limit read b s _ := by rw [moreName_succ]
  last read b s past := by
    have ran : tryChar (some nameClass) b s = (.ok none, s) := by
      simp only [tryChar, recover, char_of_ended _ past]
      rfl
    exact ⟨read, s, bind_of_ok ran, by simp [moreName, repeated, pure_apply]⟩
  takes read b s inside := by
    refine (takes_nameChar.leads_recover inside).bind (fun next s' met => ?_) fun _ _ _ => trivial
    cases next with
    | none => exact leads_pure fun _ goesOn => by cases goesOn
    | some c => exact leads_pure fun _ _ => met.2 (Option.some_ne_none c)

theorem starves_pair : pair.Starves :=
  (((starves_char _).bind _).choice "string").bind _

theorem refuseBrace_of_ended {b : Buffer} {s : State Declared} (past : b.size ≤ s.offset) :
    refuseBrace b s = (.ok (), s.moveTo (b.pastSpace s.offset)) := by
  have behind : b.size ≤ b.pastSpace s.offset := Nat.le_trans past (b.le_pastSpace _)
  have nothing := (b.get?_eq_none_iff _).2 behind
  rw [refuseBrace, bind_of_ok rfl, bind_of_ok rfl, bind_of_ok rfl]
  simp only [State.moveTo_offset, nothing]
  rfl

theorem fields_succ (limit : Nat) (read : Bool × Body) :
    fields policy (limit + 1) read.1 read.2 =
      fieldRound policy read >>= Sum.elim (fun read => fields policy limit read.1 read.2) pure := by
  obtain ⟨afterComma, body⟩ := read
  simp only [fields, fieldRound, bind_assoc]
  congr 1
  funext next
  rcases next with _ | ⟨name, type⟩
  · dsimp only
    split
    · simp
    · simp
  · simp only [bind_assoc]
    congr 1
    funext comma
    cases comma <;> simp

theorem fieldRound_of_ended (read : Bool × Body) {b : Buffer} {s : State Declared}
    (past : b.size ≤ s.offset) : ∃ s', fieldRound policy read b s = (.ok (.inr read.2), s') := by
  obtain ⟨s₁, ran, behind⟩ := (starves_pair.choice "pair").recover_eq past
  obtain ⟨afterComma, body⟩ := read
  rw [fieldRound, tryChoice, bind_of_ok ran]
  dsimp only
  split
  · exact ⟨_, bind_of_ok (refuseBrace_of_ended behind)⟩
  · exact ⟨_, rfl⟩

theorem limits_field :
    Limits (fieldRound policy) fun limit read => fields policy (limit + 1) read.1 read.2 where
  unrolls limit read b s _ := by rw [fields_succ]
  last read b s past := by
    obtain ⟨s', ran⟩ := fieldRound_of_ended policy read past
    exact ⟨read.2, s', ran, by rw [fields_succ, bind_of_ok ran]; rfl⟩
  takes read b s inside := by
    obtain ⟨afterComma, body⟩ := read
    refine (takes_nextPair.leads_recover inside).bind (fun found s₁ met => ?_) fun _ _ _ => trivial
    match found with
    | none =>
      have last : ∀ s', (pure (.inr body) : Production ((Bool × Body) ⊕ Body)).Leads b s'
          (fun next s' => ∀ j, next = .inl j → s'.Inside b (s.offset + 1)) fun _ _ => True :=
        fun _ => leads_pure fun _ goesOn => by cases goesOn
      dsimp only
      split
      · exact (takes_refuseBrace b s₁ met.1.le_size).bind (fun _ s₂ _ => last s₂)
          fun _ _ _ => trivial
      · exact last s₁
    | some (name, type) =>
      have behind := met.2 (Option.some_ne_none _)
      refine (takes_tryKeyword [","] b s₁ behind.le_size).bind (fun comma s₂ met₂ => ?_)
        fun _ _ _ => trivial
      cases comma with
      | none => exact leads_pure fun _ goesOn => by cases goesOn
      | some _ =>
        have further := behind.le_offset
        exact leads_pure fun _ _ => met₂.mono (by omega)

section

variable {policy} {b : Buffer} {s s' : State Declared}

theorem declarationRound_of_ended (ended : b.size ≤ s.offset) :
    declarationRound policy () b s = (.ok (.inr ()), s) := by
  rw [declarationRound, bind_of_ok rfl, if_pos (Nat.sub_eq_zero_of_le ended)]
  rfl

theorem declarationRound_of_error {e : Failure} (unread : s.offset < b.size)
    (ran : declaration policy b s = (.error e, s')) :
    declarationRound policy () b s = (.error e, s') := by
  rw [declarationRound, bind_of_ok rfl, if_neg (Nat.sub_ne_zero_of_lt unread), bind_of_error ran]

theorem declarationRound_of_ok {declared : Declaration} (unread : s.offset < b.size)
    (ran : declaration policy b s = (.ok declared, s')) :
    declarationRound policy () b s = (.ok (.inl ()), s'.note declared.event) := by
  rw [declarationRound, bind_of_ok rfl, if_neg (Nat.sub_ne_zero_of_lt unread), bind_of_ok ran]
  rfl

end

/-- The loop of the grammar asks whether a declaration got further, the round here does not. -/
theorem limits_declaration :
    Limits (declarationRound policy) fun limit _ => rounds policy limit where
  unrolls limit _ b s inside := by
    rcases Nat.lt_or_ge s.offset b.size with unread | ended
    · cases ran : declaration policy b s with
      | mk result s' =>
        cases result with
        | error e =>
          rw [rounds_of_error unread ran, bind_of_error (declarationRound_of_error unread ran)]
        | ok declared =>
          have further := ((takes_declaration policy b s inside).of_ok ran).le_offset
          rw [rounds_of_ok unread ran further, bind_of_ok (declarationRound_of_ok unread ran)]
          rfl
    · rw [rounds_of_ended ended, bind_of_ok (declarationRound_of_ended ended)]
      rfl
  last _ _ s past := ⟨(), s, declarationRound_of_ended past, rfl⟩
  takes _ b s inside := by
    refine leads_bind_of_ok rfl ?_
    split
    · exact leads_pure fun _ goesOn => by cases goesOn
    · refine (takes_declaration policy b s inside).bind (fun declared s' met => ?_)
        fun _ _ _ => trivial
      exact leads_bind_of_ok rfl (leads_pure fun _ _ => ⟨met.le_offset, met.le_size⟩)

section

variable {policy} {b : Buffer} {s s₁ : State Declared}

theorem loops_name {first : Char} (inside : s.offset ≤ b.size)
    (ran : char (some nameClass) b s = (.ok first, s₁)) :
    ∃ n < b.size - s.offset, Loops nameRound b n [] s₁
      (repeated (tryChar (some nameClass)) (b.size - s₁.offset) b s₁) := by
  have met := (takes_nameChar b s inside).of_ok ran
  have further := met.le_offset
  have bounded := met.le_size
  obtain ⟨n, few, loops⟩ := limits_name.loops (i := []) bounded
    (Nat.le_of_eq (Nat.add_sub_cancel' bounded).symm)
  have same : moreName (b.size - s₁.offset) [] =
      repeated (tryChar (some nameClass)) (b.size - s₁.offset) := by simp [moreName]
  exact ⟨n, by omega, same ▸ loops⟩

theorem loops_field {brace : String} (inside : s.offset ≤ b.size)
    (ran : keyword ["\x7b"] b s = (.ok brace, s₁)) :
    ∃ n < b.size - s.offset, Loops (fieldRound policy) b n (false, .empty) s₁
      (fields policy (b.size - s₁.offset + 1) false .empty b s₁) := by
  have met := (takes_literal "\x7b" (n := 1) (by decide) b s inside).of_ok ran
  have further := met.le_offset
  have bounded := met.le_size
  obtain ⟨n, few, loops⟩ := (limits_field policy).loops (i := (false, .empty)) bounded
    (Nat.le_of_eq (Nat.add_sub_cancel' bounded).symm)
  exact ⟨n, by omega, loops⟩

end

end Grammar

theorem Failure.LiesIn.faultless {e : Failure} {b : Buffer} {o : Nat} (lies : e.LiesIn b o) :
    (∀ reason, e.cause ≠ .internal reason) ∧ (∀ range, e.cause ≠ .badRange range) ∧
      e.cause ≠ .alreadySpent := by
  have fromText := lies.2.2
  refine ⟨fun reason same => ?_, fun range same => ?_, fun same => ?_⟩
  all_goals rw [same] at fromText; exact fromText

open Grammar in
/-- Every production that succeeds gets further and stays inside the buffer. So no loop meets its
limit, and reading never fails for a defect, for a class of characters or for being done twice. -/
theorem reading_advances_and_ends (policy : Policy) (b : Buffer) (s : State Declared)
    (inside : s.offset ≤ b.size) :
    (∀ production : Symbol, (production.rule policy).Leads b s
      (fun _ s' => s.offset < s'.offset ∧ s'.offset ≤ b.size) fun _ s' => s'.offset ≤ b.size) ∧
    (∀ first s₁, Rule.char (some nameClass) b s = (.ok first, s₁) →
      ∃ n < b.size - s.offset, Rule.Loops nameRound b n [] s₁
        (Rule.repeated (Rule.tryChar (some nameClass)) (b.size - s₁.offset) b s₁)) ∧
    (∀ brace s₁, Rule.keyword ["\x7b"] b s = (.ok brace, s₁) →
      ∃ n < b.size - s.offset, Rule.Loops (fieldRound policy) b n (false, .empty) s₁
        (fields policy (b.size - s₁.offset + 1) false .empty b s₁)) ∧
    (∃ n ≤ b.size - s.offset, Rule.Loops (declarationRound policy) b n () s
      (rounds policy (b.size - s.offset) b s)) ∧
    (source policy).Leads b s (fun _ s' => s'.offset ≤ b.size) fun e _ =>
      (∀ reason, e.cause ≠ .internal reason) ∧ (∀ range, e.cause ≠ .badRange range) ∧
        e.cause ≠ .alreadySpent := by
  refine ⟨fun production => ?_, fun _ _ => loops_name inside, fun _ _ => loops_field inside, ?_, ?_⟩
  · refine (production.takes_rule policy b s inside).imp (fun _ _ met => ?_) fun _ _ failed => ?_
    · exact ⟨met.le_offset, met.le_size⟩
    · exact failed.1.le_size
  · exact (limits_declaration policy).loops inside
      (Nat.le_of_eq (Nat.add_sub_cancel' inside).symm)
  · exact (takes_source policy b s inside).imp (fun _ _ met => met.le_size)
      fun _ _ failed => failed.2.faultless

/-- A body whose last comma has more than one space behind it. -/
theorem reading_advances_and_ends_of_spaces :
    let b : Buffer := ⟨#['\x7b', 'a', ':', ' ', 'b', ' ', ',', ' ', ' ', '\x7d']⟩
    let s : State Declared := .initial .nothing
    s.offset ≤ b.size ∧
      (∃ n < 10, Rule.Loops (Grammar.fieldRound .strict) b n (false, .empty) (s.moveTo 1)
        (Grammar.fields .strict 10 false .empty b (s.moveTo 1))) ∧
      ∃ n ≤ 10, Rule.Loops (Grammar.declarationRound .strict) b n () s
        (Grammar.rounds .strict 10 b s) := by
  intro b s
  have inside : s.offset ≤ b.size := Nat.zero_le _
  obtain ⟨_, _, body, source, _⟩ := reading_advances_and_ends .strict b s inside
  exact ⟨inside, body "\x7b" (s.moveTo 1) rfl, source⟩

end RpcSchema
