import RpcSchema.Program
import RpcSchema.Proofs.Leads

/-! How far rules come, in any buffer. Entered inside the buffer, a rule ends inside it. When it
succeeds it has taken at least a certain number of characters; when it fails, the failure lies
between where the rule was entered and the end of the buffer, and tells what stands there. -/
namespace RpcSchema

/-- The failure lies in the buffer, not in front of `o`. What it says was found is what stands at
its position, and it comes from the text: neither a class, nor a reader that is spent, nor a defect
is to blame. -/
def Failure.LiesIn (e : Failure) (b : Buffer) (o : Nat) : Prop :=
  o ≤ e.position ∧ e.position ≤ b.size ∧
    match e.cause with
    | .endOfInput _ => e.position = b.size
    | .wrongChar _ found => b.get? e.position = some found
    | .noBranch _ found | .danglingComma found => b.get? e.position = found
    | .wrongKeyword _ | .undefinedMessage _ _ | .duplicateMessage _ => True
    | .badRange _ | .alreadySpent | .internal _ => False

theorem Failure.LiesIn.mono {e : Failure} {b : Buffer} {o o' : Nat} (lies : e.LiesIn b o')
    (le : o ≤ o') : e.LiesIn b o := ⟨Nat.le_trans le lies.1, lies.2⟩

structure State.Inside {σ : Type} (b : Buffer) (o : Nat) (s : State σ) : Prop where
  le_offset : o ≤ s.offset
  le_size : s.offset ≤ b.size

namespace State.Inside

variable {σ : Type} {b : Buffer} {o : Nat} {s : State σ}

theorem mono (inside : s.Inside b o) {o' : Nat} (le : o' ≤ o) : s.Inside b o' :=
  ⟨Nat.le_trans le inside.le_offset, inside.le_size⟩

theorem pastSpace (inside : s.Inside b o) : (s.moveTo (b.pastSpace s.offset)).Inside b o :=
  ⟨Nat.le_trans inside.le_offset (b.le_pastSpace _), b.pastSpace_le inside.le_size⟩

end State.Inside

namespace Furthest

variable {b : Buffer} {entry : Nat} {e : Failure}

theorem liesIn_add {furthest : Option Furthest}
    (kept : ∀ best, furthest = some best → best.failure.LiesIn b entry) (name : String)
    (lies : e.LiesIn b entry) : (add furthest name e).failure.LiesIn b entry := by
  rcases add_failure furthest name e with same | ⟨best, known, same⟩
  · rwa [same]
  · rw [same]
    exact kept best known

theorem liesIn_verdict {best : Furthest} (kept : best.failure.LiesIn b entry) :
    (verdict b entry (some best)).LiesIn b entry := by
  simp only [verdict]
  split
  · exact kept
  · exact ⟨kept.1, kept.2.1, rfl⟩

end Furthest

namespace Rule

variable {σ α β : Type}

def FailedIn (b : Buffer) (o : Nat) (e : Failure) (s : State σ) : Prop :=
  s.Inside b o ∧ e.LiesIn b o

theorem FailedIn.mono {b : Buffer} {o o' : Nat} {e : Failure} {s : State σ}
    (failed : FailedIn b o' e s) (le : o ≤ o') : FailedIn b o e s :=
  ⟨failed.1.mono le, failed.2.mono le⟩

/-- Entered inside the buffer, the rule takes at least `n` characters if it succeeds, and ends
inside the buffer in any case. -/
def Takes (n : Nat) (r : Rule σ α) : Prop :=
  ∀ b s, s.offset ≤ b.size → r.Leads b s (fun _ s' => s'.Inside b (s.offset + n))
    (FailedIn b s.offset)

namespace Takes

variable {r : Rule σ α} {f : α → Rule σ β} {m n : Nat}

theorem mono (takes : r.Takes n) (le : m ≤ n) : r.Takes m :=
  fun b s inside => (takes b s inside).imp (fun _ _ met => met.mono (by omega)) fun _ _ met => met

theorem leads_bind {b : Buffer} {s : State σ} {o k : Nat} {after : β → State σ → Prop}
    (takes : r.Takes n) (inside : s.Inside b (o + k))
    (next : ∀ a s', s'.Inside b (o + (k + n)) → (f a).Leads b s' after (FailedIn b o)) :
    (r >>= f).Leads b s after (FailedIn b o) := by
  have behind := inside.le_offset
  refine (takes b s inside.le_size).bind (fun a s' met => next a s' (met.mono ?_)) ?_
  · omega
  · exact fun _ _ failed => failed.mono (by omega)

theorem bind (takes : r.Takes m) (next : ∀ a, (f a).Takes n) : (r >>= f).Takes (m + n) := by
  intro b s inside
  have here : s.Inside b (s.offset + 0) := ⟨Nat.le_refl _, inside⟩
  refine takes.leads_bind here fun a s' met => ?_
  have behind := met.le_offset
  refine ((next a) b s' met.le_size).imp (fun _ _ met' => met'.mono ?_) fun _ _ failed =>
    failed.mono ?_
  · omega
  · omega

theorem andThen (takes : r.Takes 0) (next : ∀ a, (f a).Takes n) : (r >>= f).Takes n :=
  (takes.bind next).mono (Nat.le_add_left _ _)

theorem map (takes : r.Takes n) (g : α → β) : (g <$> r).Takes n :=
  fun b s inside => leads_map (takes b s inside)

theorem leads_recover (takes : r.Takes n) {b : Buffer} {s : State σ} (inside : s.offset ≤ b.size) :
    (Rule.recover r).Leads b s
      (fun found s' => s'.Inside b s.offset ∧ (found ≠ none → s'.Inside b (s.offset + n)))
      (FailedIn b s.offset) := by
  refine Rule.leads_recover ((takes b s inside).imp (fun _ _ met => ?_) fun _ _ failed => ?_)
  · exact ⟨met.mono (Nat.le_add_right _ _), fun _ => met⟩
  · exact ⟨fun _ => failed, fun _ => ⟨failed.1, fun something => absurd rfl something⟩⟩

theorem recover (takes : r.Takes n) : (Rule.recover r).Takes 0 :=
  fun _ _ inside => (takes.leads_recover inside).imp (fun _ _ met => met.1) fun _ _ failed => failed

end Takes

theorem takes_of_still {r : Rule σ α}
    (still : ∀ b s, ∃ a s', r b s = (.ok a, s') ∧ s'.offset = s.offset) : r.Takes 0 := by
  intro b s inside
  obtain ⟨a, s', ran, same⟩ := still b s
  exact leads_of_ok ran ⟨Nat.le_of_eq same.symm, same ▸ inside⟩

theorem takes_pure (a : α) : (pure a : Rule σ α).Takes 0 :=
  takes_of_still fun _ s => ⟨a, s, rfl, rfl⟩

theorem takes_unread : (unread : Rule σ Nat).Takes 0 :=
  takes_of_still fun _ s => ⟨_, s, rfl, rfl⟩

theorem takes_skipSpace : (skipSpace : Rule σ Unit).Takes 0 :=
  fun _ _ inside => leads_of_ok rfl (State.Inside.pastSpace ⟨Nat.le_refl _, inside⟩)

theorem takes_char {spec : String} {set : CharClass} (compiled : CharClass.compile spec = .ok set) :
    (char (some spec) : Rule σ Char).Takes 1 := by
  intro b s inside
  have here : s.Inside b s.offset := ⟨Nat.le_refl _, inside⟩
  cases next : b.get? s.offset with
  | none =>
    have ran : char (some spec) b s =
        (.error ⟨s.offset, .endOfInput (expectedChar (some spec))⟩, s) := by
      simp only [char, next]
    have past := (b.get?_eq_none_iff _).1 next
    exact leads_of_error ran ⟨here, Nat.le_refl _, inside, Nat.le_antisymm inside past⟩
  | some c =>
    obtain ⟨found, classes, fetched⟩ :
        ∃ found classes, s.classes.fetch spec = .ok (found, classes) := by
      unfold ClassTable.fetch
      rw [compiled]
      split
      · exact ⟨_, _, rfl⟩
      · exact ⟨_, _, rfl⟩
    have ran : char (some spec) b s =
        if found.covers c then (.ok c, (s.withClasses classes).moveTo (s.offset + 1))
        else (.error ⟨s.offset, .wrongChar spec c⟩, s.withClasses classes) := by
      simp only [char, next, fetched, State.withClasses_offset]
    cases covered : found.covers c with
    | true =>
      rw [covered, if_pos rfl] at ran
      exact leads_of_ok ran ⟨Nat.le_refl _, Buffer.lt_size_of_get? next⟩
    | false =>
      rw [covered, if_neg Bool.false_ne_true] at ran
      exact leads_of_error ran ⟨⟨Nat.le_refl _, inside⟩, Nat.le_refl _, inside, next⟩

theorem takes_keyword {literals : List String} {n : Nat}
    (long : ∀ literal ∈ literals, n ≤ literal.length) :
    (keyword literals : Rule σ String).Takes n := by
  intro b s inside
  have here : s.Inside b s.offset := ⟨Nat.le_refl _, inside⟩
  have start := here.pastSpace
  have back : (s.backFrom (b.pastSpace s.offset)).Inside b s.offset := ⟨Nat.le_refl _, inside⟩
  rcases keyword_cases literals b s with ⟨past, ran⟩ | ran | ⟨literal, member, stands, ran⟩
  · exact leads_of_error ran
      ⟨back, start.le_offset, start.le_size, Nat.le_antisymm start.le_size past⟩
  · exact leads_of_error ran ⟨back, start.le_offset, start.le_size, trivial⟩
  · have size := Buffer.size_le_of_holds stands start.le_size
    have behind : (s.moveTo (b.pastSpace s.offset + literal.length)).Inside b (s.offset + n) :=
      ⟨Nat.add_le_add start.le_offset (long literal member), size⟩
    exact leads_of_ok ran ⟨behind.pastSpace.le_offset, behind.pastSpace.le_size⟩

theorem takes_tryKeyword (literals : List String) :
    (tryKeyword literals : Rule σ (Option String)).Takes 0 := by
  intro b s inside
  have takes : (keyword literals : Rule σ String).Takes 0 := takes_keyword fun _ _ => Nat.zero_le _
  exact (leads_tryKeyword ((takes b s inside).imp (fun _ _ met => met) fun _ _ met => met.1)).imp
    (fun _ _ met => met) fun _ _ => False.elim

theorem takes_firstOf {branches : List (Branch σ α)} {n : Nat}
    (each : ∀ branch ∈ branches, branch.rule.Takes n) {b : Buffer} {s : State σ} {entry : Nat}
    (inside : s.Inside b entry) {furthest : Option Furthest}
    (kept : ∀ best, furthest = some best → best.failure.LiesIn b entry)
    (nonempty : furthest = none → branches ≠ []) :
    (firstOf entry branches furthest).Leads b s (fun _ s' => s'.Inside b (entry + n))
      (FailedIn b entry) := by
  have entered : entry ≤ b.size := Nat.le_trans inside.le_offset inside.le_size
  induction branches generalizing s furthest with
  | nil =>
    cases furthest with
    | none => exact absurd rfl (nonempty rfl)
    | some best =>
      exact leads_firstOf_nil ⟨⟨Nat.le_refl _, entered⟩, Furthest.liesIn_verdict (kept best rfl)⟩
  | cons branch rest ih =>
    have ⟨first, later⟩ := List.forall_mem_cons.1 each
    refine leads_firstOf_cons ((first b s inside.le_size).imp (fun _ s' met => ?_) ?_)
    · exact (met.mono (by have := inside.le_offset; omega)).pastSpace
    · -- The rest of the branches is entered where this one was, with one more failure kept.
      rintro e s' ⟨_, lies⟩
      have behind := lies.mono inside.le_offset
      have keeps : ∀ best, some (Furthest.add furthest branch.name e) = some best →
          best.failure.LiesIn b entry := by
        rintro best ⟨⟩
        exact Furthest.liesIn_add kept branch.name behind
      have again : ((s'.note (.branchFailed branch.name e.position)).moveTo s.offset).Inside b
          entry := ⟨inside.le_offset, inside.le_size⟩
      exact ⟨fun _ => ⟨⟨Nat.le_refl _, entered⟩, behind⟩,
        fun _ => ih later again keeps fun none => by cases none⟩

theorem takes_choice {branches : List (Branch σ α)} {n : Nat} (nonempty : branches ≠ [])
    (each : ∀ branch ∈ branches, branch.rule.Takes n) : (choice branches).Takes n := by
  intro b s inside
  have start : (s.moveTo (b.pastSpace s.offset)).Inside b s.offset :=
    State.Inside.pastSpace ⟨Nat.le_refl _, inside⟩
  exact leads_choice (takes_firstOf each start (by simp) fun _ => nonempty)

theorem takes_repeated {r : Rule σ (Option α)} (takes : r.Takes 0) (limit : Nat) :
    (repeated r limit).Takes 0 := by
  induction limit with
  | zero => exact takes_pure []
  | succ limit ih =>
    refine takes.andThen fun value => ?_
    cases value with
    | none => exact takes_pure []
    | some a => exact ih.andThen fun rest => takes_pure (a :: rest)

theorem takes_literal (text : String) {n : Nat} (long : n ≤ text.length) :
    (keyword [text] : Rule σ String).Takes n :=
  takes_keyword fun _ member => List.mem_singleton.1 member ▸ long

end Rule

namespace Grammar

open Rule

variable (policy : Policy)

theorem takes_nameChar : (char (some nameClass) : Production Char).Takes 1 := takes_char rfl

theorem takes_string : string.Takes 1 :=
  takes_nameChar.bind fun _ => takes_unread.andThen fun limit =>
    (takes_repeated takes_nameChar.recover limit).andThen fun _ => takes_pure _

theorem takes_identifier : identifier.Takes 1 :=
  takes_choice (List.cons_ne_nil _ _) (List.forall_mem_singleton.2 takes_string)

theorem takes_pair : pair.Takes 3 :=
  takes_identifier.bind fun _ => (takes_literal ":" (n := 1) (by decide)).bind fun _ =>
    takes_identifier.bind fun _ => takes_pure _

theorem takes_nextPair : (choice [⟨"pair", pair⟩]).Takes 3 :=
  takes_choice (List.cons_ne_nil _ _) (List.forall_mem_singleton.2 takes_pair)

theorem takes_refuseBrace : refuseBrace.Takes 0 := by
  intro b s inside
  have here : s.Inside b s.offset := ⟨Nat.le_refl _, inside⟩
  have start := here.pastSpace
  refine leads_bind_of_ok rfl (leads_bind_of_ok rfl (leads_bind_of_ok rfl ?_))
  split
  · exact leads_fail ⟨start, start.le_offset, start.le_size, rfl⟩
  · exact leads_pure start

theorem takes_fields (limit : Nat) (afterComma : Bool) (body : Body) :
    (fields policy limit afterComma body).Takes 0 := by
  induction limit generalizing afterComma body with
  | zero => exact takes_pure body
  | succ limit ih =>
    refine takes_nextPair.recover.andThen fun read => ?_
    match read with
    | none =>
      dsimp only
      split
      · exact takes_refuseBrace.andThen fun _ => takes_pure body
      · exact takes_pure body
    | some (name, type) =>
      refine (takes_tryKeyword [","]).andThen fun comma => ?_
      cases comma with
      | none => exact takes_pure _
      | some _ => exact ih true _

theorem takes_body : (body policy).Takes 2 :=
  (takes_literal "\x7b" (n := 1) (by decide)).bind fun _ => takes_unread.andThen fun limit =>
    (takes_fields policy (limit + 1) false .empty).andThen fun _ =>
    (takes_literal "\x7d" (n := 1) (by decide)).bind fun _ => takes_pure _

theorem leads_declare_inside {b : Buffer} {o k start : Nat} {s : State Declared}
    (inside : s.Inside b (o + k)) (le : o ≤ start) (le_size : start ≤ b.size) (name : String)
    (body : Body) :
    (declare policy start name body).Leads b s (fun _ s' => s'.Inside b (o + k))
      (FailedIn b o) := by
  refine leads_bind_of_ok rfl ?_
  dsimp only
  split
  · exact leads_fail ⟨inside.mono (Nat.le_add_right _ _), le, le_size, trivial⟩
  · refine leads_bind_of_ok rfl ?_
    split
    · exact ⟨inside.le_offset, inside.le_size⟩
    · exact ⟨inside.le_offset, inside.le_size⟩

theorem takes_message : (message policy).Takes 10 := by
  intro b s inside
  have here : s.Inside b (s.offset + 0) := ⟨Nat.le_refl _, inside⟩
  refine (takes_literal "message" (n := 7) (by decide)).leads_bind here fun _ s₁ inside₁ => ?_
  refine leads_bind_of_ok rfl (leads_bind_of_ok rfl ?_)
  have start := inside₁.pastSpace
  refine takes_string.leads_bind start fun name s₂ inside₂ => ?_
  refine takes_skipSpace.leads_bind inside₂ fun _ s₃ inside₃ => ?_
  refine (takes_body policy).leads_bind inside₃ fun content s₄ inside₄ => ?_
  have le := Nat.le_trans (Nat.le_add_right _ _) start.le_offset
  exact (leads_declare_inside policy inside₄ le start.le_size name content).bind
    (fun _ s₅ inside₅ => leads_pure inside₅) fun _ _ failed => failed

theorem takes_reference (role : Role) : (reference role).Takes 1 := by
  intro b s inside
  have here : s.Inside b (s.offset + 0) := ⟨Nat.le_refl _, inside⟩
  have start := here.pastSpace
  refine leads_bind_of_ok rfl (leads_bind_of_ok rfl ?_)
  refine takes_identifier.leads_bind start fun name s₁ inside₁ => leads_bind_of_ok rfl ?_
  split
  · exact leads_pure inside₁
  · exact leads_fail ⟨inside₁.mono (Nat.le_add_right _ _), start.le_offset, start.le_size, trivial⟩

theorem takes_method : method.Takes 14 := by
  change method.Takes (6 + (1 + (1 + (1 + (1 + (2 + (1 + (1 + 0))))))))
  refine (takes_literal "method" (n := 6) (by decide)).bind fun _ => ?_
  refine takes_identifier.bind fun _ => ?_
  refine (takes_literal "(" (n := 1) (by decide)).bind fun _ => ?_
  refine (takes_reference .request).bind fun _ => ?_
  refine (takes_literal ")" (n := 1) (by decide)).bind fun _ => ?_
  refine (takes_literal "->" (n := 2) (by decide)).bind fun _ => ?_
  refine (takes_reference .response).bind fun _ => ?_
  refine (takes_literal ";" (n := 1) (by decide)).bind fun _ => ?_
  exact takes_of_still fun _ _ => ⟨_, _, rfl, rfl⟩

theorem takes_complexType : (complexType policy).Takes 10 := by
  refine takes_choice (List.cons_ne_nil _ _)
    (List.forall_mem_cons.2 ⟨?_, List.forall_mem_singleton.2 ?_⟩)
  · exact (takes_method.mono (by decide)).map _
  · exact (takes_message policy).map _

theorem takes_primitiveType : primitiveType.Takes 1 := takes_identifier.map _

theorem takes_anyType : (anyType policy).Takes 1 := by
  refine takes_choice (List.cons_ne_nil _ _)
    (List.forall_mem_cons.2 ⟨?_, List.forall_mem_singleton.2 ?_⟩)
  · exact (takes_complexType policy).mono (by decide)
  · exact takes_primitiveType

theorem takes_declaration : (declaration policy).Takes 1 :=
  takes_choice (List.cons_ne_nil _ _) (List.forall_mem_singleton.2 (takes_anyType policy))

/-- A declaration that succeeds has always got further, so the run never stops for lack of it. -/
theorem takes_rounds (limit : Nat) : (rounds policy limit).Takes 0 := by
  induction limit with
  | zero => exact takes_pure ()
  | succ limit ih =>
    intro b s inside
    have here : s.Inside b (s.offset + 0) := ⟨Nat.le_refl _, inside⟩
    refine leads_bind_of_ok rfl (leads_bind_of_ok rfl ?_)
    split
    · exact leads_pure here
    · refine (takes_declaration policy).leads_bind here fun declaration s' met => ?_
      have further : s.offset < s'.offset := by have := met.le_offset; omega
      refine leads_bind_of_ok rfl ?_
      rw [if_neg (Nat.not_le.2 further)]
      have behind : s.offset ≤ (s'.note declaration.event).offset := Nat.le_of_lt further
      refine leads_bind_of_ok rfl ((ih b (s'.note declaration.event) met.le_size).imp ?_ ?_)
      · exact fun _ _ ended => ended.mono behind
      · exact fun _ _ failed => failed.mono behind

theorem takes_source : (source policy).Takes 0 :=
  takes_unread.andThen fun limit => (takes_rounds policy limit).andThen fun _ =>
    takes_of_still fun _ _ => ⟨_, _, rfl, rfl⟩

end Grammar

theorem Symbol.takes_rule (policy : Policy) (production : Symbol) :
    (production.rule policy).Takes 1 := by
  cases production with
  | declaration => exact (Grammar.takes_declaration policy).map _
  | anyType => exact (Grammar.takes_anyType policy).map _
  | complexType => exact ((Grammar.takes_complexType policy).mono (by decide)).map _
  | primitiveType => exact Grammar.takes_primitiveType.map _
  | string => exact Grammar.takes_string.map _
  | pair => exact (Grammar.takes_pair.mono (by decide)).map _
  | body => exact ((Grammar.takes_body policy).mono (by decide)).map _
  | message => exact ((Grammar.takes_message policy).mono (by decide)).map _
  | method => exact (Grammar.takes_method.mono (by decide)).map _

end RpcSchema
