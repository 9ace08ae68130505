import RpcSchema.Proofs.Reading

/-! What the grammar has got past. Names, keywords, signs and the space are all that it ever steps
over, so that only ASCII lies in front of the offset of a run and in front of every failure, however
often choices set the offset back. -/
namespace RpcSchema

/-- Every character in front of the position is ASCII. -/
def Buffer.AsciiTo (b : Buffer) (o : Nat) : Prop :=
  ∀ i < o, ∀ c, b.get? i = some c → c.toNat < 128

namespace Buffer.AsciiTo

variable {b : Buffer} {o : Nat} {c : Char}

theorem zero (b : Buffer) : b.AsciiTo 0 := fun i before => absurd before (Nat.not_lt_zero i)

theorem succ (front : b.AsciiTo o) (found : b.get? o = some c) (ascii : c.toNat < 128) :
    b.AsciiTo (o + 1) := by
  intro i before d here
  rcases Nat.lt_succ_iff_lt_or_eq.1 before with earlier | rfl
  · exact front i earlier d here
  · cases found.symm.trans here
    exact ascii

theorem pastSpace (front : b.AsciiTo o) : b.AsciiTo (b.pastSpace o) := by
  unfold Buffer.pastSpace
  split
  · next space => exact front.succ space (by decide)
  · exact front

theorem literal {text : List Char} (front : b.AsciiTo o) (found : b.holds o text = true)
    (ascii : ∀ c ∈ text, c.toNat < 128) : b.AsciiTo (o + text.length) := by
  induction text generalizing o with
  | nil => exact front
  | cons c rest ih =>
    have ⟨first, later⟩ := List.forall_mem_cons.1 ascii
    simp only [Buffer.holds, Bool.and_eq_true, beq_iff_eq] at found
    have behind := ih (front.succ found.1 first) found.2 later
    rwa [Nat.add_right_comm, Nat.add_assoc] at behind

end Buffer.AsciiTo

/-- Only ASCII lies in front of the offset, and the classes answer as compiling does. -/
structure State.InAscii {σ : Type} (b : Buffer) (s : State σ) : Prop where
  front : b.AsciiTo s.offset
  sound : s.classes.Sound

theorem State.InAscii.pastSpace {σ : Type} {b : Buffer} {s : State σ} (clear : s.InAscii b) :
    (s.moveTo (b.pastSpace s.offset)).InAscii b := ⟨clear.front.pastSpace, clear.sound⟩

namespace Furthest

variable {b : Buffer} {furthest : Option Furthest}

theorem asciiTo_add (kept : ∀ best, furthest = some best → b.AsciiTo best.failure.position)
    (name : String) {e : Failure} (front : b.AsciiTo e.position) :
    b.AsciiTo (add furthest name e).failure.position := by
  rcases add_failure furthest name e with same | ⟨best, known, same⟩
  · rwa [same]
  · rw [same]
    exact kept best known

theorem asciiTo_verdict (kept : ∀ best, furthest = some best → b.AsciiTo best.failure.position)
    {entry : Nat} (entered : b.AsciiTo entry) : b.AsciiTo (verdict b entry furthest).position := by
  cases furthest with
  | none => exact entered
  | some best =>
    have known := kept best rfl
    simp only [verdict]
    split
    · exact known
    · exact known

end Furthest

namespace Rule

variable {σ α β : Type}

def FailedInAscii (b : Buffer) (e : Failure) (s : State σ) : Prop :=
  s.InAscii b ∧ b.AsciiTo e.position

/-- The rule gets past nothing but ASCII, and reports no failure behind anything else. -/
def InAscii (r : Rule σ α) : Prop :=
  ∀ b s, s.InAscii b → r.Leads b s (fun _ s' => s'.InAscii b) (FailedInAscii b)

theorem inAscii_of_still {r : Rule σ α}
    (still : ∀ b s, ∃ a s', r b s = (.ok a, s') ∧ s'.offset = s.offset ∧ s'.classes = s.classes) :
    r.InAscii := by
  intro b s clear
  obtain ⟨a, s', ran, offset, classes⟩ := still b s
  exact leads_of_ok ran ⟨offset ▸ clear.front, classes ▸ clear.sound⟩

theorem inAscii_pure (a : α) : (pure a : Rule σ α).InAscii :=
  inAscii_of_still fun _ s => ⟨a, s, rfl, rfl, rfl⟩

theorem inAscii_unread : (unread : Rule σ Nat).InAscii :=
  inAscii_of_still fun _ s => ⟨_, s, rfl, rfl, rfl⟩

theorem inAscii_note (event : Event) : (note event : Rule σ Unit).InAscii :=
  inAscii_of_still fun _ s => ⟨(), s.note event, rfl, rfl, rfl⟩

theorem inAscii_held : (held : Rule σ σ).InAscii :=
  inAscii_of_still fun _ s => ⟨_, s, rfl, rfl, rfl⟩

theorem inAscii_setHeld (value : σ) : (setHeld value : Rule σ Unit).InAscii :=
  inAscii_of_still fun _ _ => ⟨(), _, rfl, rfl, rfl⟩

namespace InAscii

variable {r : Rule σ α} {f : α → Rule σ β}

theorem bind (clear : r.InAscii) (next : ∀ a, (f a).InAscii) : (r >>= f).InAscii :=
  fun b s entered => (clear b s entered).bind (fun a s' met => next a b s' met) fun _ _ failed =>
    failed

theorem map (clear : r.InAscii) (g : α → β) : (g <$> r).InAscii :=
  fun b s entered => leads_map (clear b s entered)

theorem recover (clear : r.InAscii) : (Rule.recover r).InAscii :=
  fun b s entered => leads_recover ((clear b s entered).imp (fun _ _ met => met) fun _ _ failed =>
    ⟨fun _ => failed, fun _ => failed.1⟩)

end InAscii

theorem inAscii_keyword {literals : List String}
    (ascii : ∀ literal ∈ literals, ∀ c ∈ literal.toList, c.toNat < 128) :
    (keyword literals : Rule σ String).InAscii := by
  intro b s clear
  have start := clear.front.pastSpace
  have back : (s.backFrom (b.pastSpace s.offset)).InAscii b := ⟨clear.front, clear.sound⟩
  rcases keyword_cases literals b s with ⟨_, ran⟩ | ran | ⟨literal, member, stands, ran⟩
  · exact leads_of_error ran ⟨back, start⟩
  · exact leads_of_error ran ⟨back, start⟩
  · have behind := start.literal stands (ascii literal member)
    rw [String.length_toList] at behind
    exact leads_of_ok ran ⟨behind.pastSpace, clear.sound⟩

theorem inAscii_literal {text : String}
    (ascii : text.toList.all (fun c => decide (c.toNat < 128)) = true) :
    (keyword [text] : Rule σ String).InAscii :=
  inAscii_keyword (List.forall_mem_singleton.2 fun c member =>
    of_decide_eq_true (List.all_eq_true.1 ascii c member))

theorem inAscii_tryLiteral {text : String}
    (ascii : text.toList.all (fun c => decide (c.toNat < 128)) = true) :
    (tryKeyword [text] : Rule σ (Option String)).InAscii :=
  fun b s clear => (leads_tryKeyword ((inAscii_literal ascii b s clear).imp (fun _ _ met => met)
    fun _ _ failed => failed.1)).imp (fun _ _ met => met) fun _ _ => False.elim

theorem inAscii_firstOf {branches : List (Branch σ α)}
    (each : ∀ branch ∈ branches, branch.rule.InAscii) {b : Buffer} {s : State σ} {entry : Nat}
    (clear : s.InAscii b) (entered : b.AsciiTo entry) {furthest : Option Furthest}
    (kept : ∀ best, furthest = some best → b.AsciiTo best.failure.position) :
    (firstOf entry branches furthest).Leads b s (fun _ s' => s'.InAscii b) (FailedInAscii b) := by
  induction branches generalizing s furthest with
  | nil =>
    exact leads_firstOf_nil ⟨⟨entered, clear.sound⟩, Furthest.asciiTo_verdict kept entered⟩
  | cons branch rest ih =>
    have ⟨first, later⟩ := List.forall_mem_cons.1 each
    refine leads_firstOf_cons ((first b s clear).imp (fun _ s' met => met.pastSpace) ?_)
    rintro e s' ⟨left, behind⟩
    have keeps : ∀ best, some (Furthest.add furthest branch.name e) = some best →
        b.AsciiTo best.failure.position := by
      rintro best ⟨⟩
      exact Furthest.asciiTo_add kept branch.name behind
    have again : ((s'.note (.branchFailed branch.name e.position)).moveTo s.offset).InAscii b :=
      ⟨clear.front, left.sound⟩
    exact ⟨fun _ => ⟨⟨entered, left.sound⟩, behind⟩, fun _ => ih later again keeps⟩

theorem inAscii_choice {branches : List (Branch σ α)}
    (each : ∀ branch ∈ branches, branch.rule.InAscii) : (choice branches).InAscii :=
  fun _ _ clear => leads_choice (inAscii_firstOf each clear.pastSpace clear.front fun _ none => by
    cases none)

theorem inAscii_repeated {r : Rule σ (Option α)} (clear : r.InAscii) (limit : Nat) :
    (repeated r limit).InAscii := by
  induction limit with
  | zero => exact inAscii_pure []
  | succ limit ih =>
    refine clear.bind fun value => ?_
    cases value with
    | none => exact inAscii_pure []
    | some a => exact ih.bind fun rest => inAscii_pure (a :: rest)

end Rule

namespace Grammar

open Rule

theorem inAscii_nameChar : (char (some nameClass) : Production Char).InAscii := by
  intro b s clear
  obtain ⟨classes, sound, ran⟩ := nameChar_apply clear.sound b
  cases here : b.get? s.offset with
  | none =>
    rw [here] at ran
    exact leads_of_error ran ⟨⟨clear.front, sound⟩, clear.front⟩
  | some c =>
    rw [here] at ran
    cases named : isNameChar c with
    | true =>
      simp only [named, if_true] at ran
      have bounds := toNat_of_isNameChar named
      exact leads_of_ok ran ⟨clear.front.succ here (by omega), sound⟩
    | false =>
      simp only [named, Bool.false_eq_true, if_false] at ran
      exact leads_of_error ran ⟨⟨clear.front, sound⟩, clear.front⟩

theorem inAscii_string : string.InAscii :=
  inAscii_nameChar.bind fun _ => inAscii_unread.bind fun limit =>
    (inAscii_repeated inAscii_nameChar.recover limit).bind fun _ => inAscii_pure _

theorem inAscii_identifier : identifier.InAscii :=
  inAscii_choice (List.forall_mem_singleton.2 inAscii_string)

theorem inAscii_pair : pair.InAscii :=
  inAscii_identifier.bind fun _ => (inAscii_literal (by decide)).bind fun _ =>
    inAscii_identifier.bind fun _ => inAscii_pure _

theorem inAscii_refuseBrace : refuseBrace.InAscii := by
  intro b s clear
  refine leads_bind_of_ok rfl (leads_bind_of_ok rfl (leads_bind_of_ok rfl ?_))
  split
  · exact leads_fail ⟨clear.pastSpace, clear.front.pastSpace⟩
  · exact leads_pure clear.pastSpace

variable (policy : Policy)

theorem inAscii_fields (limit : Nat) (afterComma : Bool) (body : Body) :
    (fields policy limit afterComma body).InAscii := by
  induction limit generalizing afterComma body with
  | zero => exact inAscii_pure body
  | succ limit ih =>
    have field : (choice [⟨"pair", pair⟩]).InAscii :=
      inAscii_choice (List.forall_mem_singleton.2 inAscii_pair)
    refine field.recover.bind fun read => ?_
    match read with
    | none =>
      dsimp only
      split
      · exact inAscii_refuseBrace.bind fun _ => inAscii_pure body
      · exact inAscii_pure body
    | some (name, type) =>
      refine (inAscii_tryLiteral (by decide)).bind fun comma => ?_
      cases comma with
      | none => exact inAscii_pure _
      | some _ => exact ih true _

theorem inAscii_body : (body policy).InAscii :=
  (inAscii_literal (by decide)).bind fun _ => inAscii_unread.bind fun limit =>
    (inAscii_fields policy (limit + 1) false .empty).bind fun _ =>
    (inAscii_literal (by decide)).bind fun _ => inAscii_pure _

theorem leads_declare_inAscii {b : Buffer} {start : Nat} {s : State Declared} (clear : s.InAscii b)
    (front : b.AsciiTo start) (name : String) (body : Body) :
    (declare policy start name body).Leads b s (fun _ s' => s'.InAscii b) (FailedInAscii b) := by
  refine leads_bind_of_ok rfl ?_
  dsimp only
  split
  · exact leads_fail ⟨clear, front⟩
  · refine (inAscii_setHeld _).bind (fun _ => ?_) b s clear
    split
    · exact inAscii_note _
    · exact inAscii_pure ()

theorem inAscii_message : (message policy).InAscii := by
  intro b s clear
  refine (inAscii_literal (by decide) b s clear).bind (fun _ s₁ clear₁ => ?_) fun _ _ failed =>
    failed
  refine leads_bind_of_ok rfl (leads_bind_of_ok rfl ?_)
  have start := clear₁.pastSpace
  refine (inAscii_string b _ start).bind (fun name s₂ clear₂ => ?_) fun _ _ failed => failed
  refine leads_bind_of_ok rfl ((inAscii_body policy b _ clear₂.pastSpace).bind
    (fun content s₃ clear₃ => ?_) fun _ _ failed => failed)
  exact (leads_declare_inAscii policy clear₃ start.front name content).bind
    (fun _ s₄ clear₄ => leads_pure clear₄) fun _ _ failed => failed

theorem inAscii_reference (role : Role) : (reference role).InAscii := by
  intro b s clear
  have start := clear.pastSpace
  refine leads_bind_of_ok rfl (leads_bind_of_ok rfl ?_)
  refine (inAscii_identifier b _ start).bind (fun name s₁ clear₁ => leads_bind_of_ok rfl ?_)
    fun _ _ failed => failed
  split
  · exact leads_pure clear₁
  · exact leads_fail ⟨clear₁, start.front⟩

theorem inAscii_method : method.InAscii :=
  (inAscii_literal (by decide)).bind fun _ => inAscii_identifier.bind fun _ =>
    (inAscii_literal (by decide)).bind fun _ => (inAscii_reference _).bind fun _ =>
    (inAscii_literal (by decide)).bind fun _ => (inAscii_literal (by decide)).bind fun _ =>
    (inAscii_reference _).bind fun _ => (inAscii_literal (by decide)).bind fun _ =>
    inAscii_held.bind fun _ => (inAscii_setHeld _).bind fun _ => inAscii_pure _

theorem inAscii_complexType : (complexType policy).InAscii :=
  inAscii_choice (List.forall_mem_cons.2
    ⟨inAscii_method.map _, List.forall_mem_singleton.2 ((inAscii_message policy).map _)⟩)

theorem inAscii_anyType : (anyType policy).InAscii :=
  inAscii_choice (List.forall_mem_cons.2
    ⟨inAscii_complexType policy, List.forall_mem_singleton.2 (inAscii_identifier.map _)⟩)

theorem inAscii_declaration : (declaration policy).InAscii :=
  inAscii_choice (List.forall_mem_singleton.2 (inAscii_anyType policy))

theorem inAscii_rounds (limit : Nat) : (rounds policy limit).InAscii := by
  induction limit with
  | zero => exact inAscii_pure ()
  | succ limit ih =>
    intro b s clear
    refine leads_bind_of_ok rfl (leads_bind_of_ok rfl ?_)
    split
    · exact leads_pure clear
    · refine (inAscii_declaration policy b s clear).bind (fun declaration s₁ clear₁ => ?_)
        fun _ _ failed => failed
      refine leads_bind_of_ok rfl ?_
      split
      · exact leads_fail ⟨clear₁, clear.front⟩
      · exact (inAscii_note declaration.event).bind (fun _ => ih) b s₁ clear₁

theorem inAscii_source : (source policy).InAscii :=
  inAscii_unread.bind fun limit => (inAscii_rounds policy limit).bind fun _ =>
    inAscii_held.bind fun _ => (inAscii_note _).bind fun _ => inAscii_pure _

end Grammar

theorem asciiTo_of_readSource {policy : Policy} {source : String} {e : Failure}
    (read : (readSource policy source).1 = .error e) :
    (Buffer.ofSource source).AsciiTo e.position := by
  have initial : ((State.initial Declared.nothing).note
      (.normalized (Buffer.ofSource source).size)).InAscii (Buffer.ofSource source) :=
    ⟨.zero _, ClassTable.sound_nil⟩
  have failed : Rule.FailedInAscii (Buffer.ofSource source) e (readSource policy source).2 :=
    (Grammar.inAscii_source policy _ _ initial).of_error (Prod.ext read rfl)
  exact failed.2

end RpcSchema
