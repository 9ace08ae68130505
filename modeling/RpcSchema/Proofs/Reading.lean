import RpcSchema.Proofs.Leads
import RpcSchema.Proofs.Meaning
import RpcSchema.Proofs.Text

/-! Single tokens. Where a token may start, a keyword and a sign are read if they stand there, and a
word is read up to its last name character; otherwise the rule gives up at this very position. -/
namespace RpcSchema

/-- The offset and what is held, with classes that answer as compiling does. -/
structure State.At {σ : Type} (s : State σ) (o : Nat) (d : σ) : Prop where
  offset_eq : s.offset = o
  held_eq : s.held = d
  sound : s.classes.Sound

theorem State.at_initial {σ : Type} (d : σ) : (State.initial d).At 0 d :=
  ⟨rfl, rfl, ClassTable.sound_nil⟩

namespace State.At

variable {σ : Type} {s : State σ} {o : Nat} {d : σ}

theorem note (place : s.At o d) (event : Event) : (s.note event).At o d :=
  ⟨place.offset_eq, place.held_eq, place.sound⟩

theorem moveTo (place : s.At o d) (n : Nat) : (s.moveTo n).At n d :=
  ⟨rfl, place.held_eq, place.sound⟩

theorem backFrom (place : s.At o d) (n : Nat) : (s.backFrom n).At o d :=
  ⟨place.offset_eq, place.held_eq, place.sound⟩

theorem pastSpace_eq {b : Buffer} (place : s.At o d) (start : b.Start o) :
    b.pastSpace s.offset = o := by
  rw [place.offset_eq, start.pastSpace_eq]

theorem pastSpace {b : Buffer} (place : s.At o d) (start : b.Start o) :
    (s.moveTo (b.pastSpace s.offset)).At o d := by
  rw [place.pastSpace_eq start]
  exact place.moveTo o

theorem leads_held {β : Type} {f : σ → Rule σ β} {b : Buffer} {after : β → State σ → Prop}
    {refused : Failure → State σ → Prop} (place : s.At o d)
    (next : (f d).Leads b s after refused) : (Rule.held >>= f).Leads b s after refused :=
  Rule.leads_bind_of_ok rfl (place.held_eq ▸ next)

end State.At

/-- A failure at a position from which a choice may recover, with nothing declared. -/
structure GaveUp {σ : Type} (p : Nat) (d : σ) (e : Failure) (s : State σ) : Prop where
  position_eq : e.position = p
  recoverable : e.isFatal = false
  held_eq : s.held = d
  sound : s.classes.Sound

namespace GaveUp

variable {σ : Type} {p : Nat} {d : σ} {e : Failure} {s : State σ}

theorem not_fatal (gaveUp : GaveUp p d e s) : ¬e.isFatal = true := by
  rw [gaveUp.recoverable]
  exact Bool.false_ne_true

theorem next (gaveUp : GaveUp p d e s) (event : Event) (n : Nat) :
    ((s.note event).moveTo n).At n d := ⟨rfl, gaveUp.held_eq, gaveUp.sound⟩

end GaveUp

namespace Grammar

open Rule

def nameSet : CharClass :=
  ⟨nameClass, [.range '0' '9', .range 'A' 'Z', .range 'a' 'z', .single '[', .single ']']⟩

theorem compile_nameClass : CharClass.compile nameClass = .ok nameSet := rfl

theorem covers_nameSet (c : Char) : nameSet.covers c = isNameChar c := by
  simp [nameSet, CharClass.covers, ClassItem.covers, isNameChar, Bool.or_assoc]

theorem fetch_nameClass {table : ClassTable} (sound : table.Sound) :
    ∃ next, table.fetch nameClass = .ok (nameSet, next) ∧ next.Sound := by
  have value := ClassTable.fetch_value sound nameClass
  rw [compile_nameClass] at value
  cases fetched : table.fetch nameClass with
  | error bad =>
    rw [fetched] at value
    cases value
  | ok found =>
    obtain ⟨set, next⟩ := found
    rw [fetched] at value
    injection value with same
    subst same
    exact ⟨next, rfl, ClassTable.fetch_sound sound fetched⟩

variable {b : Buffer} {s : State Declared} {o : Nat} {d : Declared}

theorem nameChar_apply (sound : s.classes.Sound) (b : Buffer) :
    ∃ classes : ClassTable, classes.Sound ∧ char (some nameClass) b s =
      match b.get? s.offset with
      | none =>
        (.error ⟨s.offset, .endOfInput (expectedChar (some nameClass))⟩, s.withClasses classes)
      | some c =>
        if isNameChar c then (.ok c, (s.withClasses classes).moveTo (s.offset + 1))
        else (.error ⟨s.offset, .wrongChar nameClass c⟩, s.withClasses classes) := by
  cases here : b.get? s.offset with
  | none => exact ⟨s.classes, sound, by simp only [char, here]; rfl⟩
  | some c =>
    obtain ⟨next, fetched, sound⟩ := fetch_nameClass sound
    have fetch : s.classes.fetch nameClass = .ok (nameSet, next) := fetched
    exact ⟨next, sound, by simp only [char, here, fetch, covers_nameSet]; rfl⟩

theorem leads_nameChar (place : s.At o d) :
    (char (some nameClass)).Leads b s
      (fun c s' => b.get? o = some c ∧ isNameChar c = true ∧ s'.At (o + 1) d)
      fun e s' => EndsName (b.tail o) ∧ s'.offset = o ∧ GaveUp o d e s' := by
  obtain ⟨classes, sound, ran⟩ := nameChar_apply place.sound b
  rw [place.offset_eq] at ran
  rw [b.endsName_tail_iff]
  cases here : b.get? o with
  | none =>
    rw [here] at ran
    exact leads_of_error ran ⟨by simp, place.offset_eq, rfl, rfl, place.held_eq, sound⟩
  | some c =>
    rw [here] at ran
    cases named : isNameChar c with
    | true =>
      simp only [named, if_true] at ran
      exact leads_of_ok ran ⟨rfl, named, rfl, place.held_eq, sound⟩
    | false =>
      simp only [named, Bool.false_eq_true, if_false] at ran
      exact leads_of_error ran
        ⟨by simp [named], place.offset_eq, rfl, rfl, place.held_eq, sound⟩

theorem leads_tryNameChar (place : s.At o d) :
    (tryChar (some nameClass)).Gives b s fun value s' =>
      match value with
      | some c => b.get? o = some c ∧ isNameChar c = true ∧ s'.At (o + 1) d
      | none => EndsName (b.tail o) ∧ s'.At o d := by
  refine leads_recover ((leads_nameChar place).imp (fun _ _ met => met) ?_)
  rintro e s' ⟨ends, offset, gaveUp⟩
  exact ⟨fun fatal => absurd fatal gaveUp.not_fatal,
    fun _ => ⟨ends, offset, gaveUp.held_eq, gaveUp.sound⟩⟩

/-- The rest of a name. As many rounds as there are unread characters are enough for it. -/
theorem leads_names {limit : Nat} (enough : b.size ≤ o + limit) (place : s.At o d) :
    (repeated (tryChar (some nameClass)) limit).Gives b s fun cs s' =>
      cs = b.wordAt o ∧ s'.At (o + cs.length) d := by
  induction limit generalizing s o with
  | zero =>
    have past : b.wordAt o = [] := by
      rw [Buffer.wordAt_eq_nil_iff, (b.tail_eq_nil_iff o).2 enough]
      exact endsName_nil
    exact leads_pure ⟨past.symm, place⟩
  | succ limit ih =>
    refine (leads_tryNameChar place).bind fun value s' met => ?_
    match value with
    | none => exact leads_pure ⟨((b.wordAt_eq_nil_iff o).2 met.1).symm, met.2⟩
    | some c =>
      obtain ⟨found, named, place'⟩ := met
      refine (ih (by omega) place').bind fun cs t read => leads_pure ?_
      obtain ⟨rfl, place''⟩ := read
      refine ⟨(Buffer.wordAt_of_get? found named).symm, ?_⟩
      rwa [List.length_cons, Nat.add_comm _ 1, ← Nat.add_assoc]

theorem leads_string (place : s.At o d) :
    string.Leads b s
      (fun text s' => ∃ w : Word, w.text = text ∧ b.wordAt o = (Token.word w).chars ∧
        s'.At (o + (Token.word w).chars.length) d)
      fun e s' => b.wordAt o = [] ∧ GaveUp o d e s' := by
  refine (leads_nameChar place).bind (fun c s' met => ?_) ?_
  · obtain ⟨found, named, place'⟩ := met
    refine leads_bind_of_ok (a := b.size - s'.offset) rfl ?_
    rw [place'.offset_eq]
    refine (leads_names (by omega) place').bind fun cs t read => leads_pure ?_
    obtain ⟨rfl, place''⟩ := read
    have name := Buffer.wordAt_of_get? found named
    obtain ⟨w, text, word⟩ := Buffer.exists_word (b := b) (o := o) (by simp [name])
    refine ⟨w, by rw [text, name], word, ?_⟩
    rwa [← word, name, List.length_cons, Nat.add_comm _ 1, ← Nat.add_assoc]
  · rintro e s' ⟨ends, _, gaveUp⟩
    exact ⟨(b.wordAt_eq_nil_iff o).2 ends, gaveUp⟩

theorem literal_apply (t : Token) {text : String} (chars : t.chars = text.toList)
    (start : b.Start o) (place : s.At o d) :
    keyword [text] b s =
      if b.holds o t.chars then (.ok text, s.moveTo (b.pastToken o t))
      else if b.size ≤ o then
        (.error ⟨o, .endOfInput ("one of " ++ ", ".intercalate [text])⟩, s.backFrom o)
      else (.error ⟨o, .wrongKeyword [text]⟩, s.backFrom o) := by
  have length : text.length = t.chars.length := by rw [chars, String.length_toList]
  unfold keyword
  simp only [place.pastSpace_eq start, List.find?_cons, List.find?_nil, ← chars]
  cases found : b.holds o t.chars with
  | true =>
    have inside := Buffer.inside_of_holds found
    have long := List.length_pos_iff.2 t.chars_ne_nil
    rw [if_neg (by omega), if_pos rfl, Buffer.pastToken, ← length]
  | false => rfl

theorem leads_literal (t : Token) {text : String} (chars : t.chars = text.toList)
    (start : b.Start o) (place : s.At o d) :
    (keyword [text]).Leads b s
      (fun _ s' => b.holds o t.chars = true ∧ s'.At (b.pastToken o t) d)
      fun e s' => b.holds o t.chars = false ∧ s'.At o d ∧ GaveUp o d e s' := by
  have ran := literal_apply t chars start place
  cases found : b.holds o t.chars with
  | true =>
    rw [found, if_pos rfl] at ran
    exact leads_of_ok ran ⟨rfl, place.moveTo _⟩
  | false =>
    rw [found, if_neg Bool.false_ne_true] at ran
    split at ran
    · exact leads_of_error ran ⟨rfl, place.backFrom o, rfl, rfl, place.held_eq, place.sound⟩
    · exact leads_of_error ran ⟨rfl, place.backFrom o, rfl, rfl, place.held_eq, place.sound⟩

theorem leads_keyword (k : Keyword) (start : b.Start o) (place : s.At o d) :
    (keyword [k.text]).Leads b s
      (fun _ s' => b.holds o (Token.keyword k).chars = true ∧
        s'.At (b.pastToken o (.keyword k)) d)
      fun e s' => b.holds o (Token.keyword k).chars = false ∧ GaveUp o d e s' :=
  (leads_literal (.keyword k) rfl start place).imp (fun _ _ met => met)
    fun _ _ met => ⟨met.1, met.2.2⟩

theorem leads_sign (t : Sign) (start : b.Start o) (place : s.At o d) :
    (keyword [t.text]).Leads b s
      (fun _ s' => b.holds o (Token.sign t).chars = true ∧ s'.At (b.pastToken o (.sign t)) d)
      fun e s' => b.holds o (Token.sign t).chars = false ∧ GaveUp o d e s' :=
  (leads_literal (.sign t) rfl start place).imp (fun _ _ met => met)
    fun _ _ met => ⟨met.1, met.2.2⟩

theorem leads_trySign (t : Sign) (start : b.Start o) (place : s.At o d) :
    (tryKeyword [t.text]).Gives b s fun value s' =>
      match value with
      | some _ => b.holds o (Token.sign t).chars = true ∧ s'.At (b.pastToken o (.sign t)) d
      | none => b.holds o (Token.sign t).chars = false ∧ s'.At o d := by
  refine leads_tryKeyword ((leads_literal (.sign t) rfl start place).imp (fun _ _ met => met) ?_)
  exact fun _ _ met => ⟨met.1, met.2.1⟩

theorem leads_identifier (start : b.Start o) (place : s.At o d) :
    identifier.Leads b s
      (fun text s' => ∃ w : Word, w.text = text ∧ b.wordAt o = (Token.word w).chars ∧
        s'.At (b.pastToken o (.word w)) d)
      fun e s' => b.wordAt o = [] ∧ s'.offset = o ∧ GaveUp o d e s' := by
  refine leads_choice_one ((leads_string (place.pastSpace start)).imp ?_ ?_)
  · rintro text s' ⟨w, same, word, place⟩
    refine ⟨w, same, word, ?_⟩
    rw [Buffer.pastToken, ← place.offset_eq]
    exact place.moveTo _
  · rintro e s' ⟨empty, gaveUp⟩
    refine ⟨fun fatal => absurd fatal gaveUp.not_fatal, fun _ => ⟨empty, place.offset_eq, ?_⟩⟩
    exact ⟨gaveUp.position_eq, gaveUp.recoverable, gaveUp.held_eq, gaveUp.sound⟩

theorem leads_reference (role : Role) (start : b.Start o) (place : s.At o d) :
    (reference role).Leads b s
      (fun found s' => ∃ w : Word, b.wordAt o = (Token.word w).chars ∧
        Scope.resolve d.scope w.text = some found ∧ s'.At (b.pastToken o (.word w)) d)
      fun e s' => (b.wordAt o = [] ∧ GaveUp o d e s') ∨
        ∃ w : Word, b.wordAt o = (Token.word w).chars ∧ Scope.resolve d.scope w.text = none ∧
          e = ⟨o, .undefinedMessage role w.text⟩ := by
  have here := place.pastSpace_eq start
  refine leads_bind_of_ok rfl (leads_bind_of_ok rfl ?_)
  rw [State.moveTo_offset, here]
  refine (leads_identifier start (place.moveTo o)).bind ?_ fun _ _ met => .inl ⟨met.1, met.2.2⟩
  rintro name s' ⟨w, rfl, word, place'⟩
  refine place'.leads_held ?_
  cases resolved : Scope.resolve d.scope w.text with
  | some found => exact leads_pure ⟨w, word, resolved, place'⟩
  | none => exact leads_fail (.inr ⟨w, word, resolved, rfl⟩)

end Grammar

end RpcSchema
