import RpcSchema.Proofs.Scoping
import RpcSchema.Proofs.Strictness

/-! What decides between the readings of a declaration. A message and a method are read, or refused
for good, exactly where one of certain rows of tokens stands, whatever comes behind it: all tokens
of the phrase, or those of a method up to a name that is not in scope. Elsewhere a bare word is
read. -/
namespace RpcSchema

theorem Policy.stricter_lenient (policy : Policy) : policy.Stricter .lenient where
  commas := by
    cases policy.trailingComma with
    | allow => exact .inl rfl
    | reject => exact .inr ⟨rfl, rfl⟩
  duplicates := by
    cases policy.duplicates with
    | overwrite => exact .inl rfl
    | reject => exact .inr ⟨rfl, rfl⟩

namespace Grammar

open Rule

variable {policy : Policy} {b : Buffer} {s : State Declared} {o o' : Nat} {d : Declared}

theorem settles_complexType (tight : b.Tight) (decided : b.Decided o d.scope) (start : b.Start o)
    (place : s.At o d) :
    (complexType policy).Leads b s (fun _ _ => True) fun e _ => e.isFatal = true := by
  obtain ⟨ts, o', decides, spelled⟩ := decided
  cases decides with
  | phrase phrase complex declaration declared =>
    have stands : Stands .lenient b o d phrase declaration o' :=
      ⟨spelled, phrase.permitted_lenient d.scope, declared, fun w same => absurd same (complex w)⟩
    have gives := gives_complexType tight stands complex start place
    cases restricts_complexType policy.stricter_lenient tight start place with
    | same equal =>
      obtain ⟨read, s', ran, _⟩ := gives.exists_ok
      exact leads_of_ok (equal.trans ran) trivial
    | stopped e t ran fatal reason => exact leads_of_error ran fatal
    | denied e t read t' ran fatal _ reason => exact leads_of_error ran fatal
  | opening opening breaks =>
    obtain ⟨p, lead, has, rfl⟩ := (Buffer.spells_append _ _).1 spelled
    have word := has.wordAt rfl rfl
    have fails : FailsWith (complexType policy) b s
        ⟨p, .undefinedMessage opening.role opening.last.text⟩ :=
      FailsWith.choice rfl (leads_map
        (failsWith_method tight breaks lead word start (place.pastSpace start)))
    refine fails.imp (fun _ _ _ => trivial) ?_
    rintro _ _ rfl
    rfl

/-- A phrase that is read at a position, up to another one: it may stand there, and a bare word
does where no message and no method is decided. -/
structure ReadsAs (policy : Policy) (b : Buffer) (o : Nat) (d : Declared) (phrase : Phrase)
    (declaration : Declaration) (o' : Nat) : Prop where
  spelled : b.Spells Token.isWord o phrase.tokens o'
  permitted : phrase.Permitted policy d.scope
  declared : phrase.declaration? d.scope = some declaration
  undecided : ∀ w, phrase = .bare w → ¬b.Decided o d.scope

theorem ReadsAs.lt {phrase : Phrase} {declaration : Declaration}
    (reads : ReadsAs policy b o d phrase declaration o') : o < o' :=
  reads.spelled.lt (tokens_ne_nil phrase)

theorem ReadsAs.inside {phrase : Phrase} {declaration : Declaration}
    (reads : ReadsAs policy b o d phrase declaration o') : o < b.size := by
  obtain ⟨t, rest, tokens⟩ := List.exists_cons_of_ne_nil (tokens_ne_nil phrase)
  have spelled := reads.spelled
  rw [tokens] at spelled
  have within := Buffer.inside_of_holds spelled.1.holds
  have long := List.length_pos_iff.2 t.chars_ne_nil
  omega

def Picks (policy : Policy) (b : Buffer) (o : Nat) (d : Declared) (read : Declaration)
    (s : State Declared) : Prop :=
  ∃ phrase o', ReadsAs policy b o d phrase read o' ∧ s.At o' (d.add read)

theorem Picks.pastSpace {read : Declaration} (picks : Picks policy b o d read s) (tight : b.Tight)
    (start : b.Start o) : Picks policy b o d read (s.moveTo (b.pastSpace s.offset)) := by
  obtain ⟨phrase, o', reads, place⟩ := picks
  exact ⟨phrase, o', reads, place.pastSpace (reads.spelled.start tight start)⟩

theorem leads_complexType_picks (tight : b.Tight) (start : b.Start o) (place : s.At o d) :
    (complexType policy).Leads b s
      (fun read s' => b.Decided o d.scope ∧ Picks policy b o d read s')
      fun e s' => (b.Decided o d.scope ∧ e.isFatal = true ∧ o ≤ e.position) ∨
        (¬b.Decided o d.scope ∧ ∃ p, GaveUp p d e s' ∧ (b.wordAt o = [] → p = o)) := by
  have leads : (complexType policy).Leads b s _ (Stops policy b o d) :=
    leads_complexType tight start place
  refine leads_of_results (fun read s' ran => ?_) fun e s' ran => ?_
  · obtain ⟨⟨phrase, o', spelled, permitted, declared, place'⟩, complex⟩ := leads.of_ok ran
    have other (w : Word) : phrase ≠ .bare w := by
      rintro rfl
      cases declared
      exact complex w.text rfl
    refine ⟨⟨_, o', .phrase phrase other read declared, spelled⟩, phrase, o', ?_, place'⟩
    exact ⟨spelled, permitted, declared, fun w bare => absurd bare (other w)⟩
  · rcases leads.of_error ran with gaveUp | faults
    · refine .inr ⟨fun decided => ?_, gaveUp⟩
      have settled := (settles_complexType tight decided start place).of_error ran
      obtain ⟨p, gaveUp, _⟩ := gaveUp
      exact gaveUp.not_fatal settled
    · exact .inl ⟨faults.decided, faults.fatal, faults.le_position⟩

theorem givesUp_of_undecided (tight : b.Tight) (undecided : ¬b.Decided o d.scope)
    (start : b.Start o) (place : s.At o d) : GivesUp (complexType policy) b s d := by
  refine (leads_complexType_picks tight start place).imp
    (fun _ _ met => undecided met.1) ?_
  rintro e s' (⟨decided, _⟩ | ⟨_, p, gaveUp, _⟩)
  · exact absurd decided undecided
  · exact ⟨p, gaveUp⟩

theorem gives_of_readsAs (tight : b.Tight) {phrase : Phrase} {declaration : Declaration}
    (reads : ReadsAs policy b o d phrase declaration o') (start : b.Start o) (place : s.At o d) :
    (Grammar.declaration policy).Gives b s fun read s' =>
      read = declaration ∧ s'.At o' (d.add declaration) := by
  by_cases bare : ∃ w, phrase = .bare w
  · obtain ⟨w, rfl⟩ := bare
    have undecided := reads.undecided w rfl
    obtain ⟨⟨hasWord, rfl⟩, _, declared, _⟩ := reads
    cases declared
    have start' := tight.start_pastToken hasWord.holds
    refine Gives.choice_first (gives_choice_second start (place.pastSpace start)
      (fun place => givesUp_of_undecided tight undecided start place) fun place => ?_)
    refine (gives_primitiveType (hasWord.wordAt rfl rfl) start place).imp ?_ fun _ _ => id
    rintro _ s' ⟨rfl, place'⟩
    exact ⟨rfl, (place'.pastSpace start').pastSpace start'⟩
  · have complex (w : Word) : phrase ≠ .bare w := fun same => bare ⟨w, same⟩
    have stands : Stands policy b o d phrase declaration o' :=
      ⟨reads.spelled, reads.permitted, reads.declared, fun w same => absurd same (complex w)⟩
    exact gives_declaration tight stands start place

theorem leads_anyType_picks (tight : b.Tight) (start : b.Start o) (place : s.At o d) :
    (anyType policy).Leads b s (Picks policy b o d)
      fun e _ => o ≤ e.position ∧ (e.isFatal = false → e.position = o) := by
  refine leads_choice_two ?_
  rw [place.pastSpace_eq start]
  refine (leads_complexType_picks tight start (place.moveTo o)).imp
    (fun _ _ met => met.2.pastSpace tight start) ?_
  rintro e s₁ (⟨_, fatal, further⟩ | ⟨undecided, p, gaveUp, tie⟩)
  · have settled (notFatal : e.isFatal = false) : False := by cases fatal.symm.trans notFatal
    exact ⟨fun _ => ⟨further, fun notFatal => (settled notFatal).elim⟩,
      fun notFatal => (settled notFatal).elim⟩
  · refine ⟨fun fatal => absurd fatal gaveUp.not_fatal, fun _ => ?_⟩
    have place₁ := gaveUp.next (.branchFailed "complexType" e.position) o
    refine leads_map ((leads_identifier start place₁).imp ?_ ?_)
    · rintro text s₂ ⟨w, rfl, word, place₂⟩
      have picks : Picks policy b o d (.bare w.text) s₂ :=
        ⟨.bare w, _, ⟨⟨Buffer.has_word _ word, rfl⟩, trivial, rfl, fun _ _ => undecided⟩, place₂⟩
      exact picks.pastSpace tight start
    · rintro e' s₂ ⟨empty, _, gaveUp'⟩
      refine ⟨fun fatal => absurd fatal gaveUp'.not_fatal, fun _ => ?_⟩
      -- No name stands here, so the first branch has not got further than the second.
      have first : e.position = o := by rw [gaveUp.position_eq, tie empty]
      rw [Furthest.verdict_two_tied (gaveUp'.position_eq.trans first.symm), first]
      exact ⟨Nat.le_refl o, fun _ => rfl⟩

/-- A declaration that is not read is refused at its first position or further behind, and there
itself unless it is refused for good. -/
theorem leads_declaration_picks (tight : b.Tight) (start : b.Start o) (place : s.At o d) :
    (declaration policy).Leads b s (Picks policy b o d)
      fun e _ => o ≤ e.position ∧ (e.isFatal = false → e.position = o) :=
  leads_choice_one ((leads_anyType_picks tight start (place.pastSpace start)).imp
    (fun _ _ picks => picks.pastSpace tight start) fun _ _ met => ⟨fun _ => met, fun _ => met⟩)

end Grammar

end RpcSchema
