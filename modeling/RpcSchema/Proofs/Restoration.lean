import RpcSchema.Program
import RpcSchema.Proofs.Leads

/-! Where failing leaves the offset. Characters, keywords and choices are attempts. One that fails,
however far its branches have come, leaves the offset where it was on entry, in front of a space
that was stepped over; so does one that is recovered from and gives no value. -/
namespace RpcSchema

namespace Rule

variable {σ τ α β : Type}

/-- A rule leaves the offset as it was when it fails, and when its value says that it missed. -/
def Restores (missed : α → Prop) (r : Rule σ α) : Prop :=
  ∀ b s, r.Leads b s (fun a s' => missed a → s'.offset = s.offset) fun _ s' => s'.offset = s.offset

namespace Restores

variable {r : Rule σ α} {missed : α → Prop}

theorem imp (restores : r.Restores missed) {missed' : α → Prop}
    (fewer : ∀ a, missed' a → missed a) : r.Restores missed' :=
  fun b s => (restores b s).imp (fun a _ back miss => back (fewer a miss)) fun _ _ back => back

theorem map (restores : r.Restores missed) (g : α → β) {missed' : β → Prop}
    (same : ∀ a, missed' (g a) → missed a) : (g <$> r).Restores missed' :=
  fun b s => leads_map (restores.imp same b s)

theorem recover {missed : Option α → Prop} (restores : r.Restores fun a => missed (some a)) :
    (Rule.recover r).Restores missed := by
  intro b s
  exact leads_recover ((restores b s).imp (fun _ _ back => back)
    fun _ _ back => ⟨fun _ => back, fun _ _ => back⟩)

theorem within (restores : r.Restores missed) (get : τ → σ) (set : σ → τ → τ) :
    (Rule.within get set r).Restores missed := by
  intro b s
  have inner := restores b (s.holding (get s.held))
  unfold Leads Rule.within
  cases ran : r b (s.holding (get s.held)) with
  | mk result s' =>
    cases result with
    | ok a => exact inner.of_ok ran
    | error e => exact inner.of_error ran

end Restores

theorem restores_of_error {r : Rule σ α} {missed : α → Prop}
    (hits : ∀ b s, r.Leads b s (fun a _ => ¬missed a) fun _ _ => True)
    (back : ∀ b s s' e, r b s = (.error e, s') → s'.offset = s.offset) : r.Restores missed :=
  fun b s => leads_of_results (fun _ _ ran miss => absurd miss ((hits b s).of_ok ran))
    fun e s' ran => back b s s' e ran

theorem leads_any {r : Rule σ α} {b : Buffer} {s : State σ} :
    r.Leads b s (fun _ _ => ¬False) fun _ _ => True :=
  leads_of_results (fun _ _ _ => id) fun _ _ _ => trivial

theorem restores_char (spec : Option String) : (char spec : Rule σ Char).Restores fun _ => False :=
  restores_of_error (fun _ _ => leads_any) fun _ _ _ _ ran => (char_error_offset ran).1

theorem restores_tryChar (spec : Option String) :
    (tryChar spec : Rule σ (Option Char)).Restores (· = none) :=
  Restores.recover ((restores_char spec).imp fun _ => Option.some_ne_none _)

theorem restores_keyword (literals : List String) :
    (keyword literals : Rule σ String).Restores fun _ => False :=
  restores_of_error (fun _ _ => leads_any) fun _ _ _ _ ran =>
    (keyword_error ran).1 ▸ rfl

theorem restores_tryKeyword (literals : List String) :
    (tryKeyword literals : Rule σ (Option String)).Restores (· = none) := by
  intro b s
  refine (leads_tryKeyword ((restores_keyword literals b s).imp ?_ ?_)).imp
    (fun _ _ back => back) fun _ _ => False.elim
  · exact fun _ _ _ miss => absurd miss (Option.some_ne_none _)
  · exact fun _ _ back _ => back

theorem leads_firstOf_value {value : α → Prop} {branches : List (Branch σ α)}
    (each : ∀ branch ∈ branches, ∀ b s, branch.rule.Leads b s (fun a _ => value a) fun _ _ => True)
    {b : Buffer} {s : State σ} {entry : Nat} {furthest : Option Furthest} :
    (firstOf entry branches furthest).Leads b s (fun a _ => value a) fun _ _ => True := by
  induction branches generalizing s furthest with
  | nil => exact leads_firstOf_nil trivial
  | cons branch rest ih =>
    have ⟨first, later⟩ := List.forall_mem_cons.1 each
    refine leads_firstOf_cons ((first b s).imp (fun _ _ met => met) fun _ _ _ => ?_)
    exact ⟨fun _ => trivial, fun _ => ih later⟩

theorem restores_choice_of_hits {branches : List (Branch σ α)} {missed : α → Prop}
    (hits : ∀ branch ∈ branches, ∀ b s,
      branch.rule.Leads b s (fun a _ => ¬missed a) fun _ _ => True) :
    (choice branches).Restores missed :=
  restores_of_error (fun _ _ => leads_choice (leads_firstOf_value hits)) fun _ _ _ _ =>
    choice_error_offset

theorem restores_choice (branches : List (Branch σ α)) :
    (choice branches).Restores fun _ => False :=
  restores_choice_of_hits fun _ _ _ _ => leads_any

theorem restores_tryChoice (branches : List (Branch σ α)) :
    (tryChoice branches).Restores (· = none) :=
  Restores.recover ((restores_choice branches).imp fun _ => Option.some_ne_none _)

end Rule

def Symbol.isChoice : Symbol → Bool
  | declaration | anyType | complexType | primitiveType => true
  | string | pair | body | message | method => false

def Step.isAttempt : Step → Bool
  | char _ | tryChar _ | keyword _ | tryKeyword _ | choice _ | tryChoice _ => true
  | symbol production => production.isChoice
  | skipSpace | call _ | fail _ | peek | advance | skip _ | startsWith _ | position | mark _
  | rewind _ => false

open Rule

theorem Symbol.restores_rule (policy : Policy) {production : Symbol}
    (chooses : production.isChoice = true) :
    (production.rule policy).Restores (· = .nothing) := by
  cases production with
  | declaration | anyType | complexType =>
    exact (restores_choice _).map _ fun _ => Value.noConfusion
  | primitiveType => exact ((restores_choice _).map _ fun _ => id).map _ fun _ => Value.noConfusion
  | string | pair | body | message | method => cases chooses

namespace Program

variable (program : Program) (policy : Policy)

theorem leads_call (depth : Nat) (name : String) (b : Buffer) (s : State Bench) :
    (program.call policy depth name).Leads b s (fun value _ => ¬value = .nothing)
      fun _ _ => True := by
  cases depth with
  | zero => exact trivial
  | succ depth =>
    rw [call]
    split
    · refine leads_map (leads_of_results (fun values s' _ => ?_) fun _ _ _ => trivial)
      exact Value.noConfusion
    · exact trivial

theorem restores_step (depth : Nat) {attempt : Step} (attempts : attempt.isAttempt = true) :
    (step policy (program.call policy depth) attempt).Restores (· = .nothing) := by
  -- A rule that is called gives a row, so a choice between rules never gives nothing.
  have hits (rules : List String) : ∀ branch ∈ rules.map fun name =>
      (⟨name, program.call policy depth name⟩ : Branch Bench Value), ∀ b s,
      branch.rule.Leads b s (fun value _ => ¬value = .nothing) fun _ _ => True := by
    intro branch member
    obtain ⟨name, _, rfl⟩ := List.mem_map.1 member
    exact program.leads_call policy depth name
  cases attempt with
  | char spec => exact (restores_char spec).map _ fun _ => Value.noConfusion
  | keyword literals => exact (restores_keyword literals).map _ fun _ => Value.noConfusion
  | choice rules => exact restores_choice_of_hits (hits rules)
  | tryChar spec =>
    refine (restores_tryChar spec).map _ fun value missed => ?_
    cases value with
    | none => rfl
    | some c => cases missed
  | tryKeyword literals =>
    refine (restores_tryKeyword literals).map _ fun value missed => ?_
    cases value with
    | none => rfl
    | some text => cases missed
  | tryChoice rules =>
    exact (Restores.recover (restores_choice_of_hits (hits rules))).map _ fun _ => id
  | symbol chosen =>
    exact (chosen.restores_rule policy attempts).within Bench.declared fun declared bench =>
      { bench with declared }
  | skipSpace | call _ | fail _ | peek | advance | skip _ | startsWith _ | position | mark _
  | rewind _ => cases attempts

end Program

/-- Reading a character or a keyword and choosing between any rules leaves the offset as it was on
entry when it fails or, tried, gives nothing. So it is for these steps at any depth of any program.
-/
theorem failed_attempts_restore_offset (policy : Policy) :
    (∀ (σ : Type) (spec : Option String),
      (char spec : Rule σ Char).Restores (fun _ => False) ∧
        (tryChar spec : Rule σ (Option Char)).Restores (· = none)) ∧
    (∀ (σ : Type) (literals : List String),
      (keyword literals : Rule σ String).Restores (fun _ => False) ∧
        (tryKeyword literals : Rule σ (Option String)).Restores (· = none)) ∧
    (∀ (σ α : Type) (branches : List (Branch σ α)),
      (choice branches).Restores (fun _ => False) ∧ (tryChoice branches).Restores (· = none)) ∧
    (∀ production : Symbol, production.isChoice = true →
      (production.rule policy).Restores (· = .nothing)) ∧
    ∀ (program : Program) (depth : Nat) (attempt : Step), attempt.isAttempt = true →
      (Program.step policy (program.call policy depth) attempt).Restores (· = .nothing) :=
  ⟨fun _ spec => ⟨restores_char spec, restores_tryChar spec⟩,
    fun _ literals => ⟨restores_keyword literals, restores_tryKeyword literals⟩,
    fun _ _ branches => ⟨restores_choice branches, restores_tryChoice branches⟩,
    fun _ chooses => Symbol.restores_rule policy chooses,
    fun program depth _ attempts => program.restores_step policy depth attempts⟩

/-- A choice in front of a space, whose branch fails fatally two characters further on. -/
theorem failed_attempts_restore_offset_of_fatal_branch :
    let program : Program := ⟨[
      ("outer", [.char (some "a-z"), .choice ["inner", "outer"]]),
      ("inner", [.advance, .fail ⟨0, .internal "stop"⟩])]⟩
    let s : State Bench := (State.initial ⟨.nothing, []⟩).moveTo 1
    ∃ e s', Program.step .lenient (program.call .lenient 2) (.tryChoice ["outer"])
      (.ofText "a b c") s = (.error e, s') ∧ s'.offset = s.offset := by
  intro program s
  obtain ⟨_, _, _, _, restores⟩ := failed_attempts_restore_offset .lenient
  have back := restores program 2 (.tryChoice ["outer"]) rfl (.ofText "a b c") s
  have fails : (Program.step .lenient (program.call .lenient 2) (.tryChoice ["outer"])
    (.ofText "a b c") s).1.isOk = false := by decide +kernel
  match ran : Program.step .lenient (program.call .lenient 2) (.tryChoice ["outer"])
    (.ofText "a b c") s with
  | (.ok value, s') =>
    rw [ran] at fails
    cases fails
  | (.error e, s') => exact ⟨e, s', rfl, back.of_error ran⟩

end RpcSchema
