import Mathlib.Data.List.Forall2
import RpcSchema.Proofs.Indifference

/-! What is compiled stays. The table of a run only grows, wherever it comes to: what a branch, a
rule or a row of steps has compiled is still there when those around it have ended, also when they
fail and the offset is set back. -/
namespace RpcSchema

/-- No class that is compiled in `s` is missing in `t`, and the table of `t` answers as compiling
afresh does. -/
structure State.Retains {σ τ : Type} (s : State σ) (t : State τ) : Prop where
  kept : s.classes <+: t.classes
  sound : t.classes.Sound

namespace State.Retains

variable {σ τ υ : Type} {s : State σ} {t : State τ} {u : State υ}

theorem refl (sound : s.classes.Sound) : s.Retains s := ⟨List.prefix_rfl, sound⟩

theorem trans (first : s.Retains t) (next : t.Retains u) : s.Retains u :=
  ⟨first.kept.trans next.kept, next.sound⟩

end State.Retains

namespace Rule

variable {σ α β : Type} {b : Buffer} {s t : State σ}

theorem Indifferent.retains {r : Rule σ α} (indifferent : r.Indifferent) (b : Buffer)
    (sound : s.classes.Sound) : s.Retains (r b s).2 := by
  obtain ⟨result, u, v, ran, _, met, grown⟩ := indifferent b s s (.refl sound)
  rw [ran]
  exact ⟨grown, met.sound⟩

theorem map_state (g : α → β) (r : Rule σ α) (b : Buffer) (s : State σ) :
    ((g <$> r) b s).2 = (r b s).2 := by
  change ((r >>= fun a => pure (g a)) b s).2 = _
  cases ran : r b s with
  | mk result u =>
    cases result with
    | ok a => rw [bind_of_ok ran]; rfl
    | error e => rw [bind_of_error ran]

theorem recover_state (r : Rule σ α) (b : Buffer) (s : State σ) :
    (Rule.recover r b s).2 = (r b s).2 := by
  unfold Rule.recover
  cases ran : r b s with
  | mk result u =>
    cases result with
    | ok a => rfl
    | error e =>
      dsimp only
      split <;> rfl

theorem PassesOver.retains {branches : List (Branch σ α)} {start : Nat} {misses : List Miss}
    (passes : PassesOver b start branches s misses t)
    (each : ∀ branch ∈ branches, branch.rule.Indifferent) (sound : s.classes.Sound) :
    s.Retains t := by
  induction passes with
  | nil s => exact .refl sound
  | @cons branch rest s s' t e misses ran recoverable later ih =>
    have ⟨first, others⟩ := List.forall_mem_cons.1 each
    have here := first.retains b (s := s.moveTo start) sound
    rw [ran] at here
    have rest := ih others here.sound
    exact ⟨here.kept.trans rest.kept, rest.sound⟩

theorem PassesOver.choice_retains {before after : List (Branch σ α)} {branch : Branch σ α}
    {misses : List Miss} (passes : PassesOver b (b.pastSpace s.offset) before s misses t)
    (each : ∀ other ∈ branch :: after, other.rule.Indifferent) (sound : t.classes.Sound) :
    (branch.rule b (t.moveTo (b.pastSpace s.offset))).2.Retains
      (choice (before ++ branch :: after) b s).2 := by
  have ⟨first, others⟩ := List.forall_mem_cons.1 each
  have compiled := (first.retains b (s := t.moveTo (b.pastSpace s.offset)) sound).sound
  rw [passes.choice_append]
  cases ran : branch.rule b (t.moveTo (b.pastSpace s.offset)) with
  | mk result u =>
    rw [ran] at compiled
    cases result with
    | ok a =>
      rw [firstOf_cons_of_ok ran]
      exact ⟨List.prefix_rfl, compiled⟩
    | error e =>
      cases fatal : e.isFatal with
      | true =>
        rw [firstOf_cons_of_fatal ran fatal]
        exact ⟨List.prefix_rfl, compiled⟩
      | false =>
        rw [firstOf_cons_of_recoverable ran fatal]
        have later := (indifferent_firstOf others s.offset
          (some (Furthest.add (misses.foldl Furthest.tally none) branch.name e))).retains b
          (s := (u.note (.branchFailed branch.name e.position)).moveTo (b.pastSpace s.offset))
          compiled
        exact ⟨later.kept, later.sound⟩

end Rule

namespace Program

open Rule

variable {program : Program} {policy : Policy} {b : Buffer}

theorem Starts.retains {depth : Nat} {outer : Step} {name : String} {s t : State Bench}
    (starts : Starts program policy b depth outer s name t) (sound : s.classes.Sound) :
    s.Retains t ∧ (program.call policy depth name b t).2.Retains
      (step policy (program.call policy depth) outer b s).2 := by
  have chosen {before : List String} (after : List String) {misses : List Miss} {t : State Bench}
      (passes : PassesOver b (b.pastSpace s.offset) (program.branches policy depth before) s
        misses t) :
      s.Retains t ∧ (program.call policy depth name b (t.moveTo (b.pastSpace s.offset))).2.Retains
        (Rule.choice (program.branches policy depth (before ++ name :: after)) b s).2 := by
    have passed := passes.retains (indifferent_branches program policy depth before) sound
    rw [branches_append]
    exact ⟨passed, passes.choice_retains
      (indifferent_branches program policy depth (name :: after)) passed.sound⟩
  cases starts with
  | call name s =>
    exact ⟨.refl sound, .refl ((indifferent_call program policy depth name).retains b sound).sound⟩
  | choice before name after passes =>
    have ⟨passed, outlived⟩ := chosen after passes
    exact ⟨⟨passed.kept, passed.sound⟩, outlived⟩
  | tryChoice before name after passes =>
    have ⟨passed, outlived⟩ := chosen after passes
    refine ⟨⟨passed.kept, passed.sound⟩, ?_⟩
    change State.Retains _ ((Value.ofOption id <$> Rule.recover (Rule.choice
      (program.branches policy depth (before ++ name :: after)))) b s).2
    rw [map_state, recover_state]
    exact outlived

theorem steps_retains {call : String → Rule Bench Value} (calls : ∀ name, (call name).Indifferent)
    {before : List Step} {next : Step} (after : List Step) {values : List Value}
    {s t : State Bench} (sound : t.classes.Sound)
    (done : steps policy call before b s = (.ok values, t)) :
    (step policy call next b t).2.Retains
      (steps policy call (before ++ next :: after) b s).2 := by
  -- The longer row runs the steps before `next` as the shorter one does, so both come to `t`.
  induction before generalizing s values with
  | nil =>
    cases done
    have compiled := (indifferent_step policy calls next).retains b sound
    rw [List.nil_append, steps]
    cases ran : step policy call next b t with
    | mk result u =>
      rw [ran] at compiled
      cases result with
      | error e =>
        rw [bind_of_error ran]
        exact .refl compiled.sound
      | ok value =>
        rw [bind_of_ok ran]
        exact ((indifferent_steps policy calls after).bind
          fun values => indifferent_pure (value :: values)).retains b compiled.sound
  | cons first rest ih =>
    rw [List.cons_append]
    cases ran : step policy call first b s with
    | mk result s' =>
      cases result with
      | error e' =>
        rw [steps, bind_of_error ran] at done
        cases done
      | ok value =>
        rw [steps, bind_of_ok ran] at done ⊢
        cases more : steps policy call rest b s' with
        | mk result' s'' =>
          cases result' with
          | error e' =>
            rw [bind_of_error more] at done
            cases done
          | ok values' =>
            rw [bind_of_ok more] at done
            cases done
            have later := ih more
            rwa [← map_state (fun values => value :: values)] at later

/-- Wherever a run comes to on its way, nothing that was compiled before is lost, and what is
compiled there is still there when the run has ended. -/
theorem Reaches.retains {depth depth' : Nat} {outer inner : Step} {s u : State Bench}
    (reaches : Reaches program policy b depth outer s depth' inner u) (sound : s.classes.Sound) :
    s.Retains u ∧ (step policy (program.call policy depth') inner b u).2.Retains
      (step policy (program.call policy depth) outer b s).2 := by
  induction reaches with
  | self depth step s =>
    have calls := indifferent_call program policy depth
    have ran := (indifferent_step policy calls step).retains b sound
    exact ⟨.refl sound, .refl ran.sound⟩
  | @inside before next after depth depth' outer inner name values s t t' u starts found done
      later ih =>
    have calls := indifferent_call program policy depth
    have ⟨started, outlived⟩ := starts.retains sound
    have arrived := (indifferent_steps policy calls before).retains b started.sound
    rw [done] at arrived
    have ⟨reached, kept⟩ := ih arrived.sound
    refine ⟨(started.trans arrived).trans reached, (kept.trans ?_).trans outlived⟩
    rw [call, found, map_state]
    exact steps_retains calls after arrived.sound done

variable (program policy b)

theorem trail_retains (depth : Nat) (row : List Step) {s : State Bench} (sound : s.classes.Sound) :
    (∀ entry ∈ program.trail policy depth b row s, s.Retains entry.2) ∧
      (program.trail policy depth b row s).Pairwise fun earlier later =>
        earlier.2.Retains later.2 := by
  induction row generalizing s with
  | nil => exact ⟨fun _ member => absurd member List.not_mem_nil, List.Pairwise.nil⟩
  | cons first rest ih =>
    have calls := indifferent_call program policy depth
    have here := (indifferent_step policy calls first).retains b sound
    have ⟨each, ordered⟩ := ih here.sound
    exact ⟨List.forall_mem_cons.2 ⟨here, fun entry member => here.trans (each entry member)⟩,
      List.Pairwise.cons each ordered⟩

theorem trail_twins (depth : Nat) (row : List Step) {s t : State Bench} (twin : s.Twin t) :
    List.Forall₂ (fun x y => x.1 = y.1 ∧ x.2.Twin y.2) (program.trail policy depth b row s)
      (program.trail policy depth b row t) := by
  induction row generalizing s t with
  | nil => exact .nil
  | cons first rest ih =>
    obtain ⟨result, u, v, ran, ran', met, _⟩ :=
      indifferent_step policy (indifferent_call program policy depth) first b s t twin
    simp only [trail, ran, ran']
    exact .cons ⟨rfl, met⟩ (ih met)

end Program

/-- The classes compiled so far are never seen: every state that a run comes to has a table that
answers as compiling afresh does, and runs from states that differ in nothing but such tables have
the same results. Classes are only added, also by what is given up. -/
theorem class_table_is_invisible (program : Program) (policy : Policy) (b : Buffer) :
    (∀ table : ClassTable, table.Sound →
      (∀ spec set, table.find spec = some set → CharClass.compile spec = .ok set) ∧
      (∀ spec bad, CharClass.compile spec = .error bad → table.find spec = none) ∧
      ∀ specs, (table.fetchAll specs).1 = specs.map CharClass.compile) ∧
    (∀ bench, (State.initial bench : State Bench).classes.Sound) ∧
    (∀ depth row (s : State Bench), s.classes.Sound →
      (∀ entry ∈ program.trail policy depth b row s, s.Retains entry.2) ∧
      (program.trail policy depth b row s).Pairwise fun earlier later =>
        earlier.2.Retains later.2) ∧
    (∀ depth depth' outer inner s u, s.classes.Sound →
      Program.Reaches program policy b depth outer s depth' inner u →
      s.Retains u ∧
      u.Retains (Program.step policy (program.call policy depth') inner b u).2 ∧
      (Program.step policy (program.call policy depth') inner b u).2.Retains
        (Program.step policy (program.call policy depth) outer b s).2) ∧
    (∀ depth row (s t : State Bench), s.Twin t →
      List.Forall₂ (fun x y => x.1 = y.1 ∧ x.2.Twin y.2) (program.trail policy depth b row s)
        (program.trail policy depth b row t)) ∧
    ∀ s t : State Declared, s.Twin t →
      (Grammar.source policy b s).1 = (Grammar.source policy b t).1 ∧
        (Grammar.source policy b s).2.Twin (Grammar.source policy b t).2 := by
  refine ⟨fun table sound => ⟨fun spec set => ClassTable.compile_of_find sound,
      fun spec bad => ClassTable.find_eq_none_of_refused sound,
      fun specs => (ClassTable.fetchAll_eq_map sound specs).1⟩,
    fun bench => ClassTable.sound_nil,
    fun depth row s sound => Program.trail_retains program policy b depth row sound,
    fun depth depth' outer inner s u sound reaches => ?_,
    fun depth row s t twin => Program.trail_twins program policy b depth row twin,
    fun s t twin => ?_⟩
  · have ⟨arrived, outlived⟩ := reaches.retains sound
    have calls := Program.indifferent_call program policy depth'
    exact ⟨arrived, (Program.indifferent_step policy calls inner).retains b arrived.sound, outlived⟩
  · obtain ⟨result, u, v, ran, ran', met, _⟩ := Rule.closed_indifferent.source policy b s t twin
    rw [ran, ran']
    exact ⟨rfl, met⟩

/-- The class of a branch that is given up stays behind. A run that has it from the start ends as
one that has compiled nothing before. -/
theorem class_table_is_invisible_of_abandoned_branch :
    let program : Program := ⟨[("digit", [.char (some "0-9")]), ("letter", [.char (some "a-z")])]⟩
    let choose := Step.choice ["digit", "letter"]
    let digits : CharClass := ⟨"0-9", [.range '0' '9']⟩
    let fresh : State Bench := .initial ⟨.nothing, []⟩
    let used : State Bench := fresh.withClasses [digits]
    CharClass.compile "0-9" = .ok digits ∧ ClassTable.find [digits] "9-0" = none ∧
      digits ∈ (Program.step .lenient (program.call .lenient 1) choose (.ofText "ab")
        fresh).2.classes ∧
      (∀ entry ∈ program.trail .lenient 1 (.ofText "ab") [choose, choose] fresh,
        entry.2.classes.Sound) ∧
      List.Forall₂ (fun x y => x.1 = y.1 ∧ x.2.Twin y.2)
        (program.trail .lenient 1 (.ofText "ab") [choose, choose] fresh)
        (program.trail .lenient 1 (.ofText "ab") [choose, choose] used) ∧
      (Grammar.source .lenient (.ofText "ab") (.initial .nothing)).1 =
        (Grammar.source .lenient (.ofText "ab")
          ((State.initial .nothing).withClasses [digits])).1 := by
  intro program choose digits fresh used
  obtain ⟨tables, initial, along, reaches, twins, grammar⟩ :=
    class_table_is_invisible program .lenient (.ofText "ab")
  have compiles : CharClass.compile "0-9" = .ok digits := rfl
  have sound : ClassTable.Sound [digits] := fun set member => by
    rw [List.mem_singleton.1 member]
    exact compiles
  have tried : Program.Reaches program .lenient (.ofText "ab") 1 choose fresh
      0 (.char (some "0-9")) fresh :=
    .inside [] [] (.choice [] "digit" ["letter"] (.nil fresh)) rfl rfl (.self 0 _ _)
  obtain ⟨_, _, outlived⟩ := reaches 1 0 choose _ fresh fresh (initial _) tried
  have compiled : (Program.step .lenient (program.call .lenient 0) (.char (some "0-9"))
      (.ofText "ab") fresh).2.classes = [digits] := rfl
  have left : digits ∈ (Program.step .lenient (program.call .lenient 1) choose (.ofText "ab")
      fresh).2.classes := by
    apply outlived.kept.subset
    rw [compiled]
    exact List.mem_singleton_self digits
  obtain ⟨_, refused, _⟩ := tables [digits] sound
  obtain ⟨same, _⟩ := grammar (.initial .nothing) ((State.initial .nothing).withClasses [digits])
    ⟨rfl, rfl, rfl, rfl, ClassTable.sound_nil, sound⟩
  exact ⟨compiles, refused "9-0" ⟨"9-0", '9', '0'⟩ rfl, left,
    fun entry member => ((along 1 _ fresh (initial _)).1 entry member).sound,
    twins 1 _ fresh used ⟨rfl, rfl, rfl, rfl, ClassTable.sound_nil, sound⟩, same⟩

end RpcSchema
