import RpcSchema.Program
import RpcSchema.Proofs.Selection

/-! Fatal failures. A step that fails fatally ends every rule, attempt and choice that it is part
of, however deep it is nested: the failure comes out as it was raised, and the state is the one in
which it was raised, but for the offset that choices set back. -/
namespace RpcSchema

namespace State

variable {σ τ : Type}

theorem foldl_moveTo_held (s : State σ) (marks : List Nat) :
    (marks.foldl moveTo s).held = s.held := by
  induction marks generalizing s with
  | nil => rfl
  | cons mark marks ih => exact ih (s.moveTo mark)

theorem foldl_moveTo_journal (s : State σ) (marks : List Nat) :
    (marks.foldl moveTo s).journal = s.journal := by
  induction marks generalizing s with
  | nil => rfl
  | cons mark marks ih => exact ih (s.moveTo mark)

theorem foldl_moveTo_holding (s : State τ) (value : σ) (marks : List Nat) :
    (marks.foldl moveTo s).holding value = marks.foldl moveTo (s.holding value) := by
  induction marks generalizing s with
  | nil => rfl
  | cons mark marks ih => exact ih (s.moveTo mark)

end State

namespace Rule

/-- A run of a rule comes to a step that fails fatally and leaves the state `u`. The step is the
rule itself or part of it: of a sequence whose rules before it have succeeded, of a rule that is
recovered from, or of a branch of a choice that has passed over the branches before it. -/
inductive Raises (b : Buffer) (e : Failure) :
    {σ α : Type} → Rule σ α → State σ → State σ → Prop where
  | self {σ α : Type} {r : Rule σ α} {s u : State σ} (ran : r b s = (.error e, u))
      (fatal : e.isFatal = true) : Raises b e r s u
  | first {σ α β : Type} {r : Rule σ α} (f : α → Rule σ β) {s u : State σ}
      (raises : Raises b e r s u) : Raises b e (r >>= f) s u
  | next {σ α β : Type} {r : Rule σ α} {f : α → Rule σ β} {s t u : State σ} {a : α}
      (ran : r b s = (.ok a, t)) (raises : Raises b e (f a) t u) : Raises b e (r >>= f) s u
  | recover {σ α : Type} {r : Rule σ α} {s u : State σ} (raises : Raises b e r s u) :
      Raises b e (Rule.recover r) s u
  | choice {σ α : Type} {before : List (Branch σ α)} {branch : Branch σ α}
      (after : List (Branch σ α)) {s t u : State σ} {misses : List Miss}
      (passes : PassesOver b (b.pastSpace s.offset) before s misses t)
      (raises : Raises b e branch.rule (t.moveTo (b.pastSpace s.offset)) u) :
      Raises b e (Rule.choice (before ++ branch :: after)) s u
  | within {σ τ α : Type} (get : τ → σ) (set : σ → τ → τ) {r : Rule σ α} {s : State τ}
      {u : State σ} (raises : Raises b e r (s.holding (get s.held)) u) :
      Raises b e (Rule.within get set r) s (u.holding (set u.held s.held))

variable {σ α β : Type} {b : Buffer} {e : Failure}

namespace Raises

theorem fatal {r : Rule σ α} {s u : State σ} (raises : Raises b e r s u) : e.isFatal = true := by
  induction raises with
  | self ran fatal => exact fatal
  | first _ _ ih | next _ _ ih | recover _ ih | choice _ _ _ ih | within _ _ _ ih => exact ih

/-- Whatever would have come after it, the run ends as the step that raised the failure did. -/
theorem ends {r : Rule σ α} {s u : State σ} (raises : Raises b e r s u) :
    ∃ marks : List Nat, r b s = (.error e, marks.foldl State.moveTo u) := by
  have fatal := raises.fatal
  induction raises with
  | self ran => exact ⟨[], ran⟩
  | first f raises ih =>
    obtain ⟨marks, ran⟩ := ih
    exact ⟨marks, bind_of_error ran⟩
  | next ran raises ih =>
    obtain ⟨marks, later⟩ := ih
    exact ⟨marks, (bind_of_ok ran).trans later⟩
  | recover raises ih =>
    obtain ⟨marks, ran⟩ := ih
    exact ⟨marks, by simp only [Rule.recover, ran, fatal, if_true]⟩
  | @choice _ _ before branch after s t u misses passes raises ih =>
    -- The choice sets the offset back in front of its own space, wherever the branch left it.
    obtain ⟨marks, ran⟩ := ih
    refine ⟨marks ++ [s.offset], ?_⟩
    rw [passes.choice_append, firstOf_cons_of_fatal ran fatal, List.foldl_append]
    rfl
  | within get set raises ih =>
    obtain ⟨marks, ran⟩ := ih
    exact ⟨marks, by simp only [Rule.within, ran, State.foldl_moveTo_holding,
      State.foldl_moveTo_held]⟩

theorem map {r : Rule σ α} {s u : State σ} (raises : Raises b e r s u) (g : α → β) :
    Raises b e (g <$> r) s u := raises.first _

end Raises

section Recoverable

variable {branches : List (Branch σ α)} {s t : State σ} {misses : List Miss}

theorem PassesOver.recoverable {start : Nat} (passes : PassesOver b start branches s misses t) :
    ∀ miss ∈ misses, miss.failure.isFatal = false := by
  induction passes with
  | nil s => exact fun _ member => absurd member List.not_mem_nil
  | cons branch ran recoverable later ih => exact List.forall_mem_cons.2 ⟨recoverable, ih⟩

theorem PassesOver.choice_recoverable (nonempty : branches ≠ [])
    (passes : PassesOver b (b.pastSpace s.offset) branches s misses t) :
    ∃ e, choice branches b s =
      (.error e, (t.moveTo (b.pastSpace s.offset)).moveTo s.offset) ∧ e.isFatal = false := by
  obtain ⟨best, kept, tallies⟩ := Furthest.exists_tallies (passes.misses_ne_nil nonempty)
  refine ⟨_, passes.choice_eq, ?_⟩
  rw [kept, Furthest.verdict]
  split
  · obtain ⟨miss, member, same⟩ := tallies.exists_miss
    exact same ▸ passes.recoverable miss member
  · rfl

end Recoverable

end Rule

open Rule

namespace Program

variable {program : Program} {policy : Policy} {b : Buffer}

def branches (program : Program) (policy : Policy) (depth : Nat) (names : List String) :
    List (Branch Bench Value) :=
  names.map fun name => ⟨name, program.call policy depth name⟩

theorem branches_append (program : Program) (policy : Policy) (depth : Nat) (before : List String)
    (name : String) (after : List String) :
    program.branches policy depth (before ++ name :: after) =
      program.branches policy depth before ++
        ⟨name, program.call policy depth name⟩ :: program.branches policy depth after := by
  rw [branches, List.map_append, List.map_cons]
  rfl

/-- Running a step starts a rule of the program: the step calls the rule, or it chooses between
rules and has passed over those before this one. -/
inductive Starts (program : Program) (policy : Policy) (b : Buffer) (depth : Nat) :
    Step → State Bench → String → State Bench → Prop where
  | call (name : String) (s : State Bench) : Starts program policy b depth (.call name) s name s
  | choice (before : List String) (name : String) (after : List String) {s t : State Bench}
      {misses : List Miss}
      (passes : PassesOver b (b.pastSpace s.offset) (program.branches policy depth before) s
        misses t) :
      Starts program policy b depth (.choice (before ++ name :: after)) s name
        (t.moveTo (b.pastSpace s.offset))
  | tryChoice (before : List String) (name : String) (after : List String) {s t : State Bench}
      {misses : List Miss}
      (passes : PassesOver b (b.pastSpace s.offset) (program.branches policy depth before) s
        misses t) :
      Starts program policy b depth (.tryChoice (before ++ name :: after)) s name
        (t.moveTo (b.pastSpace s.offset))

/-- Running a step comes to run another one: the step itself, or one that is reached from a step of
a rule that it starts, the steps before that one having succeeded. -/
inductive Reaches (program : Program) (policy : Policy) (b : Buffer) :
    Nat → Step → State Bench → Nat → Step → State Bench → Prop where
  | self (depth : Nat) (step : Step) (s : State Bench) :
      Reaches program policy b depth step s depth step s
  | inside (before : List Step) {next : Step} (after : List Step) {depth depth' : Nat}
      {outer inner : Step} {name : String} {values : List Value} {s t t' u : State Bench}
      (starts : Starts program policy b (depth + 1) outer s name t)
      (found : program.rules.lookup name = some (before ++ next :: after))
      (done : steps policy (program.call policy depth) before b t = (.ok values, t'))
      (later : Reaches program policy b depth next t' depth' inner u) :
      Reaches program policy b (depth + 1) outer s depth' inner u

theorem raises_steps {e : Failure} {call : String → Rule Bench Value} {before : List Step}
    {next : Step} (after : List Step) {values : List Value} {s t u : State Bench}
    (done : steps policy call before b s = (.ok values, t))
    (raises : Raises b e (step policy call next) t u) :
    Raises b e (steps policy call (before ++ next :: after)) s u := by
  induction before generalizing s values with
  | nil =>
    cases done
    exact raises.first _
  | cons first rest ih =>
    cases ran : step policy call first b s with
    | mk result s' =>
      cases result with
      | error e' =>
        rw [steps, bind_of_error ran] at done
        cases done
      | ok value =>
        rw [steps, bind_of_ok ran] at done
        cases more : steps policy call rest b s' with
        | mk result' s'' =>
          cases result' with
          | error e' =>
            rw [bind_of_error more] at done
            cases done
          | ok values' =>
            rw [bind_of_ok more] at done
            cases done
            exact .next ran ((ih more).first _)

theorem Starts.raises {depth : Nat} {outer : Step} {name : String} {s t u : State Bench}
    {e : Failure} (starts : Starts program policy b depth outer s name t)
    (raises : Raises b e (program.call policy depth name) t u) :
    Raises b e (step policy (program.call policy depth) outer) s u := by
  have chosen {before : List String} (after : List String) {misses : List Miss} {t : State Bench}
      (passes : PassesOver b (b.pastSpace s.offset) (program.branches policy depth before) s
        misses t)
      (raises : Raises b e (program.call policy depth name) (t.moveTo (b.pastSpace s.offset)) u) :
      Raises b e (Rule.choice (program.branches policy depth (before ++ name :: after))) s u := by
    rw [branches_append]
    exact .choice _ passes raises
  cases starts with
  | call name s => exact raises
  | choice before name after passes => exact chosen after passes raises
  | tryChoice before name after passes => exact (chosen after passes raises).recover.map _

theorem Reaches.raises {depth depth' : Nat} {outer inner : Step} {s t u : State Bench}
    {e : Failure} (reaches : Reaches program policy b depth outer s depth' inner t)
    (raises : Raises b e (step policy (program.call policy depth') inner) t u) :
    Raises b e (step policy (program.call policy depth) outer) s u := by
  induction reaches with
  | self depth step s => exact raises
  | inside before after starts found done later ih =>
    refine starts.raises ?_
    rw [call, found]
    exact (raises_steps after done (ih raises)).map Value.row

end Program

/-- A fatal failure that some step of a run raises is what the run ends in, in the state in which it
was raised except for the offset. A choice whose branches all fail recoverably fails recoverably. -/
theorem fatal_failure_ends_run (policy : Policy) (b : Buffer) :
    (∀ (σ α : Type) (r : Rule σ α) (s u : State σ) (e : Failure), Raises b e r s u →
      e.isFatal = true ∧ ∃ marks : List Nat, r b s = (.error e, marks.foldl State.moveTo u)) ∧
    (∀ (program : Program) (depth depth' : Nat) (outer inner : Step) (s t u : State Bench)
      (e : Failure), Program.Reaches program policy b depth outer s depth' inner t →
      Raises b e (Program.step policy (program.call policy depth') inner) t u →
      ∃ marks : List Nat, Program.step policy (program.call policy depth) outer b s =
        (.error e, marks.foldl State.moveTo u)) ∧
    ∀ (σ α : Type) (branches : List (Branch σ α)) (s t : State σ) (misses : List Miss),
      branches ≠ [] → PassesOver b (b.pastSpace s.offset) branches s misses t →
      ∃ e, choice branches b s =
        (.error e, (t.moveTo (b.pastSpace s.offset)).moveTo s.offset) ∧ e.isFatal = false :=
  ⟨fun _ _ _ _ _ _ raises => ⟨raises.fatal, raises.ends⟩,
    fun _ _ _ _ _ _ _ _ _ reaches raises => (reaches.raises raises).ends,
    fun _ _ _ _ _ _ nonempty passes => passes.choice_recoverable nonempty⟩

/-- A failure that is raised two rules below a choice that is tried in a branch of another one. -/
theorem fatal_failure_ends_run_of_nested_choices :
    let program : Program := ⟨[
      ("outer", [.tryKeyword ["("], .tryChoice ["inner", "other"], .advance]),
      ("inner", [.advance, .call "deep", .advance]),
      ("deep", [.fail ⟨7, .danglingComma none⟩]),
      ("other", [.advance])]⟩
    let run := Program.step .lenient (program.call .lenient 3) (.choice ["outer", "other"])
      (.ofText "ab") (.initial ⟨.nothing, []⟩)
    run.1 = .error ⟨7, .danglingComma none⟩ ∧ run.2.journal = [] := by
  intro program run
  have deep : Program.Reaches program .lenient (.ofText "ab") 1 (.call "deep")
      ((State.initial ⟨.nothing, []⟩).moveTo 1) 0 (.fail ⟨7, .danglingComma none⟩)
      ((State.initial ⟨.nothing, []⟩).moveTo 1) :=
    .inside [] [] (.call "deep" _) rfl rfl (.self 0 _ _)
  have inner : Program.Reaches program .lenient (.ofText "ab") 2 (.tryChoice ["inner", "other"])
      (.initial ⟨.nothing, []⟩) 0 (.fail ⟨7, .danglingComma none⟩)
      ((State.initial ⟨.nothing, []⟩).moveTo 1) :=
    .inside [.advance] [.advance] (.tryChoice [] "inner" ["other"] (.nil _)) rfl rfl deep
  have outer := Program.Reaches.inside [.tryKeyword ["("]] [.advance]
    (.choice [] "outer" ["other"] (.nil (.initial ⟨.nothing, []⟩))) rfl rfl inner
  obtain ⟨_, ends, _⟩ := fatal_failure_ends_run .lenient (.ofText "ab")
  obtain ⟨marks, ran⟩ := ends program 3 0 _ _ _ _ _ _ outer (.self rfl rfl)
  exact ⟨congrArg Prod.fst ran,
    (congrArg (fun ended => ended.2.journal) ran).trans (State.foldl_moveTo_journal _ marks)⟩

end RpcSchema
