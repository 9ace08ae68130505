import RpcSchema.Proofs.Atomicity
import RpcSchema.Proofs.Closure
import RpcSchema.Proofs.Commitment
import RpcSchema.Proofs.Progress

/-! Where the offset can be while a rule runs. The state keeps the greatest offset that there has
been, marks that it was set back to included, so a rule that ends with this greatest offset inside
the buffer has never left the buffer, however deep its choices are nested and however often they set
it back. A failure of such a rule lies between where it was called and the end of the buffer. -/
namespace RpcSchema

/-- What becomes of the offset in a run from `s` to `t` that never leaves the buffer. What has been
reached is never forgotten, and nothing behind the end has been reached but what was before. -/
structure State.Confined {σ τ : Type} (b : Buffer) (s : State σ) (t : State τ) : Prop where
  grown : s.reach ≤ t.reach
  reach_le : t.reach ≤ max s.reach b.size
  le_size : t.offset ≤ b.size

namespace State.Confined

variable {σ τ υ : Type} {b : Buffer} {s : State σ} {t : State τ} {u : State υ}

theorem of_eq (inside : s.offset ≤ b.size) (offset_eq : t.offset = s.offset)
    (reach_eq : t.reach = s.reach) : Confined b s t :=
  ⟨Nat.le_of_eq reach_eq.symm, reach_eq ▸ Nat.le_max_left _ _, offset_eq ▸ inside⟩

theorem refl (inside : s.offset ≤ b.size) : Confined b s s := of_eq inside rfl rfl

theorem trans (first : Confined b s t) (next : Confined b t u) : Confined b s u :=
  ⟨Nat.le_trans first.grown next.grown,
    Nat.le_trans next.reach_le (Nat.max_le.2 ⟨first.reach_le, Nat.le_max_right _ _⟩), next.le_size⟩

theorem moveTo (confined : Confined b s t) {n : Nat} (inside : n ≤ b.size) :
    Confined b s (t.moveTo n) :=
  ⟨Nat.le_trans confined.grown (Nat.le_max_left _ _),
    Nat.max_le.2 ⟨confined.reach_le, Nat.le_trans inside (Nat.le_max_right _ _)⟩, inside⟩

theorem pastSpace (confined : Confined b s t) : Confined b s (t.moveTo (b.pastSpace t.offset)) :=
  confined.moveTo (b.pastSpace_le confined.le_size)

theorem reach_le_size (confined : Confined b s t) (inside : s.reach ≤ b.size) :
    t.reach ≤ b.size :=
  Nat.le_trans confined.reach_le (Nat.max_le.2 ⟨inside, Nat.le_refl _⟩)

end State.Confined

namespace Rule

variable {σ τ α β : Type} {b : Buffer}

/-- Entered inside the buffer with what fits, a rule is confined to the buffer and leaves what
fits. -/
def Stays (fits : Buffer → σ → Prop) (r : Rule σ α) : Prop :=
  ∀ b s, s.offset ≤ b.size → fits b s.held →
    State.Confined b s (r b s).2 ∧ fits b (r b s).2.held

theorem Keeps.held_eq {r : Rule σ α} (keeps : r.Keeps) (b : Buffer) (s : State σ) :
    (r b s).2.held = s.held := by
  cases ran : r b s with
  | mk result s' =>
    cases result with
    | ok a => exact (keeps b s).of_ok ran
    | error e => exact (keeps b s).of_error ran

section

variable {fits : Buffer → σ → Prop} {r : Rule σ α} {f : α → Rule σ β}

theorem stays_of_keeps (keeps : r.Keeps)
    (confined : ∀ b s, s.offset ≤ b.size → State.Confined b s (r b s).2) : r.Stays fits :=
  fun b s inside fit => ⟨confined b s inside, (keeps.held_eq b s).symm ▸ fit⟩

theorem stays_of_still
    (still : ∀ b s, (r b s).2.offset = s.offset ∧ (r b s).2.reach = s.reach)
    (kept : ∀ b s, s.offset ≤ b.size → fits b s.held → fits b (r b s).2.held) : r.Stays fits :=
  fun b s inside fit => ⟨.of_eq inside (still b s).1 (still b s).2, kept b s inside fit⟩

theorem stays_pure (a : α) : (pure a : Rule σ α).Stays fits :=
  stays_of_still (fun _ _ => ⟨rfl, rfl⟩) fun _ _ _ => id

theorem stays_offset : (offset : Rule σ Nat).Stays fits :=
  stays_of_still (fun _ _ => ⟨rfl, rfl⟩) fun _ _ _ => id

theorem stays_position : (position : Rule σ Int).Stays fits :=
  stays_of_still (fun _ _ => ⟨rfl, rfl⟩) fun _ _ _ => id

theorem stays_startsWith (literal : String) : (startsWith literal : Rule σ Bool).Stays fits :=
  stays_of_still (fun _ _ => ⟨rfl, rfl⟩) fun _ _ _ => id

theorem stays_unread : (unread : Rule σ Nat).Stays fits :=
  stays_of_still (fun _ _ => ⟨rfl, rfl⟩) fun _ _ _ => id

theorem stays_peek : (peek : Rule σ (Option Char)).Stays fits :=
  stays_of_still (fun _ _ => ⟨rfl, rfl⟩) fun _ _ _ => id

theorem stays_held : (held : Rule σ σ).Stays fits :=
  stays_of_still (fun _ _ => ⟨rfl, rfl⟩) fun _ _ _ => id

theorem stays_fail (e : Failure) : (fail e : Rule σ α).Stays fits :=
  stays_of_still (fun _ _ => ⟨rfl, rfl⟩) fun _ _ _ => id

theorem stays_note (event : Event) : (note event : Rule σ Unit).Stays fits :=
  stays_of_still (fun _ _ => ⟨rfl, rfl⟩) fun _ _ _ => id

theorem stays_skipSpace : (skipSpace : Rule σ Unit).Stays fits :=
  stays_of_keeps keeps_skipSpace fun _ _ inside => (State.Confined.refl inside).pastSpace

theorem stays_advance : (advance : Rule σ (Option Char)).Stays fits := by
  refine stays_of_keeps (keeps_of_held fun b s => ?_) fun b s inside => ?_
  · unfold advance
    split <;> rfl
  · unfold advance
    split
    · next found => exact (State.Confined.refl inside).moveTo (Buffer.lt_size_of_get? found)
    · exact .refl inside

theorem stays_skip (count : Nat) : (skip count : Rule σ Unit).Stays fits :=
  stays_of_keeps (fun _ _ => rfl) fun _ _ inside =>
    (State.Confined.refl inside).moveTo (Nat.min_le_right _ _)

theorem confined_char (spec : Option String) {s : State σ} (inside : s.offset ≤ b.size) :
    State.Confined b s (char spec b s).2 := by
  have compiled (classes : ClassTable) : State.Confined b s (s.withClasses classes) :=
    .of_eq inside rfl rfl
  unfold char
  split
  · exact .refl inside
  · next c found =>
    have further : s.offset + 1 ≤ b.size := Buffer.lt_size_of_get? found
    split
    · exact (State.Confined.refl inside).moveTo further
    · split
      · exact .refl inside
      · dsimp only
        split
        · exact (compiled _).moveTo further
        · exact compiled _

theorem stays_char (spec : Option String) : (char spec : Rule σ Char).Stays fits :=
  stays_of_keeps (keeps_char spec) fun _ _ => confined_char spec

theorem confined_keyword (literals : List String) {s : State σ} (inside : s.offset ≤ b.size) :
    State.Confined b s (keyword literals b s).2 := by
  have start := b.pastSpace_le inside
  have back : State.Confined b s (s.backFrom (b.pastSpace s.offset)) :=
    ((State.Confined.refl inside).moveTo start).moveTo inside
  rcases keyword_cases literals b s with ⟨_, ran⟩ | ran | ⟨literal, _, stands, ran⟩
  · rwa [ran]
  · rwa [ran]
  · rw [ran]
    have behind := Buffer.size_le_of_holds stands start
    rw [String.length_toList] at behind
    exact (State.Confined.refl inside).moveTo (b.pastSpace_le behind)

theorem stays_keyword (literals : List String) : (keyword literals : Rule σ String).Stays fits :=
  stays_of_keeps (keeps_keyword literals) fun _ _ => confined_keyword literals

theorem stays_tryKeyword (literals : List String) :
    (tryKeyword literals : Rule σ (Option String)).Stays fits := by
  refine stays_of_keeps (keeps_tryKeyword literals) fun b s inside => ?_
  have confined := confined_keyword literals inside
  unfold tryKeyword
  split
  · next ran => rwa [ran] at confined
  · next ran => rwa [ran] at confined

theorem Stays.bind (stays : r.Stays fits) (next : ∀ a, (f a).Stays fits) :
    (r >>= f).Stays fits := by
  intro b s inside fit
  have ⟨confined, left⟩ := stays b s inside fit
  cases ran : r b s with
  | mk result t =>
    rw [ran] at confined left
    cases result with
    | ok a =>
      rw [bind_of_ok ran]
      have ⟨later, last⟩ := next a b t confined.le_size left
      exact ⟨confined.trans later, last⟩
    | error e =>
      rw [bind_of_error ran]
      exact ⟨confined, left⟩

theorem Stays.map (stays : r.Stays fits) (g : α → β) : (g <$> r).Stays fits :=
  stays.bind fun a => stays_pure (g a)

theorem Stays.recover (stays : r.Stays fits) : (Rule.recover r).Stays fits := by
  intro b s inside fit
  have met := stays b s inside fit
  unfold Rule.recover
  split
  · next ran => rwa [ran] at met
  · next ran =>
    rw [ran] at met
    split <;> exact met

theorem PassesOver.stays {branches : List (Branch σ α)}
    (each : ∀ branch ∈ branches, branch.rule.Stays fits) {start : Nat} {s t : State σ}
    {misses : List Miss} (passes : PassesOver b start branches s misses t) (inside : start ≤ b.size)
    (entered : s.offset ≤ b.size) (fit : fits b s.held) :
    State.Confined b s t ∧ fits b t.held := by
  induction passes with
  | nil s => exact ⟨.refl entered, fit⟩
  | @cons branch rest s s' t e misses ran recoverable later ih =>
    have ⟨first, others⟩ := List.forall_mem_cons.1 each
    have ⟨tried, left⟩ := first b (s.moveTo start) inside fit
    rw [ran] at tried left
    have ⟨after, last⟩ := ih others tried.le_size left
    -- The next branch starts from where this one has left, and is set back to `start` first.
    have noted : State.Confined b s (s'.note (.branchFailed branch.name e.position)) :=
      ((State.Confined.refl entered).moveTo inside).trans
        (tried.trans (.of_eq tried.le_size rfl rfl))
    exact ⟨noted.trans after, last⟩

theorem stays_choice {branches : List (Branch σ α)}
    (each : ∀ branch ∈ branches, branch.rule.Stays fits) : (choice branches).Stays fits := by
  intro b s inside fit
  have start : b.pastSpace s.offset ≤ b.size := b.pastSpace_le inside
  rcases passesOver_or b (b.pastSpace s.offset) branches s with
    ⟨misses, t, passes⟩ | ⟨before, branch, after, misses, t, rfl, passes, settles⟩
  · have ⟨confined, left⟩ := passes.stays each start inside fit
    rw [passes.choice_eq]
    -- Once more the offset is set back behind the space, and then in front of it.
    exact ⟨(confined.moveTo start).moveTo inside, left⟩
  · have ⟨passed, left⟩ := passes.stays
      (fun other member => each other (List.mem_append_left _ member)) start inside fit
    have ⟨tried, last⟩ := each branch (by simp) b (t.moveTo (b.pastSpace s.offset)) start left
    have confined := (passed.moveTo start).trans tried
    rw [passes.choice_append]
    cases ran : branch.rule b (t.moveTo (b.pastSpace s.offset)) with
    | mk result u =>
      rw [ran] at confined last
      cases result with
      | ok value =>
        rw [firstOf_cons_of_ok ran]
        exact ⟨confined.pastSpace, last⟩
      | error e =>
        rw [firstOf_cons_of_fatal ran (settles e (congrArg Prod.fst ran))]
        exact ⟨confined.moveTo inside, last⟩

end

end Rule

namespace Grammar

open Rule

abbrev Steady {α : Type} (r : Production α) : Prop := r.Stays fun _ _ => True

theorem closed_steady : Closed fun {α} (r : Production α) => Steady r where
  pure := stays_pure
  bind := Stays.bind
  recover := Stays.recover
  choice := stays_choice
  fail := stays_fail
  char := stays_char
  keyword := stays_keyword
  tryKeyword := stays_tryKeyword
  skipSpace := stays_skipSpace
  peek := stays_peek
  offset := stays_offset
  unread := stays_unread
  held := stays_held
  setHeld := fun _ => stays_of_still (fun _ _ => ⟨rfl, rfl⟩) fun _ _ _ => id
  note := stays_note

theorem steady_identifier : Steady identifier := closed_steady.identifier

theorem steady_refuseBrace : Steady refuseBrace := closed_steady.refuseBrace

theorem steady_reference (role : Role) : Steady (reference role) := closed_steady.reference role

theorem steady_source (policy : Policy) : Steady (source policy) := closed_steady.source policy

end Grammar

theorem Symbol.steady_rule (policy : Policy) (production : Symbol) :
    Grammar.Steady (production.rule policy) := Grammar.closed_steady.symbol policy production

namespace Program

open Rule

def MarksInside (b : Buffer) (bench : Bench) : Prop := ∀ mark ∈ bench.marks, mark.2 ≤ b.size

/-- Neither the offset nor a mark has been behind the end of the buffer, and no mark that is kept
is. -/
structure InBounds (b : Buffer) (s : State Bench) : Prop where
  reach_le : s.reach ≤ b.size
  marks : MarksInside b s.held

theorem inBounds_initial (b : Buffer) (declared : Declared) :
    InBounds b (.initial ⟨declared, []⟩) :=
  ⟨Nat.zero_le _, fun _ member => absurd member List.not_mem_nil⟩

theorem InBounds.le_size {b : Buffer} {s : State Bench} (inBounds : InBounds b s) :
    s.offset ≤ b.size := Nat.le_trans s.le_reach inBounds.reach_le

theorem stays_production {α : Type} {r : Rule Declared α} (steady : Grammar.Steady r) :
    (production r).Stays MarksInside := by
  intro b s inside marks
  have ⟨confined, _⟩ := steady b (s.holding s.held.declared) inside trivial
  exact ⟨⟨confined.grown, confined.reach_le, confined.le_size⟩, marks⟩

theorem stays_broken {α : Type} (reason : String) :
    (broken reason : Rule Bench α).Stays MarksInside :=
  stays_offset.bind fun _ => stays_fail _

theorem stays_setMark (name : String) : (setMark name).Stays MarksInside :=
  stays_of_still (fun _ _ => ⟨rfl, rfl⟩) fun _ _ inside marks =>
    List.forall_mem_cons.2 ⟨inside, marks⟩

theorem marked_le {b : Buffer} {bench : Bench} (marks : MarksInside b bench) {name : String}
    {mark : Nat} (found : bench.marks.lookup name = some mark) : mark ≤ b.size := by
  obtain ⟨before, after, held, _⟩ := List.lookup_eq_some_iff.1 found
  exact marks (name, mark) (by simp [held])

theorem stays_rewind (name : String) : (rewind name).Stays MarksInside := by
  intro b s inside marks
  unfold rewind
  rw [bind_of_ok (rfl : held b s = (.ok s.held, s))]
  cases found : s.held.marks.lookup name with
  | none => exact stays_broken ("no mark named " ++ name) b s inside marks
  | some mark =>
    exact ⟨(State.Confined.refl inside).moveTo (marked_le marks found), marks⟩

variable {policy : Policy} {call : String → Rule Bench Value}

theorem stays_step (calls : ∀ name, (call name).Stays MarksInside) (next : Step) :
    (step policy call next).Stays MarksInside := by
  have branches (rules : List String) :
      ∀ branch ∈ rules.map fun name => (⟨name, call name⟩ : Branch Bench Value),
        branch.rule.Stays MarksInside :=
    List.forall_mem_map.2 fun name _ => calls name
  cases next with
  | char spec => exact (stays_char spec).map _
  | tryChar spec => exact (stays_char spec).recover.map _
  | skipSpace => exact stays_skipSpace.map _
  | keyword literals => exact (stays_keyword literals).map _
  | tryKeyword literals => exact (stays_tryKeyword literals).map _
  | choice rules => exact stays_choice (branches rules)
  | tryChoice rules => exact (stays_choice (branches rules)).recover.map _
  | call rule => exact calls rule
  | fail failure => exact stays_fail failure
  | symbol production => exact stays_production (production.steady_rule policy)
  | peek => exact stays_peek.map _
  | advance => exact stays_advance.map _
  | skip count => exact (stays_skip count).map _
  | startsWith literal => exact (stays_startsWith literal).map _
  | position => exact stays_position.map _
  | mark name => exact stays_setMark name
  | rewind name => exact stays_rewind name

theorem stays_steps (calls : ∀ name, (call name).Stays MarksInside) (row : List Step) :
    (steps policy call row).Stays MarksInside := by
  induction row with
  | nil => exact stays_pure []
  | cons first rest ih =>
    exact (stays_step calls first).bind fun value => ih.bind fun values => stays_pure _

variable (program : Program) (policy : Policy)

theorem stays_call (depth : Nat) (name : String) :
    (program.call policy depth name).Stays MarksInside := by
  induction depth generalizing name with
  | zero => exact stays_broken _
  | succ depth ih =>
    unfold Program.call
    split
    · next body found => exact (stays_steps ih body).map _
    · exact stays_broken _

variable {program policy} {b : Buffer}

namespace InBounds

variable {s t : State Bench} {depth : Nat}

theorem confined_step (inBounds : InBounds b s) (depth : Nat) (next : Step) :
    State.Confined b s (step policy (program.call policy depth) next b s).2 :=
  (stays_step (stays_call program policy depth) next b s inBounds.le_size inBounds.marks).1

theorem after {α : Type} {r : Rule Bench α} (stays : r.Stays MarksInside)
    (inBounds : InBounds b s) : InBounds b (r b s).2 :=
  have ⟨confined, marks⟩ := stays b s inBounds.le_size inBounds.marks
  ⟨confined.reach_le_size inBounds.reach_le, marks⟩

theorem of_trail (inBounds : InBounds b s) (row : List Step) :
    ∀ entry ∈ program.trail policy depth b row s, InBounds b entry.2 := by
  induction row generalizing s with
  | nil => exact fun _ member => absurd member List.not_mem_nil
  | cons first rest ih =>
    have stays : (step policy (program.call policy depth) first).Stays MarksInside :=
      stays_step (stays_call program policy depth) first
    have next := inBounds.after stays
    exact List.forall_mem_cons.2 ⟨next, ih next⟩

theorem of_starts {outer : Step} {name : String}
    (starts : Starts program policy b depth outer s name t) (inBounds : InBounds b s) :
    InBounds b t := by
  have start : b.pastSpace s.offset ≤ b.size := b.pastSpace_le inBounds.le_size
  have behind {before : List String} {misses : List Miss} {t : State Bench}
      (passes : PassesOver b (b.pastSpace s.offset) (program.branches policy depth before) s
        misses t) : InBounds b (t.moveTo (b.pastSpace s.offset)) :=
    have each : ∀ branch ∈ program.branches policy depth before,
        branch.rule.Stays MarksInside :=
      List.forall_mem_map.2 fun name _ => stays_call program policy depth name
    have ⟨confined, marks⟩ := passes.stays each start inBounds.le_size inBounds.marks
    ⟨(confined.moveTo start).reach_le_size inBounds.reach_le, marks⟩
  cases starts with
  | call name s => exact inBounds
  | choice before name after passes => exact behind passes
  | tryChoice before name after passes => exact behind passes

theorem of_reaches {depth' : Nat} {outer inner : Step} {u : State Bench}
    (reaches : Reaches program policy b depth outer s depth' inner u) (inBounds : InBounds b s) :
    InBounds b u := by
  induction reaches with
  | self depth step s => exact inBounds
  | @inside before _ _ depth _ _ _ _ _ _ _ _ _ starts found done later ih =>
    have stays : (steps policy (program.call policy depth) before).Stays MarksInside :=
      stays_steps (stays_call program policy depth) before
    have left := (inBounds.of_starts starts).after stays
    rw [done] at left
    exact ih left

end InBounds

end Program

/-- What a failure says was found, `none` being the end of the input. -/
def Cause.found? : Cause → Option (Option Char)
  | .wrongChar _ found => some (some found)
  | .noBranch _ found | .danglingComma found => some found
  | .endOfInput _ | .wrongKeyword _ | .badRange _ | .undefinedMessage _ _ | .duplicateMessage _
  | .alreadySpent | .internal _ => none

/-- The failure lies between `o` and the end of the buffer, and at the end when it is for want of
input. What it says was found stands at its position, and that is nothing at the end only. -/
structure Failure.Pinned (e : Failure) (b : Buffer) (o : Nat) : Prop where
  le_position : o ≤ e.position
  le_size : e.position ≤ b.size
  ends : ∀ expected, e.cause = .endOfInput expected → e.position = b.size
  stands : ∀ found, e.cause.found? = some found →
    b.get? e.position = found ∧ (found = none ↔ e.position = b.size)

theorem Failure.LiesIn.pinned {e : Failure} {b : Buffer} {o : Nat} (lies : e.LiesIn b o) :
    e.Pinned b o := by
  obtain ⟨position, cause⟩ := e
  obtain ⟨le_position, le_size, fromText⟩ := lies
  refine ⟨le_position, le_size, fun expected wants => ?_, fun found tells => ?_⟩
  · cases wants
    exact fromText
  · have stands : b.get? position = found := by
      cases cause with
      | wrongChar expected c | noBranch rules c | danglingComma c =>
        cases tells
        exact fromText
      | _ => cases tells
    rw [← stands, b.get?_eq_none_iff]
    exact ⟨rfl, fun past => Nat.le_antisymm le_size past, fun same => Nat.le_of_eq same.symm⟩

/-- Called inside the buffer, the rule never leaves it, and a failure of it is pinned between where
it was called and the end. -/
def Rule.Pins {σ α : Type} (b : Buffer) (r : Rule σ α) : Prop :=
  ∀ s, s.offset ≤ b.size → State.Confined b s (r b s).2 ∧
    ∀ e s', r b s = (.error e, s') → e.Pinned b s.offset

theorem Rule.Takes.pins {α : Type} {r : Rule Declared α} {n : Nat} (takes : r.Takes n)
    (steady : Grammar.Steady r) (b : Buffer) : r.Pins b := by
  intro s inside
  refine ⟨(steady b s inside trivial).1, fun e s' ran => ?_⟩
  exact ((takes b s inside).of_error ran).2.pinned

theorem Symbol.pins (policy : Policy) (production : Symbol) (b : Buffer) :
    (production.rule policy).Pins b :=
  (production.takes_rule policy).pins (production.steady_rule policy) b

theorem Program.pinned_of_symbol {policy : Policy} {call : String → Rule Bench Value} {b : Buffer}
    {s s' : State Bench} {production : Symbol} {e : Failure} (inside : s.offset ≤ b.size)
    (ran : step policy call (.symbol production) b s = (.error e, s')) : e.Pinned b s.offset := by
  have raised : (production.rule policy b (s.holding s.held.declared)).1 = .error e :=
    congrArg Prod.fst ran
  exact ((production.pins policy b) (s.holding s.held.declared) inside).2 e _ (Prod.ext raised rfl)

open Grammar in
/-- Wherever a production is called in a buffer, nothing in its run leaves the buffer, and a failure
lies between there and the end and says rightly what stands there. So it is for whole sources and in
programs, with every mark that they set the offset back to. -/
theorem failures_are_pinned (policy : Policy) (b : Buffer) :
    (∀ production : Symbol, (production.rule policy).Pins b) ∧
    identifier.Pins b ∧ (∀ role, (reference role).Pins b) ∧ refuseBrace.Pins b ∧
    (source policy).Pins b ∧
    (∀ declared, Program.InBounds b (.initial ⟨declared, []⟩)) ∧
    ∀ (program : Program) (depth : Nat) (s : State Bench), Program.InBounds b s →
      (∀ row, ∀ entry ∈ program.trail policy depth b row s, Program.InBounds b entry.2) ∧
      ∀ depth' outer inner u, Program.Reaches program policy b depth outer s depth' inner u →
        let reached := Program.step policy (program.call policy depth') inner
        Program.InBounds b u ∧ State.Confined b u (reached b u).2 ∧
          ∀ production e u', inner = .symbol production → reached b u = (.error e, u') →
            e.Pinned b u.offset := by
  refine ⟨fun production => production.pins policy b, takes_identifier.pins steady_identifier b,
    fun role => (takes_reference role).pins (steady_reference role) b,
    takes_refuseBrace.pins steady_refuseBrace b,
    (takes_source policy).pins (steady_source policy) b, Program.inBounds_initial b, ?_⟩
  intro program depth s inBounds
  refine ⟨inBounds.of_trail, ?_⟩
  intro depth' outer inner u reaches reached
  have there := inBounds.of_reaches reaches
  refine ⟨there, there.confined_step depth' inner, ?_⟩
  rintro production e u' rfl ran
  exact Program.pinned_of_symbol there.le_size ran

/-- A program marks where it starts, goes to the end of the buffer and back, and reads a body whose
last comma has two spaces behind it. -/
theorem failures_are_pinned_of_marked_body :
    let b : Buffer := ⟨#[' ', '\x7b', 'a', ':', 'b', ',', ' ', ' ', '\x7d']⟩
    let program : Program :=
      ⟨[("probe", [.mark "start", .skip 20, .rewind "start", .symbol .body])]⟩
    let s : State Bench := .initial ⟨.nothing, []⟩
    let u : State Bench := (State.initial ⟨.nothing, [("start", 0)]⟩).backFrom 9
    let reached := Program.step .strict (program.call .strict 0) (.symbol .body)
    Program.InBounds b s ∧
      Program.Reaches program .strict b 1 (.call "probe") s 0 (.symbol .body) u ∧
      Program.InBounds b u ∧ u.reach = b.size ∧ State.Confined b u (reached b u).2 ∧
      ∃ e u', reached b u = (.error e, u') ∧ e.Pinned b 0 := by
  intro b program s u reached
  obtain ⟨_, _, _, _, _, initial, runs⟩ := failures_are_pinned .strict b
  have reaches : Program.Reaches program .strict b 1 (.call "probe") s 0 (.symbol .body) u :=
    .inside [.mark "start", .skip 20, .rewind "start"] [] (.call "probe" s) rfl rfl (.self 0 _ _)
  obtain ⟨_, steps⟩ := runs program 1 s (initial .nothing)
  obtain ⟨there, inside, pinned⟩ := steps 0 _ _ u reaches
  have confined : State.Confined b u (reached b u).2 := inside
  have refused : (reached b u).1.isOk = false := by decide +kernel
  match ran : reached b u with
  | (.ok value, u') =>
    rw [ran] at refused
    cases refused
  | (.error e, u') =>
    rw [ran] at confined
    exact ⟨initial .nothing, reaches, there, rfl, confined, e, u', rfl,
      pinned .body e u' rfl ran⟩

end RpcSchema
