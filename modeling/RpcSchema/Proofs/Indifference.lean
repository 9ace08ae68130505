import RpcSchema.Proofs.Closure
import RpcSchema.Proofs.Commitment

/-! Two runs side by side whose tables of compiled classes may differ. A table that answers as
compiling afresh does keeps doing so, and what is in it beyond that is never seen: states that agree
on all the rest lead to the same results and to states that agree again. -/
namespace RpcSchema

namespace ClassTable

variable {table next : ClassTable} {spec : String}

theorem prefix_of_fetch {set : CharClass} (fetched : table.fetch spec = .ok (set, next)) :
    table <+: next := by
  unfold fetch at fetched
  split at fetched
  · cases fetched
    exact List.prefix_rfl
  · split at fetched
    · cases fetched
      exact List.prefix_append table _
    · cases fetched

theorem find_eq_none_of_refused {bad : BadRange} (sound : table.Sound)
    (refused : CharClass.compile spec = .error bad) : table.find spec = none := by
  cases found : table.find spec with
  | none => rfl
  | some set =>
    have compiled := compile_of_find sound found
    rw [refused] at compiled
    cases compiled

theorem fetch_agrees {table' : ClassTable} (sound : table.Sound) (sound' : table'.Sound)
    (spec : String) :
    (∃ bad, table.fetch spec = .error bad ∧ table'.fetch spec = .error bad) ∨
      ∃ set next next', table.fetch spec = .ok (set, next) ∧
        table'.fetch spec = .ok (set, next') := by
  have value := fetch_value sound spec
  have value' := fetch_value sound' spec
  rw [← value] at value'
  cases fetched : table.fetch spec with
  | error bad =>
    cases fetched' : table'.fetch spec with
    | error bad' =>
      rw [fetched, fetched'] at value'
      cases value'
      exact .inl ⟨bad, rfl, rfl⟩
    | ok found' =>
      rw [fetched, fetched'] at value'
      cases value'
  | ok found =>
    cases fetched' : table'.fetch spec with
    | error bad' =>
      rw [fetched, fetched'] at value'
      cases value'
    | ok found' =>
      rw [fetched, fetched'] at value'
      have same : found'.1 = found.1 := Except.ok.inj value'
      exact .inr ⟨found.1, found.2, found'.2, rfl, by rw [← same]⟩

/-- The answers to look-ups one after the other, and the table behind them. -/
def fetchAll : ClassTable → List String → List (Except BadRange CharClass) × ClassTable
  | table, [] => ([], table)
  | table, spec :: rest =>
    match table.fetch spec with
    | .ok (set, next) => (.ok set :: (fetchAll next rest).1, (fetchAll next rest).2)
    | .error bad => (.error bad :: (fetchAll table rest).1, (fetchAll table rest).2)

theorem fetchAll_eq_map (sound : table.Sound) (specs : List String) :
    (table.fetchAll specs).1 = specs.map CharClass.compile ∧
      (table.fetchAll specs).2.Sound ∧ table <+: (table.fetchAll specs).2 := by
  induction specs generalizing table with
  | nil => exact ⟨rfl, sound, List.prefix_rfl⟩
  | cons spec rest ih =>
    have value := fetch_value sound spec
    cases fetched : table.fetch spec with
    | error bad =>
      rw [fetched] at value
      have later := ih sound
      simp only [fetchAll, fetched, List.map_cons, ← value, later.1]
      exact ⟨rfl, later.2⟩
    | ok found =>
      rw [fetched] at value
      have later := ih (fetch_sound sound fetched)
      simp only [fetchAll, fetched, List.map_cons, ← value, later.1]
      exact ⟨rfl, later.2.1, (prefix_of_fetch fetched).trans later.2.2⟩

end ClassTable

/-- The states differ at most in the classes compiled so far, and these answer in both as compiling
afresh does. -/
structure State.Twin {σ : Type} (s t : State σ) : Prop where
  offset_eq : s.offset = t.offset
  reach_eq : s.reach = t.reach
  journal_eq : s.journal = t.journal
  held_eq : s.held = t.held
  sound : s.classes.Sound
  sound' : t.classes.Sound

namespace State.Twin

variable {σ : Type} {s t : State σ}

theorem refl (sound : s.classes.Sound) : s.Twin s :=
  ⟨rfl, rfl, rfl, rfl, sound, sound⟩

theorem moveTo (twin : s.Twin t) (offset : Nat) : (s.moveTo offset).Twin (t.moveTo offset) :=
  ⟨rfl, congrArg (max · offset) twin.reach_eq, twin.journal_eq, twin.held_eq, twin.sound,
    twin.sound'⟩

theorem note (twin : s.Twin t) (event : Event) : (s.note event).Twin (t.note event) :=
  ⟨twin.offset_eq, twin.reach_eq, congrArg (event :: ·) twin.journal_eq, twin.held_eq, twin.sound,
    twin.sound'⟩

theorem holding {τ : Type} (twin : s.Twin t) {held held' : τ} (same : held = held') :
    (s.holding held).Twin (t.holding held') :=
  ⟨twin.offset_eq, twin.reach_eq, twin.journal_eq, same, twin.sound, twin.sound'⟩

theorem eq_with (twin : s.Twin t) : t = s.withClasses t.classes := by
  cases s
  cases t
  cases twin.offset_eq
  cases twin.reach_eq
  cases twin.journal_eq
  cases twin.held_eq
  rfl

end State.Twin

namespace Rule

variable {σ τ α β : Type}

/-- From states that are twins the rule gives the same result and comes to twins again, and its
table only grows. -/
def Indifferent (r : Rule σ α) : Prop :=
  ∀ b (s t : State σ), s.Twin t → ∃ result u v, r b s = (result, u) ∧ r b t = (result, v) ∧
    u.Twin v ∧ s.classes <+: u.classes

theorem indifferent_of_blind {r : Rule σ α}
    (blind : ∀ b s classes,
      r b (s.withClasses classes) = ((r b s).1, (r b s).2.withClasses classes)) :
    r.Indifferent := by
  intro b s t twin
  have kept : (r b s).2.classes = s.classes :=
    congrArg (fun ended => ended.2.classes) (blind b s s.classes)
  have moved := blind b s t.classes
  rw [← twin.eq_with] at moved
  have sound : (r b s).2.classes.Sound := by
    rw [kept]
    exact twin.sound
  exact ⟨_, _, _, rfl, moved, ⟨rfl, rfl, rfl, rfl, sound, twin.sound'⟩, [],
    by rw [List.append_nil, kept]⟩

theorem indifferent_pure (a : α) : (pure a : Rule σ α).Indifferent :=
  indifferent_of_blind fun _ _ _ => rfl

theorem indifferent_fail (e : Failure) : (fail e : Rule σ α).Indifferent :=
  indifferent_of_blind fun _ _ _ => rfl

theorem indifferent_held : (held : Rule σ σ).Indifferent :=
  indifferent_of_blind fun _ _ _ => rfl

theorem indifferent_setHeld (value : σ) : (setHeld value : Rule σ Unit).Indifferent :=
  indifferent_of_blind fun _ _ _ => rfl

theorem indifferent_note (event : Event) : (note event : Rule σ Unit).Indifferent :=
  indifferent_of_blind fun _ _ _ => rfl

theorem indifferent_offset : (offset : Rule σ Nat).Indifferent :=
  indifferent_of_blind fun _ _ _ => rfl

theorem indifferent_position : (position : Rule σ Int).Indifferent :=
  indifferent_of_blind fun _ _ _ => rfl

theorem indifferent_unread : (unread : Rule σ Nat).Indifferent :=
  indifferent_of_blind fun _ _ _ => rfl

theorem indifferent_peek : (peek : Rule σ (Option Char)).Indifferent :=
  indifferent_of_blind fun _ _ _ => rfl

theorem indifferent_startsWith (literal : String) :
    (startsWith literal : Rule σ Bool).Indifferent :=
  indifferent_of_blind fun _ _ _ => rfl

theorem indifferent_moveTo (mark : Nat) : (moveTo mark : Rule σ Unit).Indifferent :=
  indifferent_of_blind fun _ _ _ => rfl

theorem indifferent_skip (count : Nat) : (skip count : Rule σ Unit).Indifferent :=
  indifferent_of_blind fun _ _ _ => rfl

theorem indifferent_skipSpace : (skipSpace : Rule σ Unit).Indifferent :=
  indifferent_of_blind fun _ _ _ => rfl

theorem indifferent_advance : (advance : Rule σ (Option Char)).Indifferent := by
  apply indifferent_of_blind
  intro b s classes
  unfold advance
  simp only [State.withClasses_offset]
  cases b.get? s.offset <;> rfl

theorem indifferent_keyword (literals : List String) :
    (keyword literals : Rule σ String).Indifferent := by
  apply indifferent_of_blind
  intro b s classes
  unfold keyword
  simp only [State.withClasses_offset]
  by_cases past : b.size ≤ b.pastSpace s.offset
  · simp only [past, if_true]
    rfl
  · simp only [past, if_false]
    cases literals.find? fun literal => b.holds (b.pastSpace s.offset) literal.toList <;> rfl

theorem indifferent_tryKeyword (literals : List String) :
    (tryKeyword literals : Rule σ (Option String)).Indifferent := by
  intro b s t twin
  obtain ⟨result, u, v, ran, ran', met, grown⟩ := indifferent_keyword literals b s t twin
  cases result with
  | ok literal =>
    exact ⟨.ok (some literal), u, v, by simp only [tryKeyword, ran],
      by simp only [tryKeyword, ran'], met, grown⟩
  | error e =>
    exact ⟨.ok none, u, v, by simp only [tryKeyword, ran], by simp only [tryKeyword, ran'], met,
      grown⟩

/-- The one rule that looks a class up. A class that is not in the table is compiled, and the answer
is the same. -/
theorem indifferent_char (spec : Option String) : (char spec : Rule σ Char).Indifferent := by
  intro b s t twin
  rw [twin.eq_with]
  have sound := twin.sound
  have sound' := twin.sound'
  cases next : b.get? s.offset with
  | none =>
    -- The table is not looked at, so one equation serves both runs.
    have ran (classes : ClassTable) : char spec b (s.withClasses classes) =
        (.error ⟨s.offset, .endOfInput (expectedChar spec)⟩, s.withClasses classes) := by
      simp only [char, State.withClasses_offset, next]
    exact ⟨_, _, _, ran s.classes, ran t.classes, ⟨rfl, rfl, rfl, rfl, sound, sound'⟩,
      List.prefix_rfl⟩
  | some c =>
    cases spec with
    | none =>
      have ran (classes : ClassTable) : char none b (s.withClasses classes) =
          (.ok c, (s.withClasses classes).moveTo (s.offset + 1)) := by
        simp only [char, State.withClasses_offset, next]
      exact ⟨_, _, _, ran s.classes, ran t.classes, ⟨rfl, rfl, rfl, rfl, sound, sound'⟩,
        List.prefix_rfl⟩
    | some spec =>
      -- One table may have the class and the other one not.
      rcases ClassTable.fetch_agrees sound sound' spec with
        ⟨bad, refused, refused'⟩ | ⟨set, classes, classes', fetched, fetched'⟩
      · have ran (table : ClassTable) (refused : table.fetch spec = .error bad) :
            char (some spec) b (s.withClasses table) =
              (.error ⟨s.offset, .badRange bad⟩, s.withClasses table) := by
          simp only [char, State.withClasses_offset, State.withClasses_classes, next, refused]
        exact ⟨_, _, _, ran _ refused, ran _ refused', ⟨rfl, rfl, rfl, rfl, sound, sound'⟩,
          List.prefix_rfl⟩
      · have ran (table classes : ClassTable) (fetched : table.fetch spec = .ok (set, classes)) :
            char (some spec) b (s.withClasses table) =
              if set.covers c then (.ok c, (s.withClasses classes).moveTo (s.offset + 1))
              else (.error ⟨s.offset, .wrongChar spec c⟩, s.withClasses classes) := by
          simp only [char, State.withClasses_offset, State.withClasses_classes,
            State.withClasses_withClasses, next, fetched]
        have first := ran _ _ fetched
        have second := ran _ _ fetched'
        have later := ClassTable.fetch_sound sound fetched
        have later' := ClassTable.fetch_sound sound' fetched'
        have grown := ClassTable.prefix_of_fetch fetched
        cases covered : set.covers c with
        | true =>
          rw [covered, if_pos rfl] at first second
          exact ⟨_, _, _, first, second, ⟨rfl, rfl, rfl, rfl, later, later'⟩, grown⟩
        | false =>
          rw [covered, if_neg Bool.false_ne_true] at first second
          exact ⟨_, _, _, first, second, ⟨rfl, rfl, rfl, rfl, later, later'⟩, grown⟩

section

variable {r : Rule σ α} {f : α → Rule σ β}

theorem Indifferent.bind (first : r.Indifferent) (next : ∀ a, (f a).Indifferent) :
    (r >>= f).Indifferent := by
  intro b s t twin
  obtain ⟨result, u, v, ran, ran', met, grown⟩ := first b s t twin
  cases result with
  | error e => exact ⟨.error e, u, v, bind_of_error ran, bind_of_error ran', met, grown⟩
  | ok a =>
    obtain ⟨last, u', v', later, later', met', more⟩ := next a b u v met
    exact ⟨last, u', v', (bind_of_ok ran).trans later, (bind_of_ok ran').trans later', met',
      grown.trans more⟩

theorem Indifferent.map (indifferent : r.Indifferent) (g : α → β) : (g <$> r).Indifferent :=
  indifferent.bind fun a => indifferent_pure (g a)

theorem Indifferent.recover (indifferent : r.Indifferent) : (Rule.recover r).Indifferent := by
  intro b s t twin
  obtain ⟨result, u, v, ran, ran', met, grown⟩ := indifferent b s t twin
  cases result with
  | ok a =>
    exact ⟨.ok (some a), u, v, by simp only [Rule.recover, ran], by simp only [Rule.recover, ran'],
      met, grown⟩
  | error e =>
    cases fatal : e.isFatal with
    | true =>
      exact ⟨.error e, u, v, by simp only [Rule.recover, ran, fatal, if_true],
        by simp only [Rule.recover, ran', fatal, if_true], met, grown⟩
    | false =>
      exact ⟨.ok none, u, v, by simp only [Rule.recover, ran, fatal, Bool.false_eq_true, if_false],
        by simp only [Rule.recover, ran', fatal, Bool.false_eq_true, if_false], met, grown⟩

theorem Indifferent.within {r : Rule σ α} (indifferent : r.Indifferent) (get : τ → σ)
    (set : σ → τ → τ) : (Rule.within get set r).Indifferent := by
  intro b s t twin
  have inner : (s.holding (get s.held)).Twin (t.holding (get t.held)) :=
    twin.holding (congrArg get twin.held_eq)
  obtain ⟨result, u, v, ran, ran', met, grown⟩ := indifferent b _ _ inner
  have outer : set u.held s.held = set v.held t.held := by rw [met.held_eq, twin.held_eq]
  have first : Rule.within get set r b s =
      (result, u.holding (set u.held s.held)) := by
    simp only [Rule.within, ran]
  have second : Rule.within get set r b t =
      (result, v.holding (set v.held t.held)) := by
    simp only [Rule.within, ran']
  exact ⟨result, _, _, first, second, met.holding outer, grown⟩

end

theorem indifferent_firstOf {branches : List (Branch σ α)}
    (each : ∀ branch ∈ branches, branch.rule.Indifferent) (entry : Nat)
    (furthest : Option Furthest) : (firstOf entry branches furthest).Indifferent := by
  induction branches generalizing furthest with
  | nil => exact fun b s t twin => ⟨_, _, _, rfl, rfl, twin.moveTo entry, List.prefix_rfl⟩
  | cons branch rest ih =>
    have ⟨first, others⟩ := List.forall_mem_cons.1 each
    intro b s t twin
    obtain ⟨result, u, v, ran, ran', met, grown⟩ := first b s t twin
    cases result with
    | ok a =>
      have ended : firstOf entry (branch :: rest) furthest b t =
          (.ok a, v.moveTo (b.pastSpace v.offset)) := firstOf_cons_of_ok ran'
      rw [← met.offset_eq] at ended
      exact ⟨.ok a, _, _, firstOf_cons_of_ok ran, ended, met.moveTo _, grown⟩
    | error e =>
      cases fatal : e.isFatal with
      | true =>
        exact ⟨.error e, _, _, firstOf_cons_of_fatal ran fatal, firstOf_cons_of_fatal ran' fatal,
          met.moveTo entry, grown⟩
      | false =>
        have again := (met.note (.branchFailed branch.name e.position)).moveTo s.offset
        obtain ⟨last, u', v', later, later', met', more⟩ :=
          ih others (some (Furthest.add furthest branch.name e)) b _ _ again
        have start : firstOf entry (branch :: rest) furthest b t =
            firstOf entry rest (some (Furthest.add furthest branch.name e)) b
              ((v.note (.branchFailed branch.name e.position)).moveTo t.offset) :=
          firstOf_cons_of_recoverable ran' fatal
        rw [← twin.offset_eq] at start
        exact ⟨last, u', v', (firstOf_cons_of_recoverable ran fatal).trans later,
          start.trans later', met', grown.trans more⟩

theorem indifferent_choice {branches : List (Branch σ α)}
    (each : ∀ branch ∈ branches, branch.rule.Indifferent) : (choice branches).Indifferent := by
  intro b s t twin
  have chosen := indifferent_firstOf each s.offset none b _ _
    (twin.moveTo (b.pastSpace s.offset))
  have same : choice branches b t =
      firstOf s.offset branches none b (t.moveTo (b.pastSpace s.offset)) := by
    rw [twin.offset_eq]
    rfl
  rwa [← same] at chosen

end Rule

theorem Rule.closed_indifferent {σ : Type} : Closed fun {α} (r : Rule σ α) => r.Indifferent where
  pure := indifferent_pure
  bind := Indifferent.bind
  recover := Indifferent.recover
  choice := indifferent_choice
  fail := indifferent_fail
  char := indifferent_char
  keyword := indifferent_keyword
  tryKeyword := indifferent_tryKeyword
  skipSpace := indifferent_skipSpace
  peek := indifferent_peek
  offset := indifferent_offset
  unread := indifferent_unread
  held := indifferent_held
  setHeld := indifferent_setHeld
  note := indifferent_note

namespace Program

open Rule

theorem indifferent_broken {α : Type} (reason : String) :
    (broken reason : Rule Bench α).Indifferent :=
  indifferent_offset.bind fun _ => indifferent_fail _

theorem indifferent_setMark (name : String) : (setMark name).Indifferent :=
  indifferent_offset.bind fun _ => indifferent_held.bind fun _ =>
    (indifferent_setHeld _).bind fun _ => indifferent_pure _

theorem indifferent_rewind (name : String) : (rewind name).Indifferent := by
  refine indifferent_held.bind fun bench => ?_
  cases bench.marks.lookup name with
  | none => exact indifferent_broken _
  | some mark => exact (indifferent_moveTo mark).bind fun _ => indifferent_pure _

section

variable {call : String → Rule Bench Value} (policy : Policy)

theorem indifferent_step (calls : ∀ name, (call name).Indifferent) (next : Step) :
    (step policy call next).Indifferent := by
  have branches (rules : List String) :
      ∀ branch ∈ rules.map fun name => (⟨name, call name⟩ : Branch Bench Value),
        branch.rule.Indifferent :=
    List.forall_mem_map.2 fun name _ => calls name
  cases next with
  | char spec => exact (indifferent_char spec).map _
  | tryChar spec => exact (indifferent_char spec).recover.map _
  | skipSpace => exact indifferent_skipSpace.map _
  | keyword literals => exact (indifferent_keyword literals).map _
  | tryKeyword literals => exact (indifferent_tryKeyword literals).map _
  | choice rules => exact indifferent_choice (branches rules)
  | tryChoice rules => exact (indifferent_choice (branches rules)).recover.map _
  | call rule => exact calls rule
  | fail failure => exact indifferent_fail failure
  | symbol production =>
    exact (closed_indifferent.symbol policy production).within Bench.declared
      fun declared bench => { bench with declared }
  | peek => exact indifferent_peek.map _
  | advance => exact indifferent_advance.map _
  | skip count => exact (indifferent_skip count).map _
  | startsWith literal => exact (indifferent_startsWith literal).map _
  | position => exact indifferent_position.map _
  | mark name => exact indifferent_setMark name
  | rewind name => exact indifferent_rewind name

theorem indifferent_steps (calls : ∀ name, (call name).Indifferent) (row : List Step) :
    (steps policy call row).Indifferent := by
  induction row with
  | nil => exact indifferent_pure []
  | cons first rest ih =>
    exact (indifferent_step policy calls first).bind fun value => ih.bind fun values =>
      indifferent_pure (value :: values)

end

variable (program : Program) (policy : Policy)

theorem indifferent_call (depth : Nat) (name : String) :
    (program.call policy depth name).Indifferent := by
  induction depth generalizing name with
  | zero => exact indifferent_broken _
  | succ depth ih =>
    unfold Program.call
    split
    · next body found => exact (indifferent_steps policy ih body).map _
    · exact indifferent_broken _

theorem indifferent_branches (depth : Nat) (names : List String) :
    ∀ branch ∈ program.branches policy depth names, branch.rule.Indifferent :=
  List.forall_mem_map.2 fun name _ => indifferent_call program policy depth name

end Program

end RpcSchema
