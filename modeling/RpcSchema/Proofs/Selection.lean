import RpcSchema.Proofs.Leads

/-! Which branch a choice selects, and which failure it reports. Branches that fail so that the
choice goes on are passed over one after the other. What is kept of them on the way is at every
point the failure that got furthest so far, with the names of all branches that failed there. -/
namespace RpcSchema

/-- A branch that was passed over, by name, and how it failed. -/
structure Miss where
  name : String
  failure : Failure

def missesAt (misses : List Miss) (position : Nat) : List Miss :=
  misses.filter fun miss => miss.failure.position = position

theorem missesAt_concat (misses : List Miss) (miss : Miss) (position : Nat) :
    missesAt (misses ++ [miss]) position =
      missesAt misses position ++ if miss.failure.position = position then [miss] else [] := by
  simp only [missesAt, List.filter_append, List.filter_cons, List.filter_nil, decide_eq_true_eq]

theorem missesAt_eq_nil {misses : List Miss} {position : Nat}
    (before : ∀ miss ∈ misses, miss.failure.position < position) :
    missesAt misses position = [] := by
  rw [missesAt, List.filter_eq_nil_iff]
  intro miss member
  simpa using Nat.ne_of_lt (before miss member)

namespace Furthest

def tally (best : Option Furthest) (miss : Miss) : Option Furthest :=
  some (add best miss.name miss.failure)

/-- What is kept of some misses: the first one at their greatest position, with the names of all
that failed there. -/
structure Tallies (misses : List Miss) (best : Furthest) : Prop where
  le : ∀ miss ∈ misses, miss.failure.position ≤ best.failure.position
  first : (missesAt misses best.failure.position).head?.map Miss.failure = some best.failure
  names : best.names = (missesAt misses best.failure.position).map Miss.name

theorem tallies_singleton (miss : Miss) : Tallies [miss] ⟨miss.failure, [miss.name]⟩ where
  le := by simp
  first := by simp [missesAt]
  names := by simp [missesAt]

namespace Tallies

variable {misses : List Miss} {best : Furthest}

theorem add (tallies : Tallies misses best) (miss : Miss) :
    Tallies (misses ++ [miss]) (Furthest.add (some best) miss.name miss.failure) := by
  have le_all {p : Nat} (old : best.failure.position ≤ p) (new : miss.failure.position ≤ p) :
      ∀ other ∈ misses ++ [miss], other.failure.position ≤ p := by
    intro other member
    rcases List.mem_append.1 member with earlier | last
    · exact Nat.le_trans (tallies.le other earlier) old
    · rw [List.mem_singleton.1 last]
      exact new
  simp only [Furthest.add]
  split
  · next short =>
    have same := missesAt_concat misses miss best.failure.position
    rw [if_neg (Nat.ne_of_lt short), List.append_nil] at same
    exact ⟨le_all (Nat.le_refl _) (Nat.le_of_lt short), by rw [same, tallies.first],
      by rw [same, tallies.names]⟩
  · next notShort =>
    split
    · next tied =>
      have more := missesAt_concat misses miss best.failure.position
      rw [if_pos tied] at more
      refine ⟨le_all (Nat.le_refl _) (Nat.le_of_eq tied), ?_, ?_⟩
      · have first := tallies.first
        rw [more, List.head?_append]
        cases old : (missesAt misses best.failure.position).head? with
        | none =>
          rw [old] at first
          cases first
        | some kept => rwa [old] at first
      · rw [more, List.map_append, tallies.names]
        rfl
    · next notTied =>
      -- All earlier misses fall short of this one, so that it stands alone.
      have further : best.failure.position < miss.failure.position := by omega
      have none := missesAt_eq_nil fun other member =>
        Nat.lt_of_le_of_lt (tallies.le other member) further
      have alone := missesAt_concat misses miss miss.failure.position
      rw [none, if_pos rfl] at alone
      refine ⟨le_all (Nat.le_of_lt further) (Nat.le_refl _), ?_, ?_⟩
      · rw [alone]
        rfl
      · rw [alone]
        rfl

theorem foldl_tally (tallies : Tallies misses best) (later : List Miss) :
    ∃ best', later.foldl tally (some best) = some best' ∧ Tallies (misses ++ later) best' := by
  induction later generalizing misses best with
  | nil => exact ⟨best, rfl, by rwa [List.append_nil]⟩
  | cons miss later ih =>
    have next := ih (tallies.add miss)
    rwa [List.append_assoc] at next

theorem exists_miss (tallies : Tallies misses best) :
    ∃ miss ∈ misses, miss.failure = best.failure := by
  obtain ⟨miss, head, same⟩ := Option.map_eq_some_iff.1 tallies.first
  exact ⟨miss, (List.mem_filter.1 (List.mem_of_head? head)).1, same⟩

theorem max?_eq (tallies : Tallies misses best) :
    (misses.map fun miss => miss.failure.position).max? = some best.failure.position := by
  rw [List.max?_eq_some_iff]
  refine ⟨?_, fun p member => ?_⟩
  · obtain ⟨miss, member, same⟩ := tallies.exists_miss
    exact List.mem_map.2 ⟨miss, member, congrArg Failure.position same⟩
  · obtain ⟨miss, inside, rfl⟩ := List.mem_map.1 member
    exact tallies.le miss inside

theorem verdict_of_alone (tallies : Tallies misses best) {miss : Miss}
    (alone : missesAt misses best.failure.position = [miss]) (b : Buffer) (entry : Nat) :
    verdict b entry (some best) = miss.failure := by
  have first := tallies.first
  have names := tallies.names
  rw [alone] at first names
  have same : miss.failure = best.failure := Option.some.inj first
  rw [verdict, names, same]
  rfl

theorem verdict_of_tied (tallies : Tallies misses best)
    (tied : (missesAt misses best.failure.position).length ≠ 1) (b : Buffer) (entry : Nat) :
    verdict b entry (some best) =
      ⟨best.failure.position, .noBranch ((missesAt misses best.failure.position).map Miss.name)
        (b.get? best.failure.position)⟩ := by
  rw [← List.length_map (f := Miss.name), ← tallies.names] at tied
  rw [verdict, if_neg tied, tallies.names]

end Tallies

theorem exists_tallies {misses : List Miss} (some_miss : misses ≠ []) :
    ∃ best, misses.foldl tally none = some best ∧ Tallies misses best := by
  obtain ⟨miss, later, rfl⟩ := List.exists_cons_of_ne_nil some_miss
  exact (tallies_singleton miss).foldl_tally later

end Furthest

namespace Rule

variable {σ α : Type}

/-- Branches that a choice passes over. Each is run from the same offset, otherwise from the state
that the one before it has left, and fails with a failure that is not fatal. -/
inductive PassesOver (b : Buffer) (start : Nat) :
    List (Branch σ α) → State σ → List Miss → State σ → Prop where
  | nil (s : State σ) : PassesOver b start [] s [] s
  | cons (branch : Branch σ α) {rest : List (Branch σ α)} {s s' t : State σ} {e : Failure}
      {misses : List Miss} (ran : branch.rule b (s.moveTo start) = (.error e, s'))
      (recoverable : e.isFatal = false)
      (later : PassesOver b start rest (s'.note (.branchFailed branch.name e.position)) misses t) :
      PassesOver b start (branch :: rest) s (⟨branch.name, e⟩ :: misses) t

/-- A branch that ends like this ends its choice: with a value, or with a fatal failure. -/
def Settles (result : Except Failure α) : Prop :=
  ∀ e, result = .error e → e.isFatal = true

variable {b : Buffer} {start entry : Nat} {branches before after : List (Branch σ α)}
  {branch : Branch σ α} {s t : State σ} {misses : List Miss}

theorem PassesOver.names_eq (passes : PassesOver b start branches s misses t) :
    misses.map Miss.name = branches.map Branch.name := by
  induction passes with
  | nil s => rfl
  | cons branch ran recoverable later ih => rw [List.map_cons, List.map_cons, ih]

theorem PassesOver.misses_ne_nil (passes : PassesOver b start branches s misses t)
    (nonempty : branches ≠ []) : misses ≠ [] := by
  cases passes with
  | nil s => exact absurd rfl nonempty
  | cons branch ran recoverable later => exact List.cons_ne_nil _ _

theorem PassesOver.firstOf_append (passes : PassesOver b start before s misses t)
    (after : List (Branch σ α)) (furthest : Option Furthest) :
    firstOf entry (before ++ after) furthest b (s.moveTo start) =
      firstOf entry after (misses.foldl Furthest.tally furthest) b (t.moveTo start) := by
  induction passes generalizing furthest with
  | nil s => rfl
  | cons branch ran recoverable later ih =>
    rw [List.cons_append, firstOf_cons_of_recoverable ran recoverable]
    exact ih _

theorem passesOver_or (b : Buffer) (start : Nat) (branches : List (Branch σ α)) (s : State σ) :
    (∃ misses t, PassesOver b start branches s misses t) ∨
      ∃ before branch after misses t, branches = before ++ branch :: after ∧
        PassesOver b start before s misses t ∧
        Settles (branch.rule b (t.moveTo start)).1 := by
  induction branches generalizing s with
  | nil => exact .inl ⟨[], s, .nil s⟩
  | cons branch rest ih =>
    by_cases settles : Settles (branch.rule b (s.moveTo start)).1
    · exact .inr ⟨[], branch, rest, [], s, rfl, .nil s, settles⟩
    · simp only [Settles, Classical.not_forall, Bool.not_eq_true] at settles
      obtain ⟨e, failed, recoverable⟩ := settles
      have ran : branch.rule b (s.moveTo start) =
          (.error e, (branch.rule b (s.moveTo start)).2) := Prod.ext failed rfl
      rcases ih ((branch.rule b (s.moveTo start)).2.note (.branchFailed branch.name e.position))
        with ⟨misses, t, passes⟩ | ⟨before, last, after, misses, t, rfl, passes, settles⟩
      · exact .inl ⟨_, t, .cons branch ran recoverable passes⟩
      · exact .inr ⟨branch :: before, last, after, _, t, rfl,
          .cons branch ran recoverable passes, settles⟩

theorem PassesOver.choice_append
    (passes : PassesOver b (b.pastSpace s.offset) before s misses t) (after : List (Branch σ α)) :
    choice (before ++ after) b s =
      firstOf s.offset after (misses.foldl Furthest.tally none) b
        (t.moveTo (b.pastSpace s.offset)) :=
  passes.firstOf_append after none

theorem PassesOver.choice_eq (passes : PassesOver b (b.pastSpace s.offset) branches s misses t) :
    choice branches b s =
      (.error (Furthest.verdict b s.offset (misses.foldl Furthest.tally none)),
        (t.moveTo (b.pastSpace s.offset)).moveTo s.offset) := by
  have ran := passes.choice_append []
  rwa [List.append_nil] at ran

/-- Branches are run in order from the same offset until one succeeds or fails fatally. When none
does, the failure at the greatest position is reported, and the names of the branches in order if
several failed there. -/
theorem choice_reports_furthest {branches : List (Branch σ α)} (nonempty : branches ≠ [])
    (b : Buffer) (s : State σ) :
    let start := b.pastSpace s.offset
    ((∃ misses t, PassesOver b start branches s misses t) ∨
      ∃ before branch after misses t, branches = before ++ branch :: after ∧
        PassesOver b start before s misses t ∧ Settles (branch.rule b (t.moveTo start)).1) ∧
    (∀ before branch after misses t, branches = before ++ branch :: after →
      PassesOver b start before s misses t →
      (∀ a u, branch.rule b (t.moveTo start) = (.ok a, u) →
        choice branches b s = (.ok a, u.moveTo (b.pastSpace u.offset))) ∧
      ∀ e u, branch.rule b (t.moveTo start) = (.error e, u) → e.isFatal = true →
        choice branches b s = (.error e, u.moveTo s.offset)) ∧
    ∀ misses t, PassesOver b start branches s misses t →
      misses.map Miss.name = branches.map Branch.name ∧
      ∃ furthest, (misses.map fun miss => miss.failure.position).max? = some furthest ∧
        (∀ miss, missesAt misses furthest = [miss] →
          choice branches b s = (.error miss.failure, (t.moveTo start).moveTo s.offset)) ∧
        ((missesAt misses furthest).length ≠ 1 →
          choice branches b s =
            (.error ⟨furthest, .noBranch ((missesAt misses furthest).map Miss.name)
              (b.get? furthest)⟩, (t.moveTo start).moveTo s.offset)) := by
  refine ⟨passesOver_or b _ branches s, ?_, fun misses t passes => ⟨passes.names_eq, ?_⟩⟩
  · rintro before branch after misses t rfl passes
    refine ⟨fun a u ran => ?_, fun e u ran fatal => ?_⟩
    · rw [passes.choice_append, firstOf_cons_of_ok ran]
    · rw [passes.choice_append, firstOf_cons_of_fatal ran fatal]
  -- What the choice has kept tallies with the misses, and the verdict is read off it.
  · obtain ⟨best, kept, tallies⟩ := Furthest.exists_tallies (passes.misses_ne_nil nonempty)
    have ran := passes.choice_eq
    rw [kept] at ran
    refine ⟨best.failure.position, tallies.max?_eq, fun miss alone => ?_, fun tied => ?_⟩
    · rw [ran, tallies.verdict_of_alone alone]
    · rw [ran, tallies.verdict_of_tied tied]

/-- A branch that fails early, and two that tie further on. -/
theorem choice_reports_furthest_of_tied :
    let digit : Branch Unit Char := ⟨"digit", char (some "0-9")⟩
    let numbered : Branch Unit Char := ⟨"numbered", char (some "a-z") >>= fun _ => digit.rule⟩
    [digit, numbered, numbered] ≠ [] ∧
      (choice [digit, numbered, numbered] (.ofText "ab") (.initial ())).1 =
        .error ⟨1, .noBranch ["numbered", "numbered"] (some 'b')⟩ := by
  intro digit numbered
  have nonempty : [digit, numbered, numbered] ≠ [] := List.cons_ne_nil _ _
  have passes : PassesOver (.ofText "ab") 0 [digit, numbered, numbered] (.initial ()) _ _ :=
    .cons digit rfl rfl (.cons numbered rfl rfl (.cons numbered rfl rfl (.nil _)))
  obtain ⟨_, _, reports⟩ := choice_reports_furthest nonempty (.ofText "ab") (.initial ())
  obtain ⟨_, furthest, greatest, _, tied⟩ := reports _ _ passes
  cases greatest
  exact ⟨nonempty, congrArg Prod.fst (tied (by decide))⟩

end Rule

end RpcSchema
