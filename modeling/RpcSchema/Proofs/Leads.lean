import RpcSchema.Choice

/-! Where rules lead. A rule leads from a state to a value that meets `after`, or to a failure that
meets `refused`, each together with the state it ends in. The way a rule is put together gives what
it leads to. -/
namespace RpcSchema

theorem Furthest.add_failure (furthest : Option Furthest) (name : String) (e : Failure) :
    (add furthest name e).failure = e ∨
      ∃ best, furthest = some best ∧ (add furthest name e).failure = best.failure := by
  cases furthest with
  | none => exact .inl rfl
  | some best =>
    simp only [add]
    split
    · exact .inr ⟨best, rfl, rfl⟩
    · split
      · exact .inr ⟨best, rfl, rfl⟩
      · exact .inl rfl

theorem Furthest.verdict_two (b : Buffer) (entry : Nat) (m n : String) (e e' : Failure) :
    verdict b entry (some (add (some ⟨e, [m]⟩) n e')) =
      if e'.position < e.position then e
      else if e'.position = e.position then
        ⟨e.position, .noBranch [m, n] (b.get? e.position)⟩
      else e' := by
  simp only [add]
  by_cases short : e'.position < e.position
  · simp [short, verdict]
  · by_cases tied : e'.position = e.position
    · simp [tied, verdict]
    · simp [short, tied, verdict]

theorem Furthest.verdict_two_tied {b : Buffer} {entry : Nat} {m n : String} {e e' : Failure}
    (tied : e'.position = e.position) :
    verdict b entry (some (add (some ⟨e, [m]⟩) n e')) =
      ⟨e.position, .noBranch [m, n] (b.get? e.position)⟩ := by
  rw [verdict_two, tied, if_neg (Nat.lt_irrefl _), if_pos rfl]

namespace Rule

variable {σ α β : Type}

def Leads (r : Rule σ α) (b : Buffer) (s : State σ) (after : α → State σ → Prop)
    (refused : Failure → State σ → Prop) : Prop :=
  match r b s with
  | (.ok a, s') => after a s'
  | (.error e, s') => refused e s'

variable {r : Rule σ α} {f : α → Rule σ β} {b : Buffer} {s s' : State σ}

section Result

variable {after : α → State σ → Prop} {refused : Failure → State σ → Prop}

theorem Leads.of_ok {a : α} (leads : r.Leads b s after refused) (ran : r b s = (.ok a, s')) :
    after a s' := by
  simpa only [Leads, ran] using leads

theorem Leads.of_error {e : Failure} (leads : r.Leads b s after refused)
    (ran : r b s = (.error e, s')) : refused e s' := by
  simpa only [Leads, ran] using leads

theorem leads_of_ok {a : α} (ran : r b s = (.ok a, s')) (met : after a s') :
    r.Leads b s after refused := by
  simpa only [Leads, ran] using met

theorem leads_of_error {e : Failure} (ran : r b s = (.error e, s')) (met : refused e s') :
    r.Leads b s after refused := by
  simpa only [Leads, ran] using met

theorem leads_of_results (ok : ∀ a s', r b s = (.ok a, s') → after a s')
    (error : ∀ e s', r b s = (.error e, s') → refused e s') : r.Leads b s after refused := by
  unfold Leads
  split
  · exact ok _ _ (by assumption)
  · exact error _ _ (by assumption)

theorem Leads.imp {after' : α → State σ → Prop} {refused' : Failure → State σ → Prop}
    (leads : r.Leads b s after refused) (ok : ∀ a s', after a s' → after' a s')
    (error : ∀ e s', refused e s' → refused' e s') : r.Leads b s after' refused' :=
  leads_of_results (fun a s' ran => ok a s' (leads.of_ok ran))
    (fun e s' ran => error e s' (leads.of_error ran))

theorem leads_pure {a : α} (met : after a s) : (pure a : Rule σ α).Leads b s after refused := met

theorem leads_fail {e : Failure} (met : refused e s) :
    (fail e : Rule σ α).Leads b s after refused := met

end Result

section Sequence

variable {after : β → State σ → Prop} {refused : Failure → State σ → Prop}

theorem Leads.bind {middle : α → State σ → Prop} {stopped : Failure → State σ → Prop}
    (first : r.Leads b s middle stopped)
    (next : ∀ a s', middle a s' → (f a).Leads b s' after refused)
    (stop : ∀ e s', stopped e s' → refused e s') : (r >>= f).Leads b s after refused := by
  unfold Leads
  cases ran : r b s with
  | mk result s' =>
    cases result with
    | ok a =>
      rw [bind_of_ok ran]
      exact next a s' (first.of_ok ran)
    | error e =>
      rw [bind_of_error ran]
      exact stop e s' (first.of_error ran)

theorem leads_bind_of_ok {a : α} (ran : r b s = (.ok a, s'))
    (next : (f a).Leads b s' after refused) : (r >>= f).Leads b s after refused := by
  unfold Leads
  rw [bind_of_ok ran]
  exact next

theorem leads_map {g : α → β} (leads : r.Leads b s (fun a => after (g a)) refused) :
    (g <$> r).Leads b s after refused :=
  leads.bind (fun _ _ met => met) fun _ _ met => met

end Sequence

/-- The rule succeeds, with a value and a state that meet `after`. -/
abbrev Gives (r : Rule σ α) (b : Buffer) (s : State σ) (after : α → State σ → Prop) : Prop :=
  r.Leads b s after fun _ _ => False

theorem Gives.exists_ok {after : α → State σ → Prop} (gives : r.Gives b s after) :
    ∃ a s', r b s = (.ok a, s') ∧ after a s' := by
  cases ran : r b s with
  | mk result s' =>
    cases result with
    | ok a => exact ⟨a, s', rfl, gives.of_ok ran⟩
    | error e => exact (gives.of_error ran).elim

theorem Gives.bind {middle : α → State σ → Prop} {after : β → State σ → Prop}
    {refused : Failure → State σ → Prop} (first : r.Gives b s middle)
    (next : ∀ a s', middle a s' → (f a).Leads b s' after refused) :
    (r >>= f).Leads b s after refused :=
  Leads.bind first next fun _ _ => False.elim

section Recovery

variable {after : Option α → State σ → Prop} {refused : Failure → State σ → Prop}

theorem leads_recover
    (leads : r.Leads b s (fun a => after (some a)) fun e s' =>
      (e.isFatal = true → refused e s') ∧ (e.isFatal = false → after none s')) :
    (recover r).Leads b s after refused := by
  unfold Leads recover
  cases ran : r b s with
  | mk result s' =>
    cases result with
    | ok a => exact leads.of_ok ran
    | error e =>
      have met := leads.of_error ran
      cases fatal : e.isFatal with
      | true => simpa [fatal] using met.1 fatal
      | false => simpa [fatal] using met.2 fatal

theorem leads_tryKeyword {literals : List String} {after : Option String → State σ → Prop}
    (leads : (keyword literals).Leads b s (fun text => after (some text))
      fun _ s' => after none s') : (tryKeyword literals).Gives b s after := by
  unfold Gives Leads tryKeyword
  cases ran : keyword literals b s with
  | mk result s' =>
    cases result with
    | ok text => exact leads.of_ok ran
    | error e => exact leads.of_error ran

end Recovery

section Choice

variable {after : α → State σ → Prop} {refused : Failure → State σ → Prop}
variable {branch : Branch σ α} {rest : List (Branch σ α)} {entry : Nat}
  {furthest : Option Furthest}

theorem firstOf_cons_of_ok {a : α} (ran : branch.rule b s = (.ok a, s')) :
    firstOf entry (branch :: rest) furthest b s = (.ok a, s'.moveTo (b.pastSpace s'.offset)) := by
  simp only [firstOf, ran]

theorem firstOf_cons_of_fatal {e : Failure} (ran : branch.rule b s = (.error e, s'))
    (fatal : e.isFatal = true) :
    firstOf entry (branch :: rest) furthest b s = (.error e, s'.moveTo entry) := by
  simp only [firstOf, ran, fatal, if_true]

theorem firstOf_cons_of_recoverable {e : Failure} (ran : branch.rule b s = (.error e, s'))
    (recoverable : e.isFatal = false) :
    firstOf entry (branch :: rest) furthest b s =
      firstOf entry rest (some (Furthest.add furthest branch.name e)) b
        ((s'.note (.branchFailed branch.name e.position)).moveTo s.offset) := by
  simp only [firstOf, ran, recoverable, Bool.false_eq_true, if_false]

theorem leads_firstOf_nil (met : refused (Furthest.verdict b entry furthest) (s.moveTo entry)) :
    (firstOf entry [] furthest : Rule σ α).Leads b s after refused := met

/-- A branch that succeeds ends the choice, and so does a fatal failure. After any other failure
the rest of the branches is tried from the same offset. -/
theorem leads_firstOf_cons
    (tried : branch.rule.Leads b s (fun a s' => after a (s'.moveTo (b.pastSpace s'.offset)))
      fun e s' => (e.isFatal = true → refused e (s'.moveTo entry)) ∧
        (e.isFatal = false →
          (firstOf entry rest (some (Furthest.add furthest branch.name e))).Leads b
            ((s'.note (.branchFailed branch.name e.position)).moveTo s.offset) after refused)) :
    (firstOf entry (branch :: rest) furthest).Leads b s after refused := by
  unfold Leads firstOf
  cases ran : branch.rule b s with
  | mk result s' =>
    cases result with
    | ok a => exact tried.of_ok ran
    | error e =>
      have met := tried.of_error ran
      cases fatal : e.isFatal with
      | true => simpa [fatal] using met.1 fatal
      | false => simpa [fatal, Leads] using met.2 fatal

theorem leads_choice {branches : List (Branch σ α)}
    (leads : (firstOf s.offset branches none).Leads b (s.moveTo (b.pastSpace s.offset))
      after refused) : (choice branches).Leads b s after refused := leads

theorem Gives.choice_first {name : String}
    (gives : r.Gives b (s.moveTo (b.pastSpace s.offset))
      fun a s' => after a (s'.moveTo (b.pastSpace s'.offset))) :
    (choice (⟨name, r⟩ :: rest)).Gives b s after :=
  leads_choice (leads_firstOf_cons (gives.imp (fun _ _ met => met) fun _ _ => False.elim))

theorem leads_choice_one {name : String}
    (leads : r.Leads b (s.moveTo (b.pastSpace s.offset))
      (fun a s' => after a (s'.moveTo (b.pastSpace s'.offset)))
      fun e s' => (e.isFatal = true → refused e (s'.moveTo s.offset)) ∧
        (e.isFatal = false →
          refused e (((s'.note (.branchFailed name e.position)).moveTo
            (b.pastSpace s.offset)).moveTo s.offset))) :
    (choice [⟨name, r⟩]).Leads b s after refused := by
  refine leads_choice (leads_firstOf_cons (leads.imp (fun _ _ met => met) ?_))
  rintro e s' ⟨fatal, recoverable⟩
  exact ⟨fatal, fun notFatal => leads_firstOf_nil (recoverable notFatal)⟩

theorem leads_choice_two {m n : String} {q : Rule σ α}
    (leads : r.Leads b (s.moveTo (b.pastSpace s.offset))
      (fun a s' => after a (s'.moveTo (b.pastSpace s'.offset)))
      fun e s' => (e.isFatal = true → refused e (s'.moveTo s.offset)) ∧
        (e.isFatal = false →
          q.Leads b ((s'.note (.branchFailed m e.position)).moveTo (b.pastSpace s.offset))
            (fun a t => after a (t.moveTo (b.pastSpace t.offset)))
            fun e' t => (e'.isFatal = true → refused e' (t.moveTo s.offset)) ∧
              (e'.isFatal = false →
                refused (Furthest.verdict b s.offset (some (Furthest.add (some ⟨e, [m]⟩) n e')))
                  (((t.note (.branchFailed n e'.position)).moveTo
                    (b.pastSpace s.offset)).moveTo s.offset)))) :
    (choice [⟨m, r⟩, ⟨n, q⟩]).Leads b s after refused := by
  refine leads_choice (leads_firstOf_cons (leads.imp (fun _ _ met => met) ?_))
  rintro e s' ⟨fatal, recoverable⟩
  refine ⟨fatal, fun notFatal => leads_firstOf_cons ((recoverable notFatal).imp ?_ ?_)⟩
  · exact fun _ _ met => met
  · exact fun e' t met => ⟨met.1, fun notFatal' => leads_firstOf_nil (met.2 notFatal')⟩

end Choice

end Rule

end RpcSchema
