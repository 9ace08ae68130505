import RpcSchema.Proofs.History
import RpcSchema.Proofs.Progress

/-! What the journal of a run tells. Branches that failed are noted while they are tried, and a
message that replaces another one is noted deep inside a choice; yet apart from failed branches the
journal holds nothing but the declarations that were read, each where it was read. A production
notes a replacement as its last act, when nothing around it can fail any more. -/
namespace RpcSchema

namespace Event

def isMiss : Event → Bool
  | branchFailed _ _ => true
  | _ => false

def isMethod : Event → Bool
  | methodParsed _ _ _ => true
  | _ => false

def isMessage : Event → Bool
  | messageParsed _ _ => true
  | _ => false

def isReplacement : Event → Bool
  | redeclared _ => true
  | _ => false

end Event

namespace State

variable {σ : Type} {s t u : State σ}

/-- What has been noted, but for branches that failed. -/
def reports (s : State σ) : List Event := s.events.filter fun event => !event.isMiss

theorem reports_moveTo (s : State σ) (n : Nat) : (s.moveTo n).reports = s.reports := rfl

theorem reports_note (s : State σ) (event : Event) :
    (s.note event).reports = s.reports ++ if event.isMiss then [] else [event] := by
  rw [reports, events, note, List.reverse_cons, List.filter_append]
  cases miss : event.isMiss with
  | true => simp [miss, reports, events]
  | false => simp [miss, reports, events]

structure Agrees (s t : State σ) : Prop where
  held : t.held = s.held
  reports : t.reports = s.reports

theorem Agrees.refl (s : State σ) : s.Agrees s := ⟨rfl, rfl⟩

theorem Agrees.trans (first : s.Agrees t) (next : t.Agrees u) : s.Agrees u :=
  ⟨next.held.trans first.held, next.reports.trans first.reports⟩

theorem Agrees.moveTo (agrees : s.Agrees t) (n : Nat) : s.Agrees (t.moveTo n) :=
  ⟨agrees.held, agrees.reports⟩

theorem Agrees.miss (agrees : s.Agrees t) (name : String) (position : Nat) :
    s.Agrees (t.note (.branchFailed name position)) := by
  refine ⟨agrees.held, ?_⟩
  rw [reports_note, agrees.reports]
  exact List.append_nil _

end State

namespace Rule

variable {σ α β : Type}

/-- A rule that changes nothing that is held and reports nothing. -/
def Quiet (r : Rule σ α) : Prop :=
  ∀ b s, r.Leads b s (fun _ t => s.Agrees t) fun _ t => s.Agrees t

/-- A rule that succeeds reports what its value tells, given what was held when it was entered. A
rule that fails reports nothing and leaves what was held. -/
def Announces (told : α → σ → List Event) (r : Rule σ α) : Prop :=
  ∀ b s, r.Leads b s (fun a t => t.reports = s.reports ++ told a s.held) fun _ t => s.Agrees t

theorem quiet_of_agrees {r : Rule σ α} (agrees : ∀ b (s : State σ), s.Agrees (r b s).2) :
    r.Quiet := by
  intro b s
  have same := agrees b s
  refine leads_of_results (fun a t ran => ?_) fun e t ran => ?_
  · rwa [ran] at same
  · rwa [ran] at same

theorem quiet_pure (a : α) : (pure a : Rule σ α).Quiet := fun _ s => leads_pure (.refl s)

theorem quiet_fail (e : Failure) : (fail e : Rule σ α).Quiet := fun _ s => leads_fail (.refl s)

theorem quiet_skipSpace : (skipSpace : Rule σ Unit).Quiet :=
  fun _ s => leads_of_ok rfl ((State.Agrees.refl s).moveTo _)

theorem quiet_offset : (offset : Rule σ Nat).Quiet := fun _ s => leads_of_ok rfl (.refl s)

theorem quiet_unread : (unread : Rule σ Nat).Quiet := fun _ s => leads_of_ok rfl (.refl s)

theorem quiet_peek : (peek : Rule σ (Option Char)).Quiet := fun _ s => leads_of_ok rfl (.refl s)

theorem quiet_held : (held : Rule σ σ).Quiet := fun _ s => leads_of_ok rfl (.refl s)

theorem quiet_char (spec : Option String) : (char spec : Rule σ Char).Quiet := by
  refine quiet_of_agrees fun b s => ?_
  unfold char
  split
  · exact .refl s
  · split
    · exact ⟨rfl, rfl⟩
    · split
      · exact .refl s
      · dsimp only
        split
        · exact ⟨rfl, rfl⟩
        · exact ⟨rfl, rfl⟩

theorem quiet_keyword (literals : List String) : (keyword literals : Rule σ String).Quiet := by
  intro b s
  rcases keyword_cases literals b s with ⟨_, ran⟩ | ran | ⟨_, _, _, ran⟩
  · exact leads_of_error ran (((State.Agrees.refl s).moveTo _).moveTo _)
  · exact leads_of_error ran (((State.Agrees.refl s).moveTo _).moveTo _)
  · exact leads_of_ok ran ((State.Agrees.refl s).moveTo _)

theorem quiet_tryKeyword (literals : List String) :
    (tryKeyword literals : Rule σ (Option String)).Quiet := by
  intro b s
  exact (leads_tryKeyword (quiet_keyword literals b s)).imp (fun _ _ agrees => agrees)
    fun _ _ => False.elim

namespace Quiet

variable {r : Rule σ α} {f : α → Rule σ β}

theorem bind (quiet : r.Quiet) (next : ∀ a, (f a).Quiet) : (r >>= f).Quiet := by
  intro b s
  refine (quiet b s).bind (fun a t agrees => ?_) fun _ _ agrees => agrees
  exact (next a b t).imp (fun _ _ later => agrees.trans later) fun _ _ later => agrees.trans later

theorem andThen {told : β → σ → List Event} (quiet : r.Quiet)
    (next : ∀ a, (f a).Announces told) : (r >>= f).Announces told := by
  intro b s
  refine (quiet b s).bind (fun a t agrees => ?_) fun _ _ agrees => agrees
  refine (next a b t).imp (fun c u later => ?_) fun _ _ later => agrees.trans later
  rwa [agrees.reports, agrees.held] at later

theorem announces (quiet : r.Quiet) : r.Announces fun _ _ => [] := by
  intro b s
  refine (quiet b s).imp (fun _ _ agrees => ?_) fun _ _ agrees => agrees
  rw [agrees.reports, List.append_nil]

theorem recover (quiet : r.Quiet) : (Rule.recover r).Quiet :=
  fun b s => leads_recover ((quiet b s).imp (fun _ _ agrees => agrees)
    fun _ _ agrees => ⟨fun _ => agrees, fun _ => agrees⟩)

theorem repeated {r : Rule σ (Option α)} (quiet : r.Quiet) (limit : Nat) :
    (Rule.repeated r limit).Quiet := by
  induction limit with
  | zero => exact quiet_pure _
  | succ limit ih =>
    refine quiet.bind fun value => ?_
    cases value with
    | none => exact quiet_pure _
    | some a => exact ih.bind fun _ => quiet_pure _

theorem choice_one (quiet : r.Quiet) (name : String) : (choice [⟨name, r⟩]).Quiet := by
  intro b s
  have start := (State.Agrees.refl s).moveTo (b.pastSpace s.offset)
  refine leads_choice_one ((quiet b _).imp (fun _ t agrees => ?_) fun e t agrees => ?_)
  · exact (start.trans agrees).moveTo _
  · have left := start.trans agrees
    exact ⟨fun _ => left.moveTo _, fun _ => ((left.miss name e.position).moveTo _).moveTo _⟩

end Quiet

theorem Announces.map {r : Rule σ α} {told : α → σ → List Event} (announces : r.Announces told)
    (g : α → β) {told' : β → σ → List Event} (same : ∀ a held, told' (g a) held = told a held) :
    (g <$> r).Announces told' := by
  intro b s
  refine leads_map ((announces b s).imp (fun a _ later => ?_) fun _ _ agrees => agrees)
  rw [later, same]

theorem leads_firstOf_announced {branches : List (Branch σ α)} {told : α → σ → List Event}
    (each : ∀ branch ∈ branches, branch.rule.Announces told) {b : Buffer} {s t : State σ}
    (agrees : s.Agrees t) (entry : Nat) (furthest : Option Furthest) :
    (firstOf entry branches furthest).Leads b t
      (fun a u => u.reports = s.reports ++ told a s.held) fun _ u => s.Agrees u := by
  induction branches generalizing t furthest with
  | nil => exact leads_firstOf_nil (agrees.moveTo entry)
  | cons branch rest ih =>
    have ⟨first, others⟩ := List.forall_mem_cons.1 each
    refine leads_firstOf_cons ((first b t).imp (fun a u reported => ?_) fun e u failed => ?_)
    · rw [State.reports_moveTo, reported, agrees.reports, agrees.held]
    · have left := agrees.trans failed
      exact ⟨fun _ => left.moveTo entry,
        fun _ => ih others ((left.miss branch.name e.position).moveTo t.offset) _⟩

theorem announces_choice {branches : List (Branch σ α)} {told : α → σ → List Event}
    (each : ∀ branch ∈ branches, branch.rule.Announces told) : (choice branches).Announces told :=
  fun _ s => leads_choice
    (leads_firstOf_announced each ((State.Agrees.refl s).moveTo _) s.offset none)

end Rule

namespace Declaration

/-- What is noted of a declaration while it is read: that it replaces a message in scope. -/
def replacement (declaration : Declaration) (d : Declared) : List Event :=
  match declaration with
  | message name _ => if d.scope.contains name then [.redeclared name] else []
  | method _ | bare _ => []

end Declaration

namespace Grammar

open Rule

theorem quiet_string : string.Quiet :=
  (quiet_char _).bind fun _ => quiet_unread.bind fun limit =>
    ((quiet_char _).recover.repeated limit).bind fun _ => quiet_pure _

theorem quiet_identifier : identifier.Quiet := quiet_string.choice_one _

theorem quiet_pair : pair.Quiet :=
  quiet_identifier.bind fun _ => (quiet_keyword _).bind fun _ =>
    quiet_identifier.bind fun _ => quiet_pure _

theorem quiet_refuseBrace : refuseBrace.Quiet := by
  refine quiet_skipSpace.bind fun _ => quiet_peek.bind fun next => quiet_offset.bind fun here => ?_
  split
  · exact quiet_fail _
  · exact quiet_pure _

theorem quiet_fields (policy : Policy) (limit : Nat) (afterComma : Bool) (body : Body) :
    (fields policy limit afterComma body).Quiet := by
  induction limit generalizing afterComma body with
  | zero => exact quiet_pure _
  | succ limit ih =>
    refine (quiet_pair.choice_one _).recover.bind fun read => ?_
    match read with
    | none =>
      dsimp only
      split
      · exact quiet_refuseBrace.bind fun _ => quiet_pure _
      · exact quiet_pure _
    | some (name, type) =>
      refine (quiet_tryKeyword _).bind fun comma => ?_
      cases comma with
      | none => exact quiet_pure _
      | some _ => exact ih true _

theorem quiet_body (policy : Policy) : (body policy).Quiet :=
  (quiet_keyword _).bind fun _ => quiet_unread.bind fun _ =>
    (quiet_fields policy _ _ _).bind fun _ => (quiet_keyword _).bind fun _ => quiet_pure _

theorem quiet_reference (role : Role) : (reference role).Quiet := by
  refine quiet_skipSpace.bind fun _ => quiet_offset.bind fun start =>
    quiet_identifier.bind fun name => quiet_held.bind fun declared => ?_
  cases declared.scope.resolve name with
  | some found => exact quiet_pure found
  | none => exact quiet_fail _

theorem announces_declare (policy : Policy) (start : Nat) (name : String) (body : Body) :
    (declare policy start name body).Announces
      fun _ d => (Declaration.message name body).replacement d := by
  intro b s
  refine leads_bind_of_ok (a := s.held) rfl ?_
  dsimp only
  split
  · exact leads_fail (.refl s)
  · refine leads_bind_of_ok rfl ?_
    cases known : s.held.scope.contains name with
    | true =>
      refine leads_of_ok rfl ?_
      rw [State.reports_note, Declaration.replacement, known]
      rfl
    | false =>
      refine leads_of_ok rfl ?_
      rw [Declaration.replacement, known]
      exact (List.append_nil _).symm

theorem announces_message (policy : Policy) :
    (message policy).Announces
      fun read d => (Declaration.message read.1 read.2).replacement d :=
  (quiet_keyword _).andThen fun _ => quiet_skipSpace.andThen fun _ =>
    quiet_offset.andThen fun start => quiet_string.andThen fun name =>
    quiet_skipSpace.andThen fun _ => (quiet_body policy).andThen fun body =>
      (announces_declare policy start name body).map (fun _ => (name, body)) fun _ _ => rfl

theorem announces_method : method.Announces fun _ _ => [] := by
  refine (quiet_keyword _).andThen fun _ => quiet_identifier.andThen fun name =>
    (quiet_keyword _).andThen fun _ => (quiet_reference _).andThen fun request =>
    (quiet_keyword _).andThen fun _ => (quiet_keyword _).andThen fun _ =>
    (quiet_reference _).andThen fun response => (quiet_keyword _).andThen fun _ =>
    quiet_held.andThen fun declared => ?_
  exact fun b s => leads_of_ok rfl (List.append_nil _).symm

theorem announces_complexType (policy : Policy) :
    (complexType policy).Announces Declaration.replacement := by
  apply announces_choice
  intro branch member
  simp only [List.mem_cons, List.not_mem_nil, or_false] at member
  rcases member with rfl | rfl
  · exact announces_method.map _ fun _ _ => rfl
  · exact (announces_message policy).map _ fun _ _ => rfl

theorem announces_anyType (policy : Policy) :
    (anyType policy).Announces Declaration.replacement := by
  apply announces_choice
  intro branch member
  simp only [List.mem_cons, List.not_mem_nil, or_false] at member
  rcases member with rfl | rfl
  · exact announces_complexType policy
  · exact quiet_identifier.announces.map _ fun _ _ => rfl

theorem announces_declaration (policy : Policy) :
    (declaration policy).Announces Declaration.replacement :=
  announces_choice (List.forall_mem_singleton.2 (announces_anyType policy))

end Grammar

theorem OrderedMap.size_insert_of_contains {α : Type} {m : OrderedMap α} {name : String}
    (known : m.contains name = true) (value : α) : (m.insert name value).size = m.size := by
  have member : name ∈ m.keys := by
    refine Decidable.byContradiction fun absent => ?_
    rw [← OrderedMap.get?_eq_none_iff] at absent
    simp [OrderedMap.contains, absent] at known
  have keys := congrArg List.length (m.keys_insert name value)
  rw [if_pos member] at keys
  simpa [OrderedMap.keys, OrderedMap.size] using keys

namespace Round

/-- What is reported of a declaration. A message whose name is in scope is a replacement, which is
reported directly before it. -/
def reports (r : Round) : List Event :=
  match r.declaration with
  | .method m => [.methodParsed m.name m.request.name m.response.name]
  | .message name body =>
    (if r.redeclares then [.redeclared name] else []) ++ [.messageParsed name body.size]
  | .bare token => [.bareSkipped token]

def Declares (r : Round) (name : String) : Prop := ∃ body, r.declaration = .message name body

theorem reports_eq (r : Round) :
    r.reports = r.declaration.replacement r.before ++ [r.declaration.event] := by
  obtain ⟨start, before, declaration⟩ := r
  cases declaration <;> rfl

variable {start : Nat} {before : Declared} {name : String} {body : Body}

theorem reports_of_known (known : before.scope.contains name = true) :
    (Round.mk start before (.message name body)).reports =
      [.redeclared name, .messageParsed name body.size] := by
  have again : (Round.mk start before (.message name body)).redeclares = true := known
  rw [reports, again]
  rfl

theorem reports_of_fresh (fresh : before.scope.contains name = false) :
    (Round.mk start before (.message name body)).reports = [.messageParsed name body.size] := by
  have first : (Round.mk start before (.message name body)).redeclares = false := fresh
  rw [reports, first]
  rfl

theorem methods_add (r : Round) :
    (r.before.add r.declaration).interface.size =
      r.before.interface.size + r.reports.countP Event.isMethod := by
  obtain ⟨start, before, declaration⟩ := r
  cases declaration with
  | method m => exact Interface.size_push before.interface m
  | message name body =>
    cases known : before.scope.contains name with
    | true => rw [reports_of_known known]; rfl
    | false => rw [reports_of_fresh known]; rfl
  | bare token => rfl

theorem messages_add (r : Round) :
    (r.before.add r.declaration).scope.size + r.reports.countP Event.isReplacement =
      r.before.scope.size + r.reports.countP Event.isMessage := by
  obtain ⟨start, before, declaration⟩ := r
  cases declaration with
  | method m => rfl
  | message name body =>
    cases known : before.scope.contains name with
    | true =>
      have size : (before.add (.message name body)).scope.size = before.scope.size :=
        OrderedMap.size_insert_of_contains known body
      rw [size, reports_of_known known]
      rfl
    | false =>
      have size : (before.add (.message name body)).scope.size = before.scope.size + 1 :=
        OrderedMap.size_insert known body
      rw [size, reports_of_fresh known]
      rfl
  | bare token => rfl

end Round

theorem contains_foldl_add (declarations : List Declaration) (d : Declared) (name : String) :
    (declarations.foldl Declared.add d).scope.contains name = true ↔
      d.scope.contains name = true ∨ ∃ body, .message name body ∈ declarations := by
  induction declarations generalizing d with
  | nil => simp
  | cons declaration rest ih =>
    rw [List.foldl_cons, ih]
    cases declaration with
    | message declared body =>
      by_cases same : name = declared
      · subst same
        simp [Declared.add, OrderedMap.contains, OrderedMap.get?_insert]
      · simp [Declared.add, OrderedMap.contains, OrderedMap.get?_insert, same]
    | method m => simp [Declared.add]
    | bare token => simp [Declared.add]

/-- Between two states the declarations of some rounds have been read and reported, and nothing
else has been. -/
structure State.Tells (s : State Declared) (rounds : List Round) (t : State Declared) : Prop where
  held : t.held = (rounds.map Round.declaration).foldl Declared.add s.held
  reports : t.reports = s.reports ++ rounds.flatMap Round.reports
  methods : t.held.interface.size =
    s.held.interface.size + (rounds.flatMap Round.reports).countP Event.isMethod
  messages : t.held.scope.size + (rounds.flatMap Round.reports).countP Event.isReplacement =
    s.held.scope.size + (rounds.flatMap Round.reports).countP Event.isMessage

namespace State.Tells

variable {s t u : State Declared}

theorem of_agrees (agrees : s.Agrees t) : s.Tells [] t where
  held := agrees.held
  reports := by rw [agrees.reports, List.flatMap_nil, List.append_nil]
  methods := by rw [agrees.held]; rfl
  messages := by rw [agrees.held]; rfl

theorem cons {r : Round} {rounds : List Round} (first : s.Tells [r] t) (rest : t.Tells rounds u) :
    s.Tells (r :: rounds) u := by
  have here := first.methods
  have later := rest.methods
  have fresh := first.messages
  have known := rest.messages
  simp only [List.flatMap_singleton] at here fresh
  refine ⟨?_, ?_, ?_, ?_⟩
  · rw [rest.held, first.held]
    rfl
  · rw [rest.reports, first.reports, List.append_assoc, List.flatMap_singleton, List.flatMap_cons]
  · rw [List.flatMap_cons, List.countP_append]
    omega
  · rw [List.flatMap_cons, List.countP_append, List.countP_append]
    omega

end State.Tells

namespace Grammar

open Rule

variable {policy : Policy} {b : Buffer} {s t : State Declared}

theorem tells_declaration {declaration : Declaration}
    (ran : Grammar.declaration policy b s = (.ok declaration, t)) :
    s.Tells [⟨s.offset, s.held, declaration⟩] (t.note declaration.event) := by
  have held : t.held = s.held.add declaration := (commits_declaration policy b s).of_ok ran
  have reported : t.reports = _ := (announces_declaration policy b s).of_ok ran
  have noted : declaration.event.isMiss = false := by cases declaration <;> rfl
  refine ⟨held, ?_, ?_, ?_⟩
  · rw [State.reports_note, reported, noted, List.flatMap_singleton, Round.reports_eq,
      List.append_assoc]
    rfl
  · rw [List.flatMap_singleton, State.note_held, held]
    exact Round.methods_add ⟨s.offset, s.held, declaration⟩
  · rw [List.flatMap_singleton, State.note_held, held]
    exact Round.messages_add ⟨s.offset, s.held, declaration⟩

/-- A run tells its history, whether it comes to the end or stops before a declaration that
fails. -/
theorem tells_rounds (policy : Policy) (limit : Nat) (inside : s.offset ≤ b.size) :
    s.Tells (history policy b limit s) (rounds policy limit b s).2 := by
  induction limit generalizing s with
  | zero => exact .of_agrees (.refl s)
  | succ limit ih =>
    by_cases ended : b.size ≤ s.offset
    · rw [history_of_ended ended, rounds_of_ended ended]
      exact .of_agrees (.refl s)
    · have unread := Nat.lt_of_not_le ended
      cases ran : declaration policy b s with
      | mk result t =>
        cases result with
        | error e =>
          rw [history_of_error ran, rounds_of_error unread ran]
          exact .of_agrees ((announces_declaration policy b s).of_error ran)
        | ok read =>
          -- A declaration takes characters, so the round is not the last for want of progress.
          have taken := (takes_declaration policy b s inside).of_ok ran
          have further : s.offset < t.offset := taken.le_offset
          rw [history_of_ok unread ran, rounds_of_ok unread ran further]
          exact (tells_declaration ran).cons (ih taken.le_size)

theorem before_of_history {limit : Nat} {before after : List Round} {r : Round}
    (split : history policy b limit s = before ++ r :: after) :
    r.before = (before.map Round.declaration).foldl Declared.add s.held := by
  induction limit generalizing s before with
  | zero => simp [history] at split
  | succ limit ih =>
    by_cases ended : b.size ≤ s.offset
    · simp [history_of_ended ended] at split
    · have unread := Nat.lt_of_not_le ended
      cases ran : declaration policy b s with
      | mk result t =>
        cases result with
        | error e => simp [history_of_error ran] at split
        | ok read =>
          have held : t.held = s.held.add read := (commits_declaration policy b s).of_ok ran
          rw [history_of_ok unread ran] at split
          cases before with
          | nil =>
            cases (List.cons.inj split).1
            rfl
          | cons first before =>
            obtain ⟨rfl, later⟩ := List.cons.inj split
            rw [ih later, State.note_held, held]
            rfl

theorem redeclares_iff {limit : Nat} {before after : List Round} {r : Round}
    (split : history policy b limit s = before ++ r :: after) (fresh : s.held = .nothing) :
    r.redeclares = true ↔ ∃ name, r.Declares name ∧ ∃ earlier ∈ before, earlier.Declares name := by
  have past := before_of_history split
  obtain ⟨start, d, declaration⟩ := r
  cases declaration with
  | message name body =>
    have known : d.scope.contains name = true ↔
        ∃ body, .message name body ∈ before.map Round.declaration := by
      have nothing : Declared.nothing.scope.contains name = false := rfl
      have held : d = _ := past
      rw [held, contains_foldl_add, fresh, nothing]
      simp
    change d.scope.contains name = true ↔ _
    rw [known]
    constructor
    · rintro ⟨other, member⟩
      obtain ⟨earlier, inside, same⟩ := List.mem_map.1 member
      exact ⟨name, ⟨body, rfl⟩, earlier, inside, other, same⟩
    · rintro ⟨_, ⟨_, ⟨⟩⟩, earlier, inside, other, same⟩
      exact ⟨other, List.mem_map.2 ⟨earlier, inside, same⟩⟩
  | method m => simp [Round.redeclares, Round.Declares]
  | bare token => simp [Round.redeclares, Round.Declares]

theorem leads_source_told (policy : Policy) (inside : s.offset ≤ b.size) :
    (source policy).Leads b s
      (fun d t => ∃ u, s.Tells (history policy b (b.size - s.offset) s) u ∧ u.held = d ∧
        t = u.note (.complete d.interface.size d.scope.size))
      fun _ t => s.Tells (history policy b (b.size - s.offset) s) t := by
  have told : (rounds policy (b.size - s.offset)).Leads b s
      (fun _ t => s.Tells (history policy b (b.size - s.offset) s) t)
      fun _ t => s.Tells (history policy b (b.size - s.offset) s) t := by
    have tells := tells_rounds policy (b.size - s.offset) inside
    refine leads_of_results (fun _ t ran => ?_) fun e t ran => ?_
    · rwa [ran] at tells
    · rwa [ran] at tells
  exact leads_bind_of_ok rfl (told.bind (fun _ t tells => leads_of_ok rfl ⟨t, tells, rfl, rfl⟩)
    fun _ _ tells => tells)

end Grammar

/-- Apart from branches that failed, the journal of a source holds the normalization and then, in
order, what there is to report of each declaration that was read. It ends with the totals when and
only when the source is accepted. -/
theorem journal_accounts_for_declarations (policy : Policy) (source : String) :
    let b := Buffer.ofSource source
    let rounds := sourceHistory policy source
    let groups := rounds.flatMap Round.reports
    let result := (readSource policy source).1
    let reports := (readSource policy source).2.reports
    (∀ before r after, rounds = before ++ r :: after →
      (r.redeclares = true ↔ ∃ name, r.Declares name ∧ ∃ earlier ∈ before, earlier.Declares name)) ∧
    (∀ d, result = .ok d →
      reports = .normalized b.size :: groups ++ [.complete d.interface.size d.scope.size] ∧
      d = (rounds.map Round.declaration).foldl Declared.add .nothing ∧
      d.interface.size = groups.countP Event.isMethod ∧
      d.scope.size + groups.countP Event.isReplacement = groups.countP Event.isMessage) ∧
    (∀ e, result = .error e → reports = .normalized b.size :: groups) ∧
    ∀ s e t, Grammar.declaration policy b s = (.error e, t) → t.reports = s.reports := by
  intro b rounds groups result reports
  let start : State Declared := (State.initial .nothing).note (.normalized b.size)
  have told := Grammar.leads_source_told policy (s := start) (Nat.zero_le b.size)
  refine ⟨fun before r after split => Grammar.redeclares_iff split rfl, fun d accepted => ?_,
    fun e refused => ?_, fun s e t ran => ?_⟩
  · obtain ⟨u, tells, rfl, last⟩ := told.of_ok (Prod.ext accepted rfl)
    have ended : (readSource policy source).2 = _ := last
    have closing : reports = _ := congrArg State.reports ended
    rw [State.reports_note, tells.reports] at closing
    exact ⟨closing, tells.held, tells.methods.trans (Nat.zero_add _),
      tells.messages.trans (Nat.zero_add _)⟩
  · exact (told.of_error (Prod.ext refused rfl)).reports
  · exact ((Grammar.announces_declaration policy b s).of_error ran).reports

/-- The second message replaces the first, and a bare word begins like a method that breaks off. A
method behind them that names what is not there ends the run without a report. -/
theorem journal_accounts_for_declarations_of_replacement :
    let accepted := "message A\x7bx:y,x:z\x7d message A\x7b\x7d method m(A)->A; methodq"
    let refused := accepted ++ " method n(B)->A;"
    let groups : List Event :=
      [.messageParsed "A" 1, .redeclared "A", .messageParsed "A" 0, .methodParsed "m" "A" "A",
        .bareSkipped "methodq"]
    (∃ d, (readSource .lenient accepted).1 = .ok d ∧
      (readSource .lenient accepted).2.reports = .normalized 54 :: groups ++ [.complete 1 1] ∧
      d.interface.size = 1 ∧ d.scope.size + 1 = 2) ∧
    ∃ e, (readSource .lenient refused).1 = .error e ∧
      (readSource .lenient refused).2.reports = .normalized 70 :: groups := by
  intro accepted refused groups
  have told : (sourceHistory .lenient accepted).flatMap Round.reports = groups := by decide +kernel
  have told' : (sourceHistory .lenient refused).flatMap Round.reports = groups := by decide +kernel
  have size : (Buffer.ofSource accepted).size = 54 := by decide +kernel
  have size' : (Buffer.ofSource refused).size = 70 := by decide +kernel
  have reads : (readSource .lenient accepted).1.isOk = true := by decide +kernel
  have fails : (readSource .lenient refused).1.isOk = false := by decide +kernel
  constructor
  · match read : (readSource .lenient accepted).1 with
    | .error e =>
      rw [read] at reads
      cases reads
    | .ok d =>
      obtain ⟨closing, _, methods, messages⟩ :=
        (journal_accounts_for_declarations .lenient accepted).2.1 d read
      rw [told] at closing methods messages
      have one : d.interface.size = 1 := methods
      have two : d.scope.size + 1 = 2 := messages
      have left : d.scope.size = 1 := Nat.succ.inj two
      rw [size, one, left] at closing
      exact ⟨d, rfl, closing, one, two⟩
  · match read : (readSource .lenient refused).1 with
    | .ok d =>
      rw [read] at fails
      cases fails
    | .error e =>
      have closing := (journal_accounts_for_declarations .lenient refused).2.2.1 e read
      rw [told', size'] at closing
      exact ⟨e, rfl, closing⟩

end RpcSchema
