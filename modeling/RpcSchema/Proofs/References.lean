import RpcSchema.Proofs.Atomicity

/-! References over runs. Declarations are read by calls one after the other, from any buffer and
past calls that fail. Whatever has been read, every reference of a method holds the body that its
name stood for when the method was declared, and where no message may be declared again it is the
body that the name stands for still. -/
namespace RpcSchema

def Method.references (m : Method) : List Reference := [m.request, m.response]

namespace Declaration

def method? : Declaration → Option Method
  | method m => some m
  | message _ _ | bare _ => none

def bodyOf? (name : String) : Declaration → Option Body
  | message declared body => if declared = name then some body else none
  | method _ | bare _ => none

end Declaration

/-- The body of the latest message of a name. -/
def latestDeclared (past : List Declaration) (name : String) : Option Body :=
  past.reverse.findSome? (Declaration.bodyOf? name)

theorem latestDeclared_append (past later : List Declaration) (name : String) :
    latestDeclared (past ++ later) name =
      (latestDeclared later name).or (latestDeclared past name) := by
  rw [latestDeclared, List.reverse_append, List.findSome?_append]
  rfl

theorem latestDeclared_singleton (declaration : Declaration) (name : String) :
    latestDeclared [declaration] name = declaration.bodyOf? name := by
  rw [latestDeclared, List.reverse_singleton, List.findSome?_singleton]

namespace Declared

theorem get?_add (d : Declared) (declaration : Declaration) (name : String) :
    (d.add declaration).scope.get? name =
      (declaration.bodyOf? name).or (d.scope.get? name) := by
  cases declaration with
  | message declared body =>
    simp only [add, OrderedMap.get?_insert, Declaration.bodyOf?, eq_comm (a := name)]
    split <;> rfl
  | method _ | bare _ => rfl

theorem methods_add (d : Declared) (declaration : Declaration) :
    (d.add declaration).interface.methods =
      d.interface.methods ++ declaration.method?.toList := by
  cases declaration with
  | method m => rfl
  | message _ _ | bare _ => exact (List.append_nil _).symm

end Declared

namespace Declaration.Fits

variable {policy : Policy} {d : Declared}

theorem get?_reference {m : Method} (fits : (Declaration.method m).Fits policy d) {r : Reference}
    (member : r ∈ m.references) : d.scope.get? r.name = some r.body := by
  have resolved : Scope.resolve d.scope r.name = some r := by
    simp only [Method.references, List.mem_cons, List.not_mem_nil, or_false] at member
    rcases member with rfl | rfl
    · exact fits.1
    · exact fits.2
  exact (Scope.resolve_name resolved).2

theorem bodyOf?_eq_none {declaration : Declaration} (fits : declaration.Fits policy d)
    (reject : policy.duplicates = .reject) {name : String} {body : Body}
    (known : d.scope.get? name = some body) : declaration.bodyOf? name = none := by
  cases declaration with
  | message declared _ =>
    have fresh : d.scope.get? declared = none := fits reject
    have other : declared ≠ name := by
      rintro rfl
      cases fresh.symm.trans known
    rw [bodyOf?, if_neg other]
  | method _ | bare _ => rfl

end Declaration.Fits

/-- What has been declared is what the declarations so far amount to. A reference is as its name
stood when its method was declared, and as it stands now if no message may be declared again. -/
structure Records (policy : Policy) (past : List Declaration) (d : Declared) : Prop where
  methods : d.interface.methods = past.filterMap Declaration.method?
  bodies : ∀ name, d.scope.get? name = latestDeclared past name
  references : ∀ before m after, past = before ++ .method m :: after → ∀ r ∈ m.references,
    latestDeclared before r.name = some r.body
  current : policy.duplicates = .reject → ∀ m, .method m ∈ past → ∀ r ∈ m.references,
    d.scope.get? r.name = some r.body

theorem records_nil (policy : Policy) : Records policy [] .nothing where
  methods := rfl
  bodies _ := rfl
  references before m after split := by simp at split
  current _ m member := by simp at member

namespace Records

variable {policy : Policy} {past : List Declaration} {d : Declared}

theorem add (records : Records policy past d) {declaration : Declaration}
    (fits : declaration.Fits policy d) :
    Records policy (past ++ [declaration]) (d.add declaration) where
  methods := by
    rw [Declared.methods_add, records.methods, List.filterMap_append]
    cases declaration <;> rfl
  bodies name := by
    rw [Declared.get?_add, latestDeclared_append, latestDeclared_singleton, records.bodies]
  references before m after split r member := by
    rcases List.eq_nil_or_concat after with rfl | ⟨init, last, rfl⟩
    -- The method is the new declaration.
    · obtain ⟨rfl, new⟩ := List.append_inj' split rfl
      cases new
      rw [← records.bodies]
      exact fits.get?_reference member
    · rw [List.concat_eq_append, ← List.cons_append, ← List.append_assoc] at split
      obtain ⟨old, _⟩ := List.append_inj' split rfl
      exact records.references before m init old r member
  current reject m member r inside := by
    rw [Declared.get?_add]
    rcases List.mem_append.1 member with old | new
    · have known := records.current reject m old r inside
      rw [fits.bodyOf?_eq_none reject known, known]
      rfl
    · rw [List.mem_singleton] at new
      subst new
      exact fits.get?_reference inside

theorem contains_reference (records : Records policy past d) {before after : List Declaration}
    {m : Method} (split : past = before ++ .method m :: after) {r : Reference}
    (member : r ∈ m.references) : d.scope.contains r.name = true := by
  have held := records.references before m after split r member
  rw [OrderedMap.contains, records.bodies, split, latestDeclared_append, held]
  cases latestDeclared (.method m :: after) r.name <;> rfl

end Records

namespace Grammar

/-- The declarations that calls read one after the other, each call from where the one before it
has ended, and the state they end in. A call that fails is passed over. -/
def calls (policy : Policy) (b : Buffer) :
    (count : Nat) → State Declared → List Declaration × State Declared
  | 0, s => ([], s)
  | count + 1, s =>
    match declaration policy b s with
    | (.ok read, s') =>
      let (rest, last) := calls policy b count s'
      (read :: rest, last)
    | (.error _, s') => calls policy b count s'

variable {policy : Policy} {b : Buffer} {s s' : State Declared}

theorem calls_of_ok {read : Declaration} (ran : declaration policy b s = (.ok read, s'))
    (count : Nat) :
    calls policy b (count + 1) s =
      (read :: (calls policy b count s').1, (calls policy b count s').2) := by
  rw [calls, ran]

theorem calls_of_error {e : Failure} (ran : declaration policy b s = (.error e, s'))
    (count : Nat) : calls policy b (count + 1) s = calls policy b count s' := by
  rw [calls, ran]

theorem calls_add (policy : Policy) (b : Buffer) (count more : Nat) (s : State Declared) :
    calls policy b (count + more) s =
      ((calls policy b count s).1 ++ (calls policy b more (calls policy b count s).2).1,
        (calls policy b more (calls policy b count s).2).2) := by
  induction count generalizing s with
  | zero => rw [Nat.zero_add, calls, List.nil_append]
  | succ count ih =>
    rw [Nat.add_right_comm]
    cases ran : declaration policy b s with
    | mk result s' =>
      cases result with
      | ok read => rw [calls_of_ok ran, calls_of_ok ran, ih, List.cons_append]
      | error e => rw [calls_of_error ran, calls_of_error ran, ih]

/-- Calls record what they read, and a call that fails leaves the records as they were. -/
theorem records_calls (count : Nat) {past : List Declaration}
    (records : Records policy past s.held) :
    Records policy (past ++ (calls policy b count s).1) (calls policy b count s).2.held := by
  induction count generalizing s past with
  | zero => simpa [calls] using records
  | succ count ih =>
    have moves := moves_declaration policy b s
    cases ran : declaration policy b s with
    | mk result s' =>
      cases result with
      | ok read =>
        obtain ⟨fits, held⟩ := moves.of_ok ran
        have next : Records policy (past ++ [read]) s'.held := by
          rw [held]
          exact records.add fits
        rw [calls_of_ok ran]
        simpa using ih next
      | error e =>
        have held : s'.held = s.held := moves.of_error ran
        rw [calls_of_error ran]
        apply ih
        rwa [held]

end Grammar

/-- Methods that have been read are kept in order, whatever is called later, and hold for their
request and response the body of the latest message of that name that was read before them. -/
theorem references_hold_latest_bodies (policy : Policy) (b : Buffer) (count : Nat) :
    let (past, s) := Grammar.calls policy b count (.initial .nothing)
    s.held.interface.methods = past.filterMap Declaration.method? ∧
    (∀ before m after, past = before ++ .method m :: after → ∀ r ∈ [m.request, m.response],
      latestDeclared before r.name = some r.body ∧ s.held.scope.contains r.name = true ∧
        (policy.duplicates = .reject → s.held.scope.get? r.name = some r.body)) ∧
    ∀ more, s.held.interface.methods <+:
      (Grammar.calls policy b (count + more) (.initial .nothing)).2.held.interface.methods := by
  have fresh : Records policy [] (State.initial Declared.nothing).held := records_nil policy
  have records := Grammar.records_calls count fresh (b := b)
  rw [List.nil_append] at records
  refine ⟨records.methods, ?_, fun more => ?_⟩
  · intro before m after split r member
    have inside : .method m ∈ (Grammar.calls policy b count (.initial .nothing)).1 := by
      rw [split]
      exact List.mem_append_right before List.mem_cons_self
    exact ⟨records.references before m after split r member,
      records.contains_reference split member,
      fun reject => records.current reject m inside r member⟩
  · have later := Grammar.records_calls more records (b := b)
    rw [Grammar.calls_add, later.methods, records.methods, List.filterMap_append]
    exact List.prefix_append _ _

end RpcSchema
