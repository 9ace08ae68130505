import RpcSchema.Command

/-! What a run of the program in a directory leaves. What goes wrong is said of a file that is in
fact like that, and then nothing is written. A path leads to the file at the end of its names, so
the command that shows normal forms writes the normal form of what is there. -/
namespace RpcSchema

namespace FileTree

variable {tree : FileTree} {names : List String} {bytes : ByteArray}

theorem mem_entries_of_bytes? (found : tree.bytes? names = some bytes) :
    (names, Entry.file bytes) ∈ tree.entries := by
  obtain ⟨⟨path, entry⟩, member, here⟩ := List.exists_of_findSome?_eq_some found
  cases entry with
  | directory => cases here
  | file content =>
    dsimp only at here
    split at here
    · next same =>
      cases here
      rwa [beq_iff_eq.1 same] at member
    · cases here

theorem isDirectory_of_bytes? {front back : List String}
    (found : tree.bytes? (front ++ back) = some bytes) (further : back ≠ []) :
    tree.isDirectory front = true := by
  have proper : (front != front ++ back) = true := by simpa using further
  refine Bool.or_eq_true_iff.2 (.inr (List.any_eq_true.2 ⟨_, mem_entries_of_bytes? found, ?_⟩))
  simp [proper]

theorem follow_eq {place rest : List String} (down : ".." ∉ rest)
    (ends : ∀ last ∈ rest.getLast?, isName last = true)
    (found : tree.bytes? (place ++ rest.filter isName) = some bytes) :
    tree.follow place rest = some (place ++ rest.filter isName) := by
  induction rest generalizing place with
  | nil => simp [follow]
  | cons name rest ih =>
    have ⟨notUp, later⟩ : ".." ≠ name ∧ ".." ∉ rest := by simpa using down
    -- A name comes at the end, so what has been gone through so far is a directory.
    have further : (name :: rest).filter isName ≠ [] := by
      have member := List.getLast_mem (List.cons_ne_nil name rest)
      have named := ends _ (List.getLast?_eq_some_getLast (List.cons_ne_nil name rest))
      exact List.ne_nil_of_mem (List.mem_filter.2 ⟨member, named⟩)
    have here := isDirectory_of_bytes? found further
    have lasts : ∀ last ∈ rest.getLast?, isName last = true := by
      intro last final
      refine ends last ?_
      rw [List.getLast?_cons, Option.mem_def.1 final]
      rfl
    cases named : isName name with
    | true =>
      rw [List.filter_cons_of_pos named, List.append_cons] at found ⊢
      rw [← ih later lasts found]
      simp [follow, here, named, Ne.symm notUp]
    | false =>
      rw [List.filter_cons_of_neg (by simp [named])] at found ⊢
      rw [← ih later lasts found]
      simp [follow, here, named]

theorem load_of_bytes? {path : String} (relative : path.startsWith "/" = false)
    (down : ".." ∉ path.splitOn "/")
    (ends : ∀ last ∈ (path.splitOn "/").getLast?, isName last = true)
    (found : tree.bytes? ((path.splitOn "/").filter isName) = some bytes) :
    tree.load path = String.fromUTF8? bytes := by
  have leads : tree.follow [] (path.splitOn "/") = some ((path.splitOn "/").filter isName) :=
    follow_eq down ends found
  simp [load, relative, leads, found]

end FileTree

/-- What went wrong is so in the files of the tree. -/
def Trouble.Fits (tree : FileTree) : Trouble → Prop
  | unreadable path => tree.load path = none
  | unwritable _ => False
  | badPolicy path => ∃ text fault, tree.load path = some text ∧
      PolicyDocument.read text = .error fault
  | unparsed failure source => ∃ text policy, tree.load source.name = some text ∧
      source.text = (Buffer.ofSource text).text ∧ (readSource policy text).1 = .error failure

namespace Command

variable {tree : FileTree} {trouble : Trouble}

theorem fits_of_policy {config : Option String} {choices : Choices}
    (failed : Id.run (policy (fun path => pure (tree.load path)) config choices) =
      .error trouble) : trouble.Fits tree := by
  cases config with
  | none => cases failed
  | some path =>
    cases loaded : tree.load path with
    | none =>
      simp only [policy, loaded, pure_bind] at failed
      cases failed
      exact loaded
    | some text =>
      simp only [policy, loaded, pure_bind] at failed
      cases read : PolicyDocument.read text with
      | ok policy =>
        rw [read] at failed
        cases failed
      | error fault =>
        rw [read] at failed
        cases failed
        exact ⟨text, fault, loaded, read⟩

theorem fits_of_parsed {policy : Policy} {path : String} {written : Interface → String}
    (failed : (parsed policy path written (tree.load path)).result = .error trouble) :
    trouble.Fits tree := by
  cases loaded : tree.load path with
  | none =>
    rw [loaded] at failed
    cases failed
    exact loaded
  | some text =>
    rw [loaded] at failed
    cases read : (SchemaReader.fresh policy).readNamed path text with
    | mk result after =>
      have named : (parsed policy path written (some text)).result = result.map written := by
        change Except.map written ((SchemaReader.fresh policy).readNamed path text).1 = _
        rw [read]
      rw [named] at failed
      cases result with
      | ok file => cases failed
      | error reason =>
        cases failed
        obtain ⟨e, rfl, refused⟩ := SchemaReader.readNamed_fresh_error read
        exact ⟨text, policy, loaded, rfl, refused⟩

theorem run_parse (load : String → Option String) (coloured : Bool) (path : String)
    (format : Format) (config : Option String) (choices : Choices) :
    Id.run (run (fun path => pure (load path)) coloured (.parse path format config choices)) =
      match Id.run (policy (fun path => pure (load path)) config choices) with
      | .error trouble => ⟨.error trouble, []⟩
      | .ok policy => parsed policy path (render coloured format) (load path) := by
  change Id.run (match Id.run (policy (fun path => pure (load path)) config choices) with
    | .error trouble => _
    | .ok policy => _) = _
  split <;> rfl

theorem fits_of_run {coloured : Bool} {command : Command}
    (failed : (Id.run (run (fun path => pure (tree.load path)) coloured command)).result =
      .error trouble) : trouble.Fits tree := by
  cases command with
  | normalize path =>
    cases loaded : tree.load path with
    | none =>
      simp only [run, loaded, pure_bind] at failed
      cases failed
      exact loaded
    | some source =>
      simp only [run, loaded, pure_bind] at failed
      cases failed
  | parse path format config choices =>
    rw [run_parse] at failed
    split at failed
    · next reason chosen =>
      cases failed
      exact fits_of_policy chosen
    · exact fits_of_parsed failed

end Command

namespace CommandLine

theorem read_normalize {path : String} (word : Word.ofArgument path = .plain path)
    (given : path ≠ "") : read ["normalize", path] = .ok ⟨0, .normalize path⟩ := by
  let pending : Given := ⟨0, none, none, none, .none, some ⟨.file, some path⟩⟩
  have named : Kind.ofWord? "normalize" = some .normalize := rfl
  have placed : Given.nothing.plain false path = .ok pending := rfl
  have settled : pending.settle = .ok ⟨0, some path, none, none, .none, none⟩ := by
    simp [pending, Given.settle, Given.store, given]
  have taken : Given.read .normalize .nothing false [path] = pending.settle := by
    simp only [Given.read, word, placed, Bool.false_eq_true, if_false]
    rfl
  have invoked : invocation .normalize 0 [path] = .ok ⟨0, .normalize path⟩ := by
    rw [invocation, taken, settled]
    rfl
  simp [read, arguments, named, invoked]

end CommandLine

namespace Outcome

variable (tree : FileTree) (coloured : Bool)

theorem inTree_of_ok {argv : List String} {invocation : Invocation}
    (read : CommandLine.read argv = .ok invocation) :
    inTree tree coloured argv = ofReport invocation.verbosity
      (Id.run (invocation.command.run (fun path => pure (tree.load path)) coloured)) := by
  simp only [inTree, ofArguments, read]
  rfl

theorem inTree_of_error {argv : List String} {usage : Usage}
    (read : CommandLine.read argv = .error usage) :
    inTree tree coloured argv = ofUsage usage := by
  simp only [inTree, ofArguments, read]
  rfl

/-- Only a command that is run and fails has the exit code 1. What it fails for is so in the files,
and nothing is written. -/
theorem is_justified (argv : List String) :
    let outcome := inTree tree coloured argv
    outcome.exitCode ≤ 2 ∧ (outcome.exitCode = 1 ↔ outcome.trouble ≠ none) ∧
      ∀ trouble, outcome.trouble = some trouble → trouble.Fits tree ∧ outcome.written = "" := by
  intro outcome
  cases read : CommandLine.read argv with
  | error usage =>
    have ended : outcome = ofUsage usage := inTree_of_error tree coloured read
    rw [ended]
    cases usage <;> simp [ofUsage, Usage.exitCode]
  | ok invocation =>
    have ended : outcome = _ := inTree_of_ok tree coloured read
    let report := Id.run (invocation.command.run (fun path => pure (tree.load path)) coloured)
    cases ran : report.result with
    | ok written =>
      rw [ended, ofReport, ran]
      simp
    | error trouble =>
      rw [ended, ofReport, ran]
      refine ⟨by simp, by simp, ?_⟩
      rintro _ ⟨⟩
      exact ⟨Command.fits_of_run ran, rfl⟩

theorem quiet {argv : List String} {command : Command}
    (read : CommandLine.read argv = .ok ⟨0, command⟩) :
    (inTree tree coloured argv).events = [] := by
  have none (events : List Event) : events.filter (·.isShown 0) = [] :=
    List.filter_eq_nil_iff.2 fun event _ => by
      simpa [Event.isShown] using Nat.ne_of_gt event.level.verbosity_pos
  rw [inTree_of_ok tree coloured read, ofReport]
  split <;> exact none _

variable {tree}

/-- The normal form of a file is shown, wherever its path leads on the way to it. -/
theorem shows_normal_form {path source : String} {bytes : ByteArray}
    (word : CommandLine.Word.ofArgument path = .plain path) (given : path ≠ "")
    (relative : path.startsWith "/" = false) (down : ".." ∉ path.splitOn "/")
    (ends : ∀ last ∈ (path.splitOn "/").getLast?, FileTree.isName last = true)
    (found : tree.bytes? ((path.splitOn "/").filter FileTree.isName) = some bytes)
    (decoded : String.fromUTF8? bytes = some source) :
    inTree tree coloured ["normalize", path] =
      ⟨0, (Buffer.ofSource source).text ++ "\n", none, []⟩ := by
  have loaded : tree.load path = some source :=
    (FileTree.load_of_bytes? relative down ends found).trans decoded
  have read : CommandLine.read ["normalize", path] = .ok ⟨0, .normalize path⟩ :=
    CommandLine.read_normalize word given
  rw [inTree_of_ok tree coloured read]
  simp only [Command.run, loaded, pure_bind]
  rfl

end Outcome

end RpcSchema
