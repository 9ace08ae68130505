/-! The files below a working directory, by the names on their paths. A path is followed from the
working directory name by name; one that leaves it, or goes on behind a file, leads nowhere. -/
namespace RpcSchema

inductive Entry where
  | file (bytes : ByteArray)
  | directory

structure FileTree where
  entries : List (List String × Entry)

namespace FileTree

def isName (name : String) : Bool := name != "" && name != "."

def ofEntries (entries : List (String × Entry)) : FileTree :=
  ⟨entries.map fun (path, entry) => ((path.splitOn "/").filter isName, entry)⟩

def isDirectory (tree : FileTree) (names : List String) : Bool :=
  names.isEmpty || tree.entries.any fun (path, entry) =>
    names.isPrefixOf path &&
      (match entry with
      | .directory => true
      | .file _ => names != path)

def bytes? (tree : FileTree) (names : List String) : Option ByteArray :=
  tree.entries.findSome? fun (path, entry) =>
    match entry with
    | .file bytes => if path == names then some bytes else none
    | .directory => none

/-- The names that a path leads to from the directory `place`. -/
def follow (tree : FileTree) (place : List String) : List String → Option (List String)
  | [] => some place
  | name :: rest =>
    if !tree.isDirectory place then none
    else if !isName name then tree.follow place rest
    else if name = ".." then
      if place.isEmpty then none else tree.follow place.dropLast rest
    else tree.follow (place ++ [name]) rest

def load (tree : FileTree) (path : String) : Option String := do
  if path.startsWith "/" then none
  let names ← tree.follow [] (path.splitOn "/")
  String.fromUTF8? (← tree.bytes? names)

end FileTree

end RpcSchema
