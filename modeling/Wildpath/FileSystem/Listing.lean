import Wildpath.FileSystem.Lookup
import Wildpath.Pattern.Hint

/-!
# Listing directories

An entry is what a search visits. Listing a directory gives its entries in the order of their
names; links are not followed, so no link is a directory, and a node that does not tell its type
is left out. Only the root of a search is followed through links.
-/

set_option autoImplicit false

namespace Wildpath

structure Entry where
  path : Path
  name : Text
  isDirectory : Bool
  /-- The number of names below the root of the search. -/
  depth : Nat
  deriving DecidableEq

namespace FileSystem

/-- The entry at the root of a search, if the path leads anywhere. -/
def rootEntry (fs : FileSystem) (cwd : List Text) (p : Path) : Option Entry :=
  match fs.resolve cwd p with
  | .ok loc => some ⟨p, p.name, fs.isDirectory loc, 0⟩
  | .error _ => none

def childEntry (directory : Entry) (name : Text) (node : Node) : Entry :=
  ⟨directory.path.child name, name, node.isDirectory, directory.depth + 1⟩

/-- The children of a directory whose names the hint admits. -/
def children (fs : FileSystem) (cwd : List Text) (directory : Entry) (hint : Option Text) :
    Except FileError (List Entry) :=
  match fs.resolve cwd directory.path with
  | .error refusal => .error ⟨refusal, directory.path.text⟩
  | .ok loc =>
    match fs.node? loc with
    | none => .error ⟨.missing, directory.path.text⟩
    | some node =>
      if !node.isDirectory then .error ⟨.notDirectory, directory.path.text⟩
      else if node.denied then .error ⟨.denied, directory.path.text⟩
      else
        let admitted := (fs.entries loc).filter fun (name, node) =>
          (hint.all (Pattern.Hint.admits · name)) && !node.veiled
        .ok (admitted.map fun (name, node) => childEntry directory name node)

end FileSystem
end Wildpath
