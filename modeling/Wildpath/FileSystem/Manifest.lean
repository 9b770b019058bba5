import Wildpath.FileSystem.Change
import Wildpath.Text.Blank

/-!
# File systems from lists of paths

A file system is built by adding nodes in their order, from nothing but the working directory. In a
manifest every line is a path: one that ends in a slash is a directory, any other an empty file.
-/

set_option autoImplicit false

namespace Wildpath.FileSystem

def addAll (fs : FileSystem) (cwd : List Text) :
    List (Path × Node) → Except FileError FileSystem
  | [] => .ok fs
  | (p, node) :: rest => do (← fs.add cwd p node).addAll cwd rest

/-- The file system with the working directory and the given nodes, added in their order. -/
def ofNodes (cwd : List Text) (nodes : List (Path × Node)) : Except FileError FileSystem :=
  empty.addAll cwd ((⟨.relative, []⟩, .emptyDirectory) :: nodes)

/-- The path that a line of a manifest gives, and what stands there. -/
def nodeOfLine (line : Text) : Path × Node :=
  (Path.ofText line,
    if line.getLast? = some '/' then .emptyDirectory else ⟨.file [], false, false⟩)

def ofManifest (cwd : List Text) (s : Text) : Except FileError FileSystem :=
  ofNodes cwd (((Text.lines s).filter (· ≠ [])).map nodeOfLine)

end Wildpath.FileSystem
