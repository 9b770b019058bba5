import Wildpath.FileSystem.Lookup

/-!
# Changing the file system

Nodes are written, removed and added where paths lead. Writing follows links to the end. Removing
and adding stop before the last name, so a link at the end of a path is itself removed or replaced.
-/

set_option autoImplicit false

namespace Wildpath.FileSystem

/-- Writes a file: one that exists gets new bytes, one that does not is made if its directory
exists and its name is proper. -/
def write (fs : FileSystem) (cwd : List Text) (p : Path) (bytes : List UInt8) :
    Except FileError FileSystem :=
  match fs.place cwd p with
  | .error refusal => .error ⟨refusal, p.text⟩
  | .ok (.vacant loc) =>
    if loc.all isName then .ok (fs.put loc ⟨.file bytes, false, false⟩)
    else .error ⟨.missing, p.text⟩
  | .ok (.occupied loc) =>
    match fs.node? loc with
    | none => .error ⟨.missing, p.text⟩
    | some ⟨.directory, _, _⟩ => .error ⟨.isDirectory, p.text⟩
    | some ⟨.link _, _, _⟩ => .error ⟨.tooManyLinks, p.text⟩
    | some ⟨.file _, denied, veiled⟩ =>
      if denied then .error ⟨.denied, p.text⟩ else .ok (fs.put loc ⟨.file bytes, denied, veiled⟩)

/-- Where names lead when a link at their end is not followed. -/
def siteOf (fs : FileSystem) (names : List Text) : Except Refusal Place :=
  match names.getLast? with
  | none => .ok (.occupied [])
  | some name =>
    match fs.walk maxLinks [] names.dropLast with
    | .error refusal => .error refusal
    | .ok (.vacant _) => .error .missing
    | .ok (.occupied loc) =>
      if !fs.isDirectory loc then .error .notDirectory
      else if name = parentName then .ok (.occupied loc.dropLast)
      else match fs.node? (loc ++ [name]) with
        | none => .ok (.vacant (loc ++ [name]))
        | some _ => .ok (.occupied (loc ++ [name]))

/-- Where a path leads when a link at its end is not followed. -/
def site (fs : FileSystem) (cwd : List Text) (p : Path) : Except Refusal Place :=
  let names := (p.anchored cwd).parts
  if names.any (·.contains '\x00') then .error .nulInPath else fs.siteOf names

/-- Removes what a written path names, with everything below it. -/
def remove (fs : FileSystem) (cwd : List Text) (written : Text) : Except FileError FileSystem :=
  if written = [] then .error ⟨.missing, written⟩
  else match fs.site cwd (Path.ofText written) with
    | .ok (.occupied loc) => .ok (fs.cut loc)
    | .ok (.vacant _) => .error ⟨.missing, written⟩
    | .error refusal => .error ⟨refusal, written⟩

/-- Makes the directories that are missing on the way to the last name. -/
def makeParents (fs : FileSystem) (names : List Text) : FileSystem :=
  (List.range names.length).foldl (fun fs n =>
    match fs.walk maxLinks [] (names.take n) with
    | .ok (.vacant loc) => fs.put loc .emptyDirectory
    | _ => fs) fs

/-- Adds a node and the directories that lead to it. A directory that is added again keeps what is
in it; anything else is replaced. -/
def add (fs : FileSystem) (cwd : List Text) (p : Path) (node : Node) :
    Except FileError FileSystem :=
  let fs := fs.makeParents (p.anchored cwd).parts
  match fs.site cwd p with
  | .error refusal => .error ⟨refusal, p.text⟩
  | .ok (.vacant loc) => .ok (fs.put loc node)
  | .ok (.occupied loc) =>
    if node.isDirectory && fs.isDirectory loc then .ok (fs.put loc node)
    else .ok ((fs.cut loc).put loc node)

end Wildpath.FileSystem
