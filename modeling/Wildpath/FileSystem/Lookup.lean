import Wildpath.FileSystem.Basic
import Wildpath.Text.Quoted

/-!
# Lookup

Where a path leads. Links are followed, `..` goes to the directory above the one that was reached,
and a name may only follow a directory.
-/

set_option autoImplicit false

namespace Wildpath

inductive Refusal where
  | missing
  | denied
  | notDirectory
  | isDirectory
  | tooManyLinks
  /-- A path with the character NUL never reaches the file system. -/
  | nulInPath
  deriving DecidableEq

structure FileError where
  refusal : Refusal
  /-- The path as it was given. -/
  written : Text

/-- The number and the wording of a refusal by the file system. -/
def Refusal.described : Refusal → Option (Nat × String)
  | .missing => some (2, "No such file or directory")
  | .denied => some (13, "Permission denied")
  | .notDirectory => some (20, "Not a directory")
  | .isDirectory => some (21, "Is a directory")
  | .tooManyLinks => some (40, "Too many levels of symbolic links")
  | .nulInPath => none

/-- An error with its number, about a path as it was given. -/
def numbered (code : Nat) (wording : String) (written : Text) : Text :=
  "[Errno ".toList ++ Text.ofNat 10 1 code ++ "] ".toList ++ wording.toList ++ ": ".toList
    ++ written.quoted

def FileError.message (e : FileError) : Text :=
  match e.refusal.described with
  | some (code, wording) => numbered code wording e.written
  | none => "embedded null byte".toList

/-- Where a path leads: to a node, or to a name that is free in an existing directory. -/
inductive Place where
  | occupied (loc : Location)
  | vacant (loc : Location)

namespace FileSystem

def maxLinks : Nat := 40

/-- Follows names from a location on, through at most the given number of links. -/
def walk (fs : FileSystem) (links : Nat) (start : Location) (names : List Text) :
    Except Refusal Place :=
  match names with
  | [] => .ok (.occupied start)
  | name :: rest =>
    if !fs.isDirectory start then .error .notDirectory
    else if name = parentName then fs.walk links start.dropLast rest
    else match fs.node? (start ++ [name]) with
      | none => if rest = [] then .ok (.vacant (start ++ [name])) else .error .missing
      | some ⟨.link target, _, _⟩ =>
        match links with
        | 0 => .error .tooManyLinks
        | links + 1 =>
          let target := Path.ofText target
          fs.walk links (if target.isAnchored then [] else start) (target.parts ++ rest)
      | some _ => fs.walk links (start ++ [name]) rest
termination_by (links, names.length)

def place (fs : FileSystem) (cwd : List Text) (p : Path) : Except Refusal Place :=
  let names := (p.anchored cwd).parts
  if names.any (·.contains '\x00') then .error .nulInPath
  else fs.walk maxLinks [] names

def resolve (fs : FileSystem) (cwd : List Text) (p : Path) : Except Refusal Location :=
  match fs.place cwd p with
  | .ok (.occupied loc) => .ok loc
  | .ok (.vacant _) => .error .missing
  | .error refusal => .error refusal

def leadsToDirectory (fs : FileSystem) (cwd : List Text) (p : Path) : Bool :=
  match fs.resolve cwd p with
  | .ok loc => fs.isDirectory loc
  | .error _ => false

/-- What a written path leads to. An empty one leads nowhere. -/
def contentAt? (fs : FileSystem) (cwd : List Text) (written : Text) : Option Content :=
  if written = [] then none
  else match fs.resolve cwd (Path.ofText written) with
    | .ok loc => (fs.node? loc).map (·.content)
    | .error _ => none

def bytesAt (fs : FileSystem) (cwd : List Text) (p : Path) :
    Except FileError (List UInt8) :=
  match fs.resolve cwd p with
  | .error refusal => .error ⟨refusal, p.text⟩
  | .ok loc =>
    match fs.node? loc with
    | none => .error ⟨.missing, p.text⟩
    | some ⟨.directory, _, _⟩ => .error ⟨.isDirectory, p.text⟩
    | some ⟨.link _, _, _⟩ => .error ⟨.tooManyLinks, p.text⟩
    | some ⟨.file bytes, denied, _⟩ => if denied then .error ⟨.denied, p.text⟩ else .ok bytes

end FileSystem
end Wildpath
