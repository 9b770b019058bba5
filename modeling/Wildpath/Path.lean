import Wildpath.Text.Basic

/-!
# Paths

A path is written text taken apart: how it is anchored and its parts. Empty parts and `.` are
dropped when text is read, `..` stays, because only the file system can tell where it leads. What
can be said without the file system is said here: joining, the lexical normal form, the absolute
form for a working directory, and the way from one path to another.
-/

set_option autoImplicit false

namespace Wildpath

/-- Exactly two leading slashes are kept apart from one; three or more count as one. -/
inductive Anchor where
  | relative
  | top
  | doubleTop
  deriving DecidableEq

def Anchor.text : Anchor → Text
  | .relative => []
  | .top => ['/']
  | .doubleTop => ['/', '/']

def Anchor.ofText : Text → Anchor
  | '/' :: '/' :: '/' :: _ => .top
  | '/' :: '/' :: _ => .doubleTop
  | '/' :: _ => .top
  | _ => .relative

structure Path where
  anchor : Anchor
  parts : List Text
  deriving DecidableEq

namespace Path

def ofText (s : Text) : Path :=
  ⟨.ofText s, (Text.fields '/' s).filter fun part => part ≠ [] ∧ part ≠ selfName⟩

def text (p : Path) : Text :=
  match p.anchor, p.parts with
  | .relative, [] => selfName
  | anchor, parts => anchor.text ++ Text.joined ['/'] parts

/-- The last part; a path without parts has the empty name. -/
def name (p : Path) : Text := p.parts.getLast?.getD []

def isAnchored (p : Path) : Bool := p.anchor != .relative

def child (p : Path) (name : Text) : Path := { p with parts := p.parts ++ [name] }

/-- The second path as seen from the first one; an anchored path stands for itself. -/
def join (p q : Path) : Path :=
  if q.isAnchored then q else { p with parts := p.parts ++ q.parts }

/-- One step of the normal form, on the parts so far with the last one first: `..` takes a name
back, has no effect at the top, and stays at the front of a relative path. -/
def pushPart (anchored : Bool) (parts : List Text) (part : Text) : List Text :=
  if part = parentName then
    match parts with
    | [] => if anchored then [] else [parentName]
    | last :: before => if last = parentName then part :: parts else before
  else part :: parts

/-- The lexical normal form, in which `..` takes back the name before it. -/
def normal (p : Path) : Path :=
  { p with parts := (p.parts.foldl (pushPart p.isAnchored) []).reverse }

def anchored (cwd : List Text) (p : Path) : Path :=
  if p.isAnchored then p else ⟨.top, cwd ++ p.parts⟩

def absolute (cwd : List Text) (p : Path) : Path := (p.anchored cwd).normal

/-- The names of the absolute form, after the empty name of the top. -/
def splitAbsolute (cwd : List Text) (p : Path) : List Text := [] :: (p.absolute cwd).parts

/-- What is left of two lists when their common front is taken off. -/
def dropCommon : List Text → List Text → List Text × List Text
  | a :: as, b :: bs => if a = b then dropCommon as bs else (a :: as, b :: bs)
  | as, bs => (as, bs)

/-- The lexical way from `base` to the path: up to the last common directory, then down. -/
def relativeTo (cwd : List Text) (p base : Path) : Path :=
  let (down, up) := dropCommon (p.absolute cwd).parts (base.absolute cwd).parts
  ⟨.relative, List.replicate up.length parentName ++ down⟩

/-- The path moved up a number of directories, in normal form. -/
def ascend (p : Path) (count : Nat) : Path :=
  normal { p with parts := p.parts ++ List.replicate count parentName }

end Path
end Wildpath
