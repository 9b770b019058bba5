import Wildpath.Ignore.Rule

/-!
# What ignore rules say of a path

A glob is tried from the start of the path, each atom with its choices in order: as much as it can
take first. The first way that reaches the ending counts, and it tells whether the ending was the
slash after a directory. A rule that covers the path without that slash settles the matter; of
these the last one does, and only where there is none the last of the others.
-/

set_option autoImplicit false

namespace Wildpath.Ignore

/-- The ends of a text after its first characters of a kind, as many as possible first. -/
def afterRun (kind : Char → Bool) : Text → List Text
  | [] => [[]]
  | c :: rest => if kind c then afterRun kind rest ++ [c :: rest] else [c :: rest]

/-- The same, after one character at least. -/
def afterSome (kind : Char → Bool) : Text → List Text
  | [] => []
  | c :: rest => if kind c then afterRun kind rest else []

/-- The ends after each slash of the first line. -/
def afterSlashes : Text → List Text
  | [] => []
  | '/' :: rest => rest :: afterSlashes rest
  | '\n' :: _ => []
  | _ :: rest => afterSlashes rest

/-- What may be left of a text after an atom, in the order in which it is tried. Directories and
names that are passed over lie on one line. -/
def Atom.rests : Atom → Text → List Text
  | .leading, s =>
    match s with
    | [] => [[]]
    | c :: rest => if c = '\n' then [s] else (afterSlashes rest).reverse ++ [s]
  | .between, s =>
    match s with
    | '/' :: rest => afterSome (· ≠ '\n') rest ++ [s]
    | s => [s]
  | .slash, s => match s with | '/' :: rest => [rest] | _ => []
  | .wholeName, s => afterSome (· ≠ '/') s
  | .stretch, s => afterRun (· ≠ '/') s
  | .anyChar, s => match s with | c :: rest => if c = '/' then [] else [rest] | [] => []
  | .oneOf cls, s => match s with | c :: rest => if cls.contains c then [rest] else [] | [] => []
  | .char d, s => match s with | c :: rest => if c = d then [rest] else [] | [] => []

/-- Does the text begin as the ending asks, and does that show a directory? A line feed may follow
the end of the path. -/
def Ending.check : Ending → Text → Option Bool
  | .directory, '/' :: _ => some true
  | .below, '/' :: _ => some false
  | .whole, '/' :: _ => some true
  | .whole, [] => some false
  | .whole, ['\n'] => some false
  | _, _ => none

/-- The first way through the atoms to the ending, and whether it shows a directory. -/
def firstWay (ending : Ending) : List Atom → Text → Option Bool
  | [], s => ending.check s
  | atom :: rest, s => (atom.rests s).findSome? (firstWay ending rest)

/-- Whether the rule covers the path, and if so, whether by a directory. -/
def Shape.covers (path : Text) : Shape → Option Bool
  | .anything => if path.all (· = '\n') then none else some false
  | .anySlash directory => if path.contains '/' then some directory else none
  | .glob atoms ending => firstWay ending atoms path

/-- A path below the directory of the rules may be written with a slash or `./` in front. -/
def withoutLead : Text → Text
  | '/' :: rest => rest
  | '.' :: '/' :: rest => rest
  | path => path

/-- Is the path, with a slash at its end if it is a directory, ignored? -/
def isIgnored (rules : List Rule) (path : Text) : Bool :=
  let last (way : Bool) : Option Rule :=
    rules.reverse.find? fun rule => rule.shape.covers (withoutLead path) == some way
  match last false, last true with
  | some rule, _ => rule.ignores
  | none, some rule => rule.ignores
  | none, none => false

end Wildpath.Ignore
