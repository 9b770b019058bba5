import Wildpath.Text.Basic

/-!
# Patterns

A pattern is a tree: the whole pattern holds its segments, a segment that describes one name holds
the pieces that follow each other in the name. The parser builds trees of this shape only; trees
built by hand may put any node anywhere, and every function here is defined on them too.
-/

set_option autoImplicit false

namespace Wildpath

/-- A class of characters, `[a-z]` or `[!a-z]`; a single character is a range of its own. -/
structure CharClass where
  ranges : List (Char × Char)
  inverted : Bool
  deriving DecidableEq

def CharClass.contains (cls : CharClass) (c : Char) : Bool :=
  (cls.ranges.any fun r => r.1 ≤ c && c ≤ r.2) != cls.inverted

inductive Pattern where
  /-- The characters themselves. -/
  | text (value : Text)
  /-- `*`: any text within a name. -/
  | star
  /-- `?`: any one character. -/
  | anyChar
  /-- `{a,b}`: one of the items. -/
  | oneOf (items : List Text)
  | charClass (cls : CharClass)
  /-- The top of the file system, before the first name. -/
  | anchor (name : Text)
  /-- `**`: any number of whole names. -/
  | globstar
  /-- One name. -/
  | component (pieces : List Pattern)
  /-- A whole pattern, from the root to the leaf. -/
  | tree (segments : List Pattern)
  deriving Inhabited

namespace Pattern

def isGlobstar : Pattern → Bool
  | .globstar => true
  | _ => false

def isAnchored : List Pattern → Bool
  | .anchor _ :: _ => true
  | _ => false

def parent : Pattern := .component [.text parentName]

def isParent : Pattern → Bool
  | .component [.text name] => name == parentName
  | _ => false

/-- Does this node, its parts apart, accept more than one text? -/
def isMagic : Pattern → Bool
  | .star | .anyChar | .oneOf _ | .charClass _ | .globstar => true
  | _ => false

mutual

/-- The nodes of a pattern, each before its parts. -/
def walk : Pattern → List Pattern
  | .component pieces => .component pieces :: walkAll pieces
  | .tree segments => .tree segments :: walkAll segments
  | node => [node]

def walkAll : List Pattern → List Pattern
  | [] => []
  | node :: rest => walk node ++ walkAll rest

end

def isLiteral (node : Pattern) : Bool := !node.walk.any isMagic

end Pattern
end Wildpath
