import Wildpath.Pattern.Basic

/-!
# The written form of a pattern

Writing undoes parsing up to the spelling of separators, of `.` components and of runs of stars.
-/

set_option autoImplicit false

namespace Wildpath

def CharClass.renderRange (r : Char × Char) : Text :=
  if r.1 = r.2 then [r.1] else [r.1, '-', r.2]

def CharClass.render (cls : CharClass) : Text :=
  '[' :: (if cls.inverted then ['!'] else []) ++ cls.ranges.flatMap renderRange ++ [']']

namespace Pattern

mutual

def render : Pattern → Text
  | .text value => value
  | .star => ['*']
  | .anyChar => ['?']
  | .oneOf items => '{' :: Text.joined [','] items ++ ['}']
  | .charClass cls => cls.render
  | .anchor name => name
  | .globstar => ['*', '*']
  | .component pieces => renderPieces pieces
  | .tree segments => renderSegments segments

/-- The pieces of a name stand side by side. -/
def renderPieces : List Pattern → Text
  | [] => []
  | piece :: rest => render piece ++ renderPieces rest

/-- Between segments stands a slash. -/
def renderSegments : List Pattern → Text
  | [] => []
  | [segment] => render segment
  | segment :: rest => render segment ++ '/' :: renderSegments rest

end

end Pattern
end Wildpath
