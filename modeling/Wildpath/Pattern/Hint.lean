import Wildpath.Pattern.Component

/-!
# Listing hints

A hint is a flat pattern of `*`, `?` and characters for themselves. It narrows a listing and never
decides a match.
-/

set_option autoImplicit false

namespace Wildpath.Pattern

/-- The pieces of a name as one flat text, if none of them is a class or a set. -/
def flat? : List Pattern → Option Text
  | [] => some []
  | .star :: rest => ('*' :: ·) <$> flat? rest
  | .anyChar :: rest => ('?' :: ·) <$> flat? rest
  | .text value :: rest => (value ++ ·) <$> flat? rest
  | _ :: _ => none

/-- The hint for a segment. That of `**` stands for one of the names it spans. -/
def hint? : Pattern → Option Text
  | .anchor name => some name
  | .globstar => some ['*']
  | .component pieces => flat? pieces
  | _ => none

namespace Hint

/-- For every end of the name, the longest first: does the hint admit it? -/
def verdicts : Text → Text → List Bool
  | [], name => (ends name).map List.isEmpty
  | '*' :: rest, name => ((ends (verdicts rest name)).map (·.any id)).take (name.length + 1)
  | '?' :: rest, name => (verdicts rest name).drop 1 ++ [false]
  | c :: rest, name =>
    List.zipWith (fun d later => d = c && later) name ((verdicts rest name).drop 1) ++ [false]

def admits (hint name : Text) : Bool := (verdicts hint name).headD false

end Hint
end Wildpath.Pattern
