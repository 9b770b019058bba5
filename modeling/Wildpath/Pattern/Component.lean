import Wildpath.Pattern.Basic

/-!
# Matching a name against the pieces of a component

The pieces accept a name if it splits into consecutive texts, one per piece. The pieces are tried
from the first to the last, and where the later ones do not accept what is left, the piece before
them takes its next text. What was tried in vain is noted, so that no part of the name is tried
twice for one piece.
-/

set_option autoImplicit false

namespace Wildpath.Pattern

/-- The ends of a list, the longest first and the empty one last. -/
def ends {α : Type} : List α → List (List α)
  | [] => [[]]
  | a :: rest => (a :: rest) :: ends rest

/-- What is left of a text after a value, if it begins with the value. -/
def afterText (value s : Text) : List Text :=
  if value.isPrefixOf s then [s.drop value.length] else []

/-- What may be left of a text after the piece has taken its part, in the order in which it is
tried: `*` takes as little as it can first. -/
def rests (piece : Pattern) (s : Text) : List Text :=
  match piece with
  | .star => ends s
  | .anyChar => match s with | _ :: rest => [rest] | [] => []
  | .text value => afterText value s
  | .oneOf items => items.flatMap (afterText · s)
  | .charClass cls => match s with | c :: rest => if cls.contains c then [rest] else [] | [] => []
  | _ => []

/-- The failures so far, with a row for each of the pieces that are left: how many characters were
left whenever this piece and the later ones were tried in vain. -/
abbrev Failures := List (List Nat)

/-- Tries one thing after the other until one is accepted. Each trial knows the failures before. -/
def tryInTurn {α σ : Type} (attempt : α → σ → Bool × σ) : List α → σ → Bool × σ
  | [], failures => (false, failures)
  | a :: rest, failures =>
    match attempt a failures with
    | (true, failures) => (true, failures)
    | (false, failures) => tryInTurn attempt rest failures

/-- Do the pieces accept the text? The failures are those noted before, and then those after. -/
def acceptsFrom : List Pattern → Text → Failures → Bool × Failures
  | [], s, failures => (s.isEmpty, failures)
  | piece :: later, s, failures =>
    let failed := failures.headD []
    if failed.contains s.length then (false, failures)
    else
      match tryInTurn (acceptsFrom later) (piece.rests s) failures.tail with
      | (true, below) => (true, failed :: below)
      | (false, below) => (false, (s.length :: failed) :: below)

def accepts (pieces : List Pattern) (name : Text) : Bool := (acceptsFrom pieces name []).1

/-- Does the piece spell out the dot at the start of the name? -/
def spellsDot (piece : Pattern) (name : Text) : Bool :=
  match piece with
  | .text value => Text.startsHidden value
  | .oneOf items => items.any fun item => Text.startsHidden item && item.isPrefixOf name
  | _ => false

/-- Acceptance under the rule for hidden names: unless they are allowed, the first piece has to
spell out the dot. -/
def acceptsName (hidden : Bool) (pieces : List Pattern) (name : Text) : Bool :=
  if !hidden && Text.startsHidden name then
    match pieces with
    | [] => false
    | first :: _ => spellsDot first name && accepts pieces name
  else accepts pieces name

end Wildpath.Pattern
