import Wildpath.Pattern.Bracket
import Wildpath.Pattern.Fault

/-!
# Reading patterns

A pattern is cut at its separators first, so no bracket or brace reaches across one. Components
`.` vanish, `..` may only lead a relative pattern, `**` alone spans directories, and any other
component is read piece by piece. Reading goes from left to right and stops at the first fault.
-/

set_option autoImplicit false

namespace Wildpath.Pattern

def isSeparator (c : Char) : Bool := c == '/' || c == '\\'

/-- The longest runs without a separator, each with the position of its first character. -/
def runs (position : Nat) : Text → List (Nat × Text)
  | [] => []
  | c :: rest =>
    if isSeparator c then runs (position + 1) rest
    else match runs (position + 1) rest with
      | [] => [(position, [c])]
      | (start, run) :: more =>
        if start = position + 1 then (position, c :: run) :: more
        else (position, [c]) :: (start, run) :: more

/-- Neighbouring characters make one text. -/
def consChar (c : Char) : List Pattern → List Pattern
  | .text value :: rest => .text (c :: value) :: rest
  | pieces => .text [c] :: pieces

/-- A run of stars makes one star. -/
def consStar : List Pattern → List Pattern
  | .star :: rest => .star :: rest
  | pieces => .star :: pieces

/-- Reads the class after an opening bracket at the given position: the class, the length of what
was read, and what follows. -/
def readClass (position : Nat) (s : Text) : Except (Fault.Kind × Nat) (CharClass × Text) :=
  let (inverted, inner) := Bracket.inversion s
  let start := position + 1 + (s.length - inner.length)
  let (body, after) := Bracket.split inner
  match (Bracket.located start body).find? fun r => r.2.2 < r.2.1 with
  | some (offence, low, high) => .error (.reversedRange low high, offence)
  | none =>
    match after with
    | none => .error (.unterminatedClass, position)
    | some rest => .ok (⟨Bracket.ranges body, inverted⟩, rest)

def readSet (position : Nat) (s : Text) : Except (Fault.Kind × Nat) (List Text × Text) :=
  let body := s.takeWhile (· ≠ '}')
  match s.dropWhile (· ≠ '}') with
  | [] => .error (.unterminatedSet, position)
  | _ :: rest =>
    if body.contains '{' then
      .error (.nestedSet, position + 1 + (body.takeWhile (· ≠ '{')).length)
    else .ok (Text.fields ',' body, rest)

theorem length_of_readClass {position : Nat} {s rest : Text} {cls : CharClass}
    (h : readClass position s = .ok (cls, rest)) : rest.length < s.length := by
  simp only [readClass] at h
  split at h
  · cases h
  · split at h
    · cases h
    · next after heq =>
      cases h
      have hs := Bracket.length_of_split heq
      have hi := Bracket.length_of_inversion s
      omega

theorem length_of_readSet {position : Nat} {s rest : Text} {items : List Text}
    (h : readSet position s = .ok (items, rest)) : rest.length < s.length := by
  have hle : (s.dropWhile (· ≠ '}')).length ≤ s.length := (List.dropWhile_sublist _).length_le
  simp only [readSet] at h
  split at h
  · cases h
  · next after heq =>
    split at h
    · cases h
    · cases h
      rw [heq] at hle
      simp at hle
      omega

def readPieces (position : Nat) (s : Text) : Except (Fault.Kind × Nat) (List Pattern) :=
  match s with
  | [] => .ok []
  | '*' :: rest => consStar <$> readPieces (position + 1) rest
  | '?' :: rest => (.anyChar :: ·) <$> readPieces (position + 1) rest
  | '[' :: inner =>
    match h : readClass position inner with
    | .error fault => .error fault
    | .ok (cls, rest) =>
      have := length_of_readClass h
      (.charClass cls :: ·) <$> readPieces (position + 1 + (inner.length - rest.length)) rest
  | '{' :: inner =>
    match h : readSet position inner with
    | .error fault => .error fault
    | .ok (items, rest) =>
      have := length_of_readSet h
      (.oneOf items :: ·) <$> readPieces (position + 1 + (inner.length - rest.length)) rest
  | c :: rest => consChar c <$> readPieces (position + 1) rest
termination_by s.length

/-- Reads the components. `leading` says whether only `.` and `..` came before, in a relative
pattern. -/
def readSegments (leading : Bool) :
    List (Nat × Text) → Except (Fault.Kind × Nat) (List Pattern)
  | [] => .ok []
  | (start, name) :: more =>
    if name = selfName then readSegments leading more
    else if name = parentName then
      if leading then (parent :: ·) <$> readSegments true more
      else .error (.misplacedParent, start)
    else if name = ['*', '*'] then (.globstar :: ·) <$> readSegments false more
    else do
      let pieces ← readPieces start name
      return .component pieces :: (← readSegments false more)

/-- The segments of a whole pattern, without the pattern's text in the fault. -/
def read (s : Text) : Except (Fault.Kind × Nat) (List Pattern) :=
  match s with
  | [] => .error (.empty, 0)
  | c :: _ =>
    if isSeparator c then (.anchor [] :: ·) <$> readSegments false (runs 0 s)
    else readSegments true (runs 0 s)

def parse (s : Text) : Except Fault (List Pattern) :=
  (read s).mapError fun (kind, position) => ⟨kind, s, position⟩

end Wildpath.Pattern
