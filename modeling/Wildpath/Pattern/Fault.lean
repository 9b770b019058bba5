import Wildpath.Text.Quoted

/-!
# Faults of a pattern

Why a pattern was refused, and the position in it that is at fault.
-/

set_option autoImplicit false

namespace Wildpath

namespace Fault

inductive Kind where
  | empty
  /-- A `..` that is not at the start of a relative pattern. -/
  | misplacedParent
  | unterminatedClass
  | reversedRange (low high : Char)
  | unterminatedSet
  | nestedSet
  /-- More or less than one name where a name is wanted. -/
  | notOneName
  deriving DecidableEq

def Kind.message : Kind → Text
  | .empty => "Empty pattern".toList
  | .misplacedParent => "'..' is only allowed at the start of a relative pattern".toList
  | .unterminatedClass => "Unterminated character class".toList
  | .reversedRange low high => "Reversed range '".toList ++ [low, '-', high, '\'']
  | .unterminatedSet => "Unterminated literal set".toList
  | .nestedSet => "Nested literal sets are not supported".toList
  | .notOneName => "Exclude pattern must be a single name pattern".toList

end Fault

structure Fault where
  kind : Fault.Kind
  pattern : Text
  position : Nat
  deriving DecidableEq

def Fault.message (f : Fault) : Text :=
  f.kind.message ++ " at position ".toList ++ Text.ofNat 10 1 f.position ++ " in pattern ".toList
    ++ f.pattern.quoted

end Wildpath
