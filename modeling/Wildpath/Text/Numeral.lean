import Wildpath.Text.Blank

/-!
# Decimal numerals

A numeral is a sign or none and digits, with blanks around it. Digits of every script count, and a
single underscore may stand between two digits. The table of digits is that of version 14 of the
character database, in which the ten digits of a script are consecutive.
-/

set_option autoImplicit false

namespace Wildpath.Text

/-- The code points of the digits zero. -/
def zeros : List Nat :=
  [0x30, 0x660, 0x6f0, 0x7c0, 0x966, 0x9e6, 0xa66, 0xae6, 0xb66, 0xbe6, 0xc66, 0xce6, 0xd66, 0xde6,
   0xe50, 0xed0, 0xf20, 0x1040, 0x1090, 0x17e0, 0x1810, 0x1946, 0x19d0, 0x1a80, 0x1a90, 0x1b50,
   0x1bb0, 0x1c40, 0x1c50, 0xa620, 0xa8d0, 0xa900, 0xa9d0, 0xa9f0, 0xaa50, 0xabf0, 0xff10, 0x104a0,
   0x10d30, 0x11066, 0x110f0, 0x11136, 0x111d0, 0x112f0, 0x11450, 0x114d0, 0x11650, 0x116c0,
   0x11730, 0x118e0, 0x11950, 0x11c50, 0x11d50, 0x11da0, 0x16a60, 0x16ac0, 0x16b50, 0x1d7ce,
   0x1d7d8, 0x1d7e2, 0x1d7ec, 0x1d7f6, 0x1e140, 0x1e2f0, 0x1e950, 0x1fbf0]

/-- The value of a decimal digit. -/
def digit? (c : Char) : Option Nat :=
  (zeros.find? fun z => z ≤ c.toNat && c.toNat < z + 10).map (c.toNat - ·)

/-- The longest numeral that is read. -/
def maxDigits : Nat := 4300

/-- Digits with at most one underscore between neighbours, none at the ends. -/
def digits? : Text → Option (List Nat)
  | [] => none
  | [c] => (digit? c).map ([·])
  | c :: '_' :: rest => do return (← digit? c) :: (← digits? rest)
  | c :: d :: rest => do return (← digit? c) :: (← digits? (d :: rest))

def natural? (s : Text) : Option Nat := do
  let ds ← digits? s
  guard (ds.length ≤ maxDigits)
  return ds.foldl (fun n d => 10 * n + d) 0

/-- A blank around a numeral. The four separators U+001C to U+001F are blanks elsewhere, not here. -/
def isPadding (c : Char) : Bool :=
  isBlank c && !(0x1c ≤ c.toNat && c.toNat ≤ 0x1f)

def integer? (s : Text) : Option Int :=
  match ((s.dropWhile isPadding).reverse.dropWhile isPadding).reverse with
  | '+' :: rest => (natural? rest).map Int.ofNat
  | '-' :: rest => (natural? rest).map fun n => -Int.ofNat n
  | rest => (natural? rest).map Int.ofNat

end Wildpath.Text
