/-!
# Text

A text is the list of its characters, so that positions and lengths count characters and every
function on text is a recursion over a list. Strings appear only where text enters or leaves the
program.
-/

set_option autoImplicit false

namespace Wildpath

abbrev Text := List Char

namespace Text

/-- The pieces between the occurrences of a character; a text without it is one piece. -/
def fields (sep : Char) : Text → List Text
  | [] => [[]]
  | c :: rest =>
    if c = sep then [] :: fields sep rest
    else match fields sep rest with
      | [] => [[c]]
      | first :: more => (c :: first) :: more

theorem fields_ne_nil (sep : Char) (s : Text) : fields sep s ≠ [] := by
  cases s with
  | nil => simp [fields]
  | cons c rest =>
    by_cases h : c = sep
    · simp [fields, h]
    · simp only [fields, h, if_false]
      split <;> simp

/-- The pieces with a separator between neighbours. -/
def joined (sep : Text) : List Text → Text
  | [] => []
  | [piece] => piece
  | piece :: more => piece ++ sep ++ joined sep more

theorem joined_fields (sep : Char) (s : Text) : joined [sep] (fields sep s) = s := by
  induction s with
  | nil => rfl
  | cons c rest ih =>
    by_cases h : c = sep
    · cases hf : fields sep rest with
      | nil => exact absurd hf (fields_ne_nil sep rest)
      | cons first more => simp_all [fields, joined]
    · cases hf : fields sep rest with
      | nil => exact absurd hf (fields_ne_nil sep rest)
      | cons first more =>
        cases more <;> simp_all [fields, joined]

/-- Texts in the order of their code points. -/
def ordered : Text → Text → Bool
  | [], _ => true
  | _ :: _, [] => false
  | a :: as, b :: bs => a.toNat < b.toNat || a == b && ordered as bs

/-- A number in the given base, with at least the given number of digits. -/
def ofNat (base width n : Nat) : Text :=
  let digits := Nat.toDigits base n
  List.replicate (width - digits.length) '0' ++ digits

def startsHidden (name : Text) : Bool := name.head? == some '.'

end Text

/-- What stands for the directory above. -/
def parentName : Text := ['.', '.']

/-- What stands for the directory itself. -/
def selfName : Text := ['.']

end Wildpath
