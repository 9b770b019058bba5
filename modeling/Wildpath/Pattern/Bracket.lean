import Wildpath.Pattern.Basic

/-!
# Between brackets

How a class of characters is spelled after its opening bracket: an inversion mark or none, then a
body that ends at the first closing bracket that is not its first character. In the body `c-d` is a
range wherever a character follows the dash, and every other character stands for itself. Patterns
and ignore rules share this spelling.
-/

set_option autoImplicit false

namespace Wildpath.Bracket

/-- Takes the inversion mark off. -/
def inversion : Text → Bool × Text
  | '!' :: rest => (true, rest)
  | '^' :: rest => (true, rest)
  | s => (false, s)

/-- The body and what follows its closing bracket, or `none` if no bracket closes it. -/
def split : Text → Text × Option Text
  | [] => ([], none)
  | first :: rest =>
    (first :: rest.takeWhile (· ≠ ']'),
      match rest.dropWhile (· ≠ ']') with
      | [] => none
      | _ :: after => some after)

/-- The ranges of a body, each with the position of its first character. -/
def located (position : Nat) : Text → List (Nat × Char × Char)
  | [] => []
  | low :: '-' :: high :: rest => (position, low, high) :: located (position + 3) rest
  | c :: rest => (position, c, c) :: located (position + 1) rest

def ranges (body : Text) : List (Char × Char) := (located 0 body).map (·.2)

theorem length_of_split {s rest : Text} (h : (split s).2 = some rest) :
    rest.length < s.length := by
  cases s with
  | nil => simp [split] at h
  | cons first tail =>
    have hle := (List.dropWhile_sublist (· ≠ ']') (l := tail)).length_le
    simp only [split] at h
    split at h
    · cases h
    · next after heq =>
      cases h
      rw [heq] at hle
      simp only [List.length_cons] at hle ⊢
      omega

theorem length_of_inversion (s : Text) : (inversion s).2.length ≤ s.length := by
  unfold inversion
  split <;> simp

end Wildpath.Bracket
