import Mathlib.Data.List.Permutation
import Wildpath.Proofs.Canonical
import Wildpath.Proofs.Component

/-!
# Names that begin with a dot

Where hidden names are not allowed, a component has to spell out the dot at the start of a name. Only
its first piece is asked, and it is asked before the name is cut. For characters that stand for
themselves this comes to the same: they are the text that the piece covers. A set may answer with one
item and cover the empty text with another one, and then any piece that comes next takes the dot.
This is the only way in which a wildcard reaches a hidden name.
-/

set_option autoImplicit false

namespace Wildpath.Pattern

/-- Is every text of the piece written out in the pattern? -/
def isSpelled : Pattern → Bool
  | .text _ => true
  | .oneOf _ => true
  | _ => false

/-- The name is cut into texts, one for every piece, and the text of the first piece is written out
and begins with the dot. -/
inductive Dotted : List Pattern → Text → Prop where
  | cut {piece : Pattern} {later : List Pattern} {front back : Text} : piece.isSpelled = true →
    Text.startsHidden front = true → Covers piece front → Spells later back →
    Dotted (piece :: later) (front ++ back)

/-- The first piece is a set with an item that the name begins with, dot and all, but it covers the
empty text, and the pieces after it make up the whole name. -/
inductive StandsAside : List Pattern → Text → Prop where
  | empty {items : List Text} {later : List Pattern} {item name : Text} : item ∈ items →
    Text.startsHidden item = true → item <+: name → [] ∈ items → Spells later name →
    StandsAside (.oneOf items :: later) name

variable {later : List Pattern} {name : Text}

theorem startsHidden_append {front : Text} (ne : front ≠ []) (back : Text) :
    Text.startsHidden (front ++ back) = Text.startsHidden front := by
  cases front with
  | nil => exact absurd rfl ne
  | cons c front => rfl

theorem accepts_cons_iff {piece : Pattern} : accepts (piece :: later) name = true ↔
    ∃ front back, name = front ++ back ∧ Covers piece front ∧ Spells later back := by
  rw [accepts_iff_spells, spells_cons_iff]
  simp only [mem_rests_iff]
  constructor
  · intro h
    obtain ⟨back, ⟨front, same, covers⟩, spelled⟩ := h
    exact ⟨front, back, same, covers, spelled⟩
  · intro h
    obtain ⟨front, back, same, covers, spelled⟩ := h
    exact ⟨back, ⟨front, same, covers⟩, spelled⟩

theorem accepts_of_dotted {pieces : List Pattern} (h : Dotted pieces name) :
    accepts pieces name = true := by
  cases h with
  | @cut piece later front back _ _ covers spelled =>
    exact accepts_cons_iff.mpr ⟨front, back, rfl, covers, spelled⟩

theorem accepts_of_standsAside {pieces : List Pattern} (h : StandsAside pieces name) :
    accepts pieces name = true := by
  cases h with
  | empty _ _ _ none spelled => exact accepts_cons_iff.mpr ⟨[], name, rfl, none, spelled⟩

/-- What the first piece is asked agrees with what it covers, unless it is a set that stands aside. -/
theorem asked_and_accepts_iff {piece : Pattern} (hidden : Text.startsHidden name = true) :
    (spellsDot piece name && accepts (piece :: later) name) = true ↔
      Dotted (piece :: later) name ∨ StandsAside (piece :: later) name := by
  rw [Bool.and_eq_true_iff]
  constructor
  · intro h
    obtain ⟨asked, accepted⟩ := h
    obtain ⟨front, back, rfl, covers, spelled⟩ := accepts_cons_iff.mp accepted
    cases piece with
    | text value =>
      have same : front = value := covers
      exact Or.inl (.cut rfl (same ▸ asked) covers spelled)
    | oneOf items =>
      by_cases none : front = []
      · obtain ⟨item, member, dotted⟩ := List.any_eq_true.mp asked
        obtain ⟨dotted, begins⟩ := Bool.and_eq_true_iff.mp dotted
        rw [none] at covers begins ⊢
        exact Or.inr (.empty member dotted (List.isPrefixOf_iff_prefix.mp begins) covers spelled)
      · rw [startsHidden_append none] at hidden
        exact Or.inl (.cut rfl hidden covers spelled)
    | _ => cases asked
  · intro h
    rcases h with dotted | aside
    · refine ⟨?_, accepts_of_dotted dotted⟩
      cases dotted with
      | @cut _ _ front back written dotted covers _ =>
        cases piece with
        | text value =>
          obtain rfl : front = value := covers
          exact dotted
        | oneOf items =>
          apply List.any_eq_true.mpr
          refine ⟨front, covers, ?_⟩
          rw [dotted, Bool.true_and]
          exact List.isPrefixOf_iff_prefix.mpr (List.prefix_append front back)
        | _ => cases written
    · refine ⟨?_, accepts_of_standsAside aside⟩
      cases aside with
      | @empty items _ item _ member dotted begins =>
        apply List.any_eq_true.mpr
        refine ⟨item, member, ?_⟩
        rw [dotted, Bool.true_and]
        exact List.isPrefixOf_iff_prefix.mpr begins

/-- Where hidden names are not allowed, other names are accepted as they are elsewhere. A hidden name
is accepted where the first piece spells out the dot in the cut itself, and where the first piece is a
set that spells it out with one item and stands aside with an empty one. -/
theorem acceptsName_hidden (pieces : List Pattern) (name : Text) :
    (Text.startsHidden name = false →
      acceptsName false pieces name = acceptsName true pieces name) ∧
    (Text.startsHidden name = true →
      (acceptsName false pieces name = true ↔
        Dotted pieces name ∨ StandsAside pieces name)) := by
  constructor
  · intro shown
    simp [acceptsName, shown]
  · intro hidden
    cases pieces with
    | nil =>
      apply iff_of_false
      · simp [acceptsName, hidden]
      · intro h
        rcases h with h | h <;> cases h
    | cons piece later =>
      rw [← asked_and_accepts_iff hidden]
      simp [acceptsName, hidden]

theorem acceptsName_hidden_sample :
    acceptsName false [.oneOf ["x".toList, ".g".toList], .star] ".git".toList = true ∧
      acceptsName false [.star] "git".toList = acceptsName true [.star] "git".toList := by
  have dotted : Dotted [.oneOf ["x".toList, ".g".toList], .star] (".g".toList ++ "it".toList) := by
    apply Dotted.cut rfl (by decide)
    · simp [Covers]
    · exact accepts_iff_spells.mp (by decide)
  refine ⟨?_, (acceptsName_hidden [.star] "git".toList).1 (by decide)⟩
  exact ((acceptsName_hidden _ ".git".toList).2 (by decide)).mpr (Or.inl dotted)

/-- A set that stands aside leaves the dot to the `?` behind it: the name is accepted, though in no cut
of it the set spells out the dot. -/
theorem acceptsName_standing_aside :
    parse "{,.g}?g".toList =
        .ok [.component [.oneOf [[], ".g".toList], .anyChar, .text "g".toList]] ∧
      acceptsName false [.oneOf [[], ".g".toList], .anyChar, .text "g".toList] ".g".toList = true ∧
      ¬ Dotted [.oneOf [[], ".g".toList], .anyChar, .text "g".toList] ".g".toList := by
  have apart : ∀ name, Dotted [.oneOf [[], ".g".toList], .anyChar, .text "g".toList] name →
      name ≠ ".g".toList := by
    intro name h whole
    cases h with
    | @cut _ _ front back _ dotted covers spelled =>
      have item : front = [] ∨ front = ".g".toList := by simpa [Covers] using covers
      rcases item with rfl | rfl
      · cases dotted
      · -- the item is the whole name, so nothing is left for the pieces after it
        obtain rfl : back = [] := List.append_right_eq_self.mp whole
        have refused : accepts [.anyChar, .text "g".toList] [] = false := by decide
        rw [accepts_iff_spells.mpr spelled] at refused
        cases refused
  exact ⟨parse_eq_ok_iff.mpr (by cbv), by decide, fun h => apart _ h rfl⟩

end Wildpath.Pattern
