import Wildpath.Pattern.Component

/-!
# Which rows of names match a pattern

The names on the way to an entry match the segments of a pattern if they are cut into consecutive
runs, one for every segment: any run for `**`, one name for any other segment. A name that is not
free may be hidden, and then neither `**` nor a wildcard takes it.

A matcher that reads the names from the left has, after each name, some segments left to match. What
it has read matches the segments before those; where the next one is a `**` it may also match them
together with that `**`, which stays in place.
-/

set_option autoImplicit false

namespace Wildpath

/-- A name on the way to an entry. The names of the search's own root are free of the rule for
hidden names, and so are all names when hidden names are allowed. -/
structure Waypoint where
  name : Text
  free : Bool

def waypoints (free : Bool) (names : List Text) : List Waypoint := names.map (⟨·, free⟩)

/-- May `**` span the name? -/
def Waypoint.Spanned (w : Waypoint) : Prop := w.free = true ∨ Text.startsHidden w.name = false

instance (w : Waypoint) : Decidable w.Spanned := inferInstanceAs (Decidable (_ ∨ _))

theorem Waypoint.spanned_iff {name : Text} {free : Bool} :
    (⟨name, free⟩ : Waypoint).Spanned ↔ (free || !Text.startsHidden name) = true := by
  simp [Spanned]

namespace Pattern

inductive Matches : List Pattern → List Waypoint → Prop where
  | nil : Matches [] []
  | globstar {run way : List Waypoint} {segments : List Pattern} :
    (∀ w ∈ run, w.Spanned) → Matches segments way → Matches (.globstar :: segments) (run ++ way)
  | anchor {w : Waypoint} {way : List Waypoint} {segments : List Pattern} :
    Matches segments way → Matches (.anchor w.name :: segments) (w :: way)
  | component {pieces : List Pattern} {w : Waypoint} {way : List Waypoint}
    {segments : List Pattern} : acceptsName w.free pieces w.name = true → Matches segments way →
    Matches (.component pieces :: segments) (w :: way)

namespace Matches

theorem nil_iff {way : List Waypoint} : Matches [] way ↔ way = [] := by
  constructor
  · rintro ⟨⟩
    rfl
  · rintro rfl
    exact .nil

theorem globstar_iff {segments : List Pattern} {way : List Waypoint} :
    Matches (.globstar :: segments) way ↔
      ∃ run rest, way = run ++ rest ∧ (∀ w ∈ run, w.Spanned) ∧ Matches segments rest := by
  constructor
  · intro h
    cases h with
    | @globstar run rest _ spanned h => exact ⟨run, rest, rfl, spanned, h⟩
  · rintro ⟨run, rest, rfl, spanned, h⟩
    exact .globstar spanned h

theorem globstar_cons_iff {segments : List Pattern} {w : Waypoint} {way : List Waypoint} :
    Matches (.globstar :: segments) (w :: way) ↔
      Matches segments (w :: way) ∨ w.Spanned ∧ Matches (.globstar :: segments) way := by
  rw [globstar_iff, globstar_iff]
  constructor
  · rintro ⟨run, rest, same, spanned, h⟩
    cases run with
    | nil =>
      obtain rfl : w :: way = rest := same
      exact Or.inl h
    | cons v run =>
      obtain ⟨rfl, rfl⟩ := List.cons.inj same
      obtain ⟨first, others⟩ := List.forall_mem_cons.mp spanned
      exact Or.inr ⟨first, run, rest, rfl, others, h⟩
  · rintro (h | ⟨first, run, rest, rfl, others, h⟩)
    · exact ⟨[], w :: way, rfl, by simp, h⟩
    · exact ⟨w :: run, rest, rfl, List.forall_mem_cons.mpr ⟨first, others⟩, h⟩

theorem anchor_cons_iff {name : Text} {segments : List Pattern} {w : Waypoint}
    {way : List Waypoint} :
    Matches (.anchor name :: segments) (w :: way) ↔ w.name = name ∧ Matches segments way := by
  constructor
  · intro h
    cases h with
    | anchor h => exact ⟨rfl, h⟩
  · rintro ⟨rfl, h⟩
    exact .anchor h

theorem component_cons_iff {pieces segments : List Pattern} {w : Waypoint}
    {way : List Waypoint} :
    Matches (.component pieces :: segments) (w :: way) ↔
      acceptsName w.free pieces w.name = true ∧ Matches segments way := by
  constructor
  · intro h
    cases h with
    | component accepted h => exact ⟨accepted, h⟩
  · rintro ⟨accepted, h⟩
    exact .component accepted h

theorem nil_right_iff {segments : List Pattern} :
    Matches segments [] ↔ segments.all isGlobstar = true := by
  induction segments with
  | nil => simp [nil_iff]
  | cons segment segments ih =>
    cases segment with
    | globstar =>
      rw [globstar_iff, List.all_cons, isGlobstar, Bool.true_and, ← ih]
      constructor
      · rintro ⟨run, rest, same, -, h⟩
        obtain ⟨rfl, rfl⟩ := List.append_eq_nil_iff.mp same.symm
        exact h
      · exact fun h => ⟨[], [], rfl, by simp, h⟩
    | _ =>
      refine iff_of_false ?_ (by simp [isGlobstar])
      rintro ⟨⟩

theorem append_iff {before after : List Pattern} {way : List Waypoint} :
    Matches (before ++ after) way ↔
      ∃ front back, way = front ++ back ∧ Matches before front ∧ Matches after back := by
  constructor
  · intro h
    induction before generalizing way with
    | nil => exact ⟨[], way, rfl, .nil, h⟩
    | cons segment before ih =>
      rw [List.cons_append] at h
      generalize whole : segment :: (before ++ after) = segments at h
      cases h with
      | nil => cases whole
      | @globstar run rest _ spanned h =>
        obtain ⟨rfl, rfl⟩ := List.cons.inj whole
        obtain ⟨front, back, rfl, left, right⟩ := ih h
        exact ⟨run ++ front, back, by simp, .globstar spanned left, right⟩
      | anchor h =>
        obtain ⟨rfl, rfl⟩ := List.cons.inj whole
        obtain ⟨front, back, rfl, left, right⟩ := ih h
        exact ⟨_ :: front, back, rfl, .anchor left, right⟩
      | component accepted h =>
        obtain ⟨rfl, rfl⟩ := List.cons.inj whole
        obtain ⟨front, back, rfl, left, right⟩ := ih h
        exact ⟨_ :: front, back, rfl, .component accepted left, right⟩
  · rintro ⟨front, back, rfl, left, right⟩
    induction left with
    | nil => exact right
    | globstar spanned _ ih =>
      rw [List.append_assoc]
      exact .globstar spanned ih
    | anchor _ ih => exact .anchor ih
    | component accepted _ ih => exact .component accepted ih

end Matches

/-- What is left to match of a pattern after some names. -/
inductive Leaves (pattern : List Pattern) : List Waypoint → List Pattern → Prop where
  | start : Leaves pattern [] pattern
  | aside {way : List Waypoint} {segments : List Pattern} :
    Leaves pattern way (.globstar :: segments) → Leaves pattern way segments
  | span {way : List Waypoint} {w : Waypoint} {segments : List Pattern} : w.Spanned →
    Leaves pattern way (.globstar :: segments) → Leaves pattern (way ++ [w]) (.globstar :: segments)
  | anchor {way : List Waypoint} {w : Waypoint} {segments : List Pattern} :
    Leaves pattern way (.anchor w.name :: segments) → Leaves pattern (way ++ [w]) segments
  | component {way : List Waypoint} {w : Waypoint} {pieces segments : List Pattern} :
    acceptsName w.free pieces w.name = true → Leaves pattern way (.component pieces :: segments) →
    Leaves pattern (way ++ [w]) segments

/-- The names match what comes before the segments that are left, perhaps with the `**` that is
next and stays. -/
def MatchesUpTo (pattern : List Pattern) (way : List Waypoint) (left : List Pattern) : Prop :=
  ∃ before, pattern = before ++ left ∧
    (Matches before way ∨
      ∃ after, left = .globstar :: after ∧ Matches (before ++ [.globstar]) way)

theorem MatchesUpTo.take {pattern left : List Pattern} {way : List Waypoint} {segment : Pattern}
    {w : Waypoint} (h : MatchesUpTo pattern way (segment :: left)) (named : ¬ segment = .globstar)
    (own : Matches [segment] [w]) : MatchesUpTo pattern (way ++ [w]) left := by
  obtain ⟨before, rfl, h | ⟨after, same, -⟩⟩ := h
  · refine ⟨before ++ [segment], by simp, Or.inl ?_⟩
    exact Matches.append_iff.mpr ⟨way, [w], rfl, h, own⟩
  · exact absurd (List.cons.inj same).1 named

theorem MatchesUpTo.span {pattern left : List Pattern} {way : List Waypoint} {w : Waypoint}
    (h : MatchesUpTo pattern way (.globstar :: left)) (spanned : w.Spanned) :
    MatchesUpTo pattern (way ++ [w]) (.globstar :: left) := by
  obtain ⟨before, rfl, h⟩ := h
  refine ⟨before, rfl, Or.inr ⟨left, rfl, ?_⟩⟩
  have run : ∃ front run, way = front ++ run ∧ Matches before front ∧ ∀ w ∈ run, w.Spanned := by
    rcases h with h | ⟨-, -, h⟩
    · exact ⟨way, [], by simp, h, by simp⟩
    · obtain ⟨front, back, rfl, first, second⟩ := Matches.append_iff.mp h
      obtain ⟨run, rest, rfl, all, h⟩ := Matches.globstar_iff.mp second
      obtain rfl := Matches.nil_iff.mp h
      exact ⟨front, run, by simp, first, all⟩
  obtain ⟨front, run, rfl, first, all⟩ := run
  refine Matches.append_iff.mpr ⟨front, run ++ [w], by simp, first, ?_⟩
  refine Matches.globstar_iff.mpr ⟨run ++ [w], [], by simp, ?_, .nil⟩
  intro v member
  rcases List.mem_append.mp member with member | member
  · exact all v member
  · rwa [List.mem_singleton.mp member]

theorem Leaves.matchesUpTo {pattern left : List Pattern} {way : List Waypoint}
    (h : Leaves pattern way left) : MatchesUpTo pattern way left := by
  induction h with
  | start => exact ⟨[], rfl, Or.inl .nil⟩
  | @aside way segments _ ih =>
    obtain ⟨before, same, h⟩ := ih
    refine ⟨before ++ [.globstar], by simp [same], Or.inl ?_⟩
    rcases h with h | ⟨-, -, h⟩
    · refine Matches.append_iff.mpr ⟨way, [], by simp, h, ?_⟩
      exact Matches.nil_right_iff.mpr rfl
    · exact h
  | span spanned _ ih => exact ih.span spanned
  | anchor _ ih => exact ih.take (by simp) (.anchor .nil)
  | component accepted _ ih => exact ih.take (by simp) (.component accepted .nil)

theorem Leaves.matches {pattern left : List Pattern} {way : List Waypoint}
    (h : Leaves pattern way left) (ended : left.all isGlobstar = true) : Matches pattern way := by
  obtain ⟨before, same, read | ⟨after, rfl, read⟩⟩ := h.matchesUpTo
  · rw [same]
    exact Matches.append_iff.mpr ⟨way, [], by simp, read, Matches.nil_right_iff.mpr ended⟩
  · rw [same]
    have rest : Matches after [] := Matches.nil_right_iff.mpr (by simpa [isGlobstar] using ended)
    have whole : Matches (before ++ [.globstar] ++ after) way :=
      Matches.append_iff.mpr ⟨way, [], by simp, read, rest⟩
    simpa using whole

end Pattern
end Wildpath
