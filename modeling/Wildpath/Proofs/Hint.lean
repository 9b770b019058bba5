import Wildpath.Pattern.Hint
import Wildpath.Proofs.Component
import Wildpath.Proofs.Canonical

/-!
# What a hint admits

A hint is read as a flat pattern, and it fits every name that its segment may take. Hints of
segments that were read have no bracket.
-/

set_option autoImplicit false

namespace Wildpath.Pattern

namespace Hint

/-- `*` stands for any text, `?` for any character, and every other character for itself. -/
inductive Fits : Text → Text → Prop where
  | nil : Fits [] []
  | star (front : Text) {hint back : Text} : Fits hint back → Fits ('*' :: hint) (front ++ back)
  | anyChar (c : Char) {hint back : Text} : Fits hint back → Fits ('?' :: hint) (c :: back)
  | char {c : Char} {hint back : Text} : c ≠ '*' → c ≠ '?' → Fits hint back →
    Fits (c :: hint) (c :: back)

theorem fits_nil_iff {name : Text} : Fits [] name ↔ name = [] := by
  constructor
  · rintro ⟨⟩
    rfl
  · rintro rfl
    exact .nil

theorem fits_star_iff {hint name : Text} :
    Fits ('*' :: hint) name ↔ ∃ front back, name = front ++ back ∧ Fits hint back := by
  constructor
  · intro h
    cases h with
    | @star front _ back h => exact ⟨front, back, rfl, h⟩
    | char ne => exact absurd rfl ne
  · rintro ⟨front, back, rfl, h⟩
    exact .star front h

theorem fits_anyChar_iff {hint name : Text} :
    Fits ('?' :: hint) name ↔ ∃ c back, name = c :: back ∧ Fits hint back := by
  constructor
  · intro h
    cases h with
    | @anyChar c _ back h => exact ⟨c, back, rfl, h⟩
    | char _ ne => exact absurd rfl ne
  · rintro ⟨c, back, rfl, h⟩
    exact .anyChar c h

theorem fits_char_iff {c : Char} {hint name : Text} (notStar : c ≠ '*') (notAny : c ≠ '?') :
    Fits (c :: hint) name ↔ ∃ back, name = c :: back ∧ Fits hint back := by
  constructor
  · intro h
    cases h with
    | star => exact absurd rfl notStar
    | anyChar => exact absurd rfl notAny
    | @char _ _ back _ _ h => exact ⟨back, rfl, h⟩
  · rintro ⟨back, rfl, h⟩
    exact .char notStar notAny h

theorem admits_nil (name : Text) : admits [] name = name.isEmpty := by
  simp only [admits, verdicts, headD_map_ends]

/-- The row of a star: at every end of the name, is there a later end that the rest admits? -/
theorem take_map_ends (later : Text → Bool) (name : Text) :
    ((ends ((ends name).map later)).map (·.any id)).take (name.length + 1) =
      (ends name).map fun s => ((ends s).map later).any id := by
  induction name with
  | nil => simp [ends]
  | cons c name ih =>
    simp only [ends, List.map_cons, List.length_cons, List.take_succ_cons, ih]

theorem map_ends_eq_cons (later : Text → Bool) (name : Text) :
    (ends name).map later = later name :: ((ends name).map later).drop 1 := by
  rw [ends_eq_cons]
  rfl

theorem drop_map_ends (later : Text → Bool) (name : Text) :
    ((ends name).map later).drop 1 ++ [false] =
      (ends name).map fun s => match s with
        | [] => false
        | _ :: back => later back := by
  induction name with
  | nil => rfl
  | cons c name ih =>
    simp only [ends, List.map_cons, List.drop_succ_cons, List.drop_zero, ← ih]
    rw [map_ends_eq_cons later name]
    rfl

theorem zipWith_map_ends (c : Char) (later : Text → Bool) (name : Text) :
    List.zipWith (fun d later => d = c && later) name (((ends name).map later).drop 1) ++ [false] =
      (ends name).map fun s => match s with
        | [] => false
        | d :: back => d = c && later back := by
  induction name with
  | nil => rfl
  | cons d name ih =>
    simp only [ends, List.map_cons, List.drop_succ_cons, List.drop_zero, ← ih]
    rw [map_ends_eq_cons later name]
    rfl

def row (c : Char) (later : Text → Bool) (s : Text) : Bool :=
  if c = '*' then ((ends s).map later).any id
  else match s with
    | [] => false
    | d :: back => (c = '?' || d = c) && later back

theorem verdicts_cons {c : Char} {hint : Text}
    (rest : ∀ s, verdicts hint s = (ends s).map (admits hint)) (name : Text) :
    verdicts (c :: hint) name = (ends name).map (row c (admits hint)) := by
  by_cases star : c = '*'
  · subst star
    rw [verdicts, rest, take_map_ends]
    rfl
  · by_cases any : c = '?'
    · subst any
      rw [verdicts, rest, drop_map_ends]
      refine List.map_congr_left fun s _ => ?_
      cases s <;> simp [row]
    · rw [verdicts, rest, zipWith_map_ends]
      · refine List.map_congr_left fun s _ => ?_
        cases s <;> simp [row, star, any]
      · exact star
      · exact any

theorem verdicts_eq_map (hint name : Text) :
    verdicts hint name = (ends name).map (admits hint) := by
  induction hint generalizing name with
  | nil => exact List.map_congr_left fun s _ => (admits_nil s).symm
  | cons c hint ih =>
    rw [verdicts_cons ih]
    refine List.map_congr_left fun s _ => ?_
    rw [admits, verdicts_cons ih, headD_map_ends]

theorem admits_cons (c : Char) (hint name : Text) :
    admits (c :: hint) name = row c (admits hint) name := by
  rw [admits, verdicts_cons (verdicts_eq_map hint), headD_map_ends]

theorem admits_iff_fits {hint name : Text} : admits hint name = true ↔ Fits hint name := by
  induction hint generalizing name with
  | nil => rw [admits_nil, List.isEmpty_iff, fits_nil_iff]
  | cons c hint ih =>
    rw [admits_cons]
    unfold row
    split
    · next star =>
      subst star
      simp only [any_map_ends, ih, fits_star_iff]
    · next notStar =>
      by_cases any : c = '?'
      · subst any
        rw [fits_anyChar_iff]
        cases name with
        | nil => simp
        | cons d name =>
          simp only [decide_true, Bool.true_or, Bool.true_and, ih]
          constructor
          · exact fun h => ⟨d, name, rfl, h⟩
          · rintro ⟨_, _, ⟨⟩, h⟩
            exact h
      · rw [fits_char_iff notStar any]
        cases name with
        | nil => simp
        | cons d name =>
          simp only [any, decide_false, Bool.false_or, Bool.and_eq_true, decide_eq_true_eq, ih]
          constructor
          · rintro ⟨rfl, h⟩
            exact ⟨name, rfl, h⟩
          · rintro ⟨_, ⟨⟩, h⟩
            exact ⟨rfl, h⟩

/-- A text fits itself: a character of a hint stands at least for itself. -/
theorem fits_append {value hint back : Text} (h : Fits hint back) :
    Fits (value ++ hint) (value ++ back) := by
  induction value with
  | nil => exact h
  | cons c value ih =>
    by_cases star : c = '*'
    · subst star
      exact .star ['*'] ih
    · by_cases any : c = '?'
      · subst any
        exact .anyChar '?' ih
      · exact .char star any ih

theorem fits_self (name : Text) : Fits name name := by
  simpa using @fits_append name [] [] .nil

end Hint

theorem fits_of_spells {pieces : List Pattern} {name hint : Text} (h : Spells pieces name)
    (flat : flat? pieces = some hint) : Hint.Fits hint name := by
  induction h generalizing hint with
  | nil =>
    cases flat
    exact .nil
  | @cons piece pieces front back covers _ ih =>
    cases piece with
    | star =>
      obtain ⟨later, flat', rfl⟩ := Option.map_eq_some_iff.mp flat
      exact .star front (ih flat')
    | anyChar =>
      obtain ⟨later, flat', rfl⟩ := Option.map_eq_some_iff.mp flat
      obtain ⟨c, rfl⟩ := covers
      exact .anyChar c (ih flat')
    | text value =>
      obtain ⟨later, flat', rfl⟩ := Option.map_eq_some_iff.mp flat
      obtain rfl : front = value := covers
      exact Hint.fits_append (ih flat')
    | _ => cases flat

theorem accepts_of_acceptsName {hidden : Bool} {pieces : List Pattern} {name : Text}
    (h : acceptsName hidden pieces name = true) : accepts pieces name = true := by
  unfold acceptsName at h
  split at h
  · split at h
    · cases h
    · exact (Bool.and_eq_true_iff.mp h).2
  · exact h

theorem bracket_notMem_flat {pieces : List Pattern} {hint : Text}
    (plain : ∀ piece ∈ pieces, PlainPiece piece) (flat : flat? pieces = some hint) : '[' ∉ hint := by
  fun_induction flat? pieces generalizing hint with
  | case1 =>
    cases flat
    simp
  | case2 pieces ih =>
    obtain ⟨later, flat', rfl⟩ := Option.map_eq_some_iff.mp flat
    simpa using ih (List.forall_mem_cons.mp plain).2 flat'
  | case3 pieces ih =>
    obtain ⟨later, flat', rfl⟩ := Option.map_eq_some_iff.mp flat
    simpa using ih (List.forall_mem_cons.mp plain).2 flat'
  | case4 value pieces ih =>
    obtain ⟨later, flat', rfl⟩ := Option.map_eq_some_iff.mp flat
    obtain ⟨own, rest⟩ := List.forall_mem_cons.mp plain
    intro member
    rcases List.mem_append.mp member with member | member
    · have := own '[' member
      cases this
    · exact ih rest flat' member
  | case5 => cases flat

theorem bracket_notMem_hint {segment : Pattern} (canonical : CanonicalSegment segment) {hint : Text}
    (h : segment.hint? = some hint) : '[' ∉ hint := by
  cases segment with
  | anchor name =>
    obtain rfl : name = [] := canonical
    cases h
    simp
  | globstar =>
    cases h
    simp
  | component pieces => exact bracket_notMem_flat canonical h
  | _ => cases canonical

end Wildpath.Pattern
