import Wildpath.Proofs.Grammar
import Wildpath.Proofs.Opening

/-!
# Patterns joined by a separator

Two patterns with a separator between them are a pattern again, whose segments are those of the first
followed by those of the second. The second one must be relative and must not go up, since `..` may
only lead a pattern. A search for the joined pattern starts where a search for the first one starts.
-/

set_option autoImplicit false

namespace Wildpath

namespace Pattern

theorem head?_join {s t : Text} {c : Char} (filled : s ≠ []) : (s ++ c :: t).head? = s.head? := by
  cases s with
  | nil => exact absurd rfl filled
  | cons => rfl

theorem WrittenNames.join {s t : Text} {names names' : List Text} {c : Char}
    (h : WrittenNames s names) (separates : isSeparator c = true) (h' : WrittenNames t names') :
    WrittenNames (s ++ c :: t) (names ++ names') := by
  induction h with
  | nil => exact .separator separates h'
  | separator first _ ih => exact .separator first ih
  | @name name rest names filled inside ended _ ih =>
    rw [List.append_assoc, List.cons_append]
    refine .name filled inside ?_ ih
    cases rest with
    | nil => simpa using separates
    | cons => simpa using ended

theorem essential_append (names names' : List Text) :
    essential (names ++ names') = essential names ++ essential names' :=
  List.filter_append names names'

/-- A pattern that neither is anchored nor goes up has a segment for every name that counts. -/
theorem Written.forall₂_of_still {s : Text} {segments : List Pattern} (h : Written s segments)
    (relative : isAnchored segments = false) (still : parent ∉ segments) :
    ∃ names, WrittenNames s names ∧ parentName ∉ names ∧
      List.Forall₂ WrittenSegment (essential names) segments := by
  cases h with
  | anchored => cases relative
  | @relative _ names below ups segments _ _ named essentials absent written =>
    cases ups with
    | succ ups => exact absurd List.mem_cons_self still
    | zero =>
      rw [List.replicate_zero, List.nil_append] at essentials
      rw [List.replicate_zero, List.nil_append]
      rw [← essentials] at absent written
      exact ⟨names, named, mt parentName_mem_essential_iff.mpr absent, written⟩

theorem Written.join {p q : Text} {front back : List Pattern} {c : Char} (h : Written p front)
    (separates : isSeparator c = true) (h' : Written q back) (relative : isAnchored back = false)
    (still : parent ∉ back) : Written (p ++ c :: q) (front ++ back) := by
  obtain ⟨names', named', absent', written'⟩ := h'.forall₂_of_still relative still
  cases h with
  | @relative _ names below ups segments filled unanchored named essentials absent written =>
    rw [List.append_assoc]
    refine @Written.relative _ _ (below ++ essential names') ups _ (by simp)
      (by rwa [head?_join filled]) (named.join separates named') ?_ ?_
      (List.rel_append written written')
    · rw [essential_append, essentials, List.append_assoc]
    · rw [List.mem_append, not_or, parentName_mem_essential_iff]
      exact ⟨absent, absent'⟩
  | @anchored first s names segments anchors named absent written =>
    refine .anchored anchors (named.join separates named') ?_ ?_
    · rw [List.mem_append, not_or]
      exact ⟨absent, absent'⟩
    · rw [essential_append]
      exact List.rel_append written written'

theorem parse_join {p q : Text} {front back : List Pattern} (first : parse p = .ok front)
    (second : parse q = .ok back) (relative : isAnchored back = false) (still : parent ∉ back) :
    parse (p ++ '/' :: q) = .ok (front ++ back) :=
  parse_eq_ok_iff_written.mpr <| (parse_eq_ok_iff_written.mp first).join rfl
    (parse_eq_ok_iff_written.mp second) relative still

theorem isParent_iff {segment : Pattern} : segment.isParent = true ↔ segment = parent := by
  unfold isParent parent
  split <;> simp_all

end Pattern

namespace Search

open Pattern (isAnchored parent)

variable {front back : List Pattern}

theorem ascents_of_still (still : parent ∉ back) : ascents back = 0 := by
  cases back with
  | nil => rfl
  | cons segment back =>
    have other : segment.isParent = false := by
      rw [Bool.eq_false_iff, Ne, Pattern.isParent_iff]
      rintro rfl
      exact still List.mem_cons_self
    simp [ascents, other]

theorem ascents_append (stays : ascents back = 0) : ascents (front ++ back) = ascents front := by
  induction front with
  | nil => exact stays
  | cons segment front ih =>
    unfold ascents at ih ⊢
    rw [List.cons_append, List.takeWhile_cons, List.takeWhile_cons]
    split
    · rw [List.length_cons, List.length_cons, ih]
    · rfl

theorem ascents_le_length (segments : List Pattern) : ascents segments ≤ segments.length :=
  (List.takeWhile_sublist _).length_le

theorem isAnchored_join (relative : isAnchored front = false) (relative' : isAnchored back = false) :
    isAnchored (front ++ back) = false := by
  cases front with
  | nil => exact relative'
  | cons segment front =>
    cases segment with
    | anchor => cases relative
    | _ => rfl

section Relative
variable (relative : isAnchored front = false)
include relative

theorem baseNames_relative (cwd : List Text) (root : Path) : baseNames cwd root front = [] := by
  simp [baseNames, relative]

theorem base_of_still (still : parent ∉ front) (cwd : List Text) (root : Path) :
    base cwd root front = root := by
  simp [base, relative, ascents_of_still still]

theorem remaining_of_still (still : parent ∉ front) : remaining front = front := by
  simp [remaining, relative, ascents_of_still still]

variable (relative' : isAnchored back = false) (still : parent ∉ back)
include relative' still

theorem base_join (cwd : List Text) (root : Path) :
    base cwd root (front ++ back) = base cwd root front := by
  simp [base, isAnchored_join relative relative', relative, ascents_append (ascents_of_still still)]

theorem remaining_join : remaining (front ++ back) = remaining front ++ back := by
  have same : ascents (front ++ back) = ascents front := ascents_append (ascents_of_still still)
  simp only [remaining, isAnchored_join relative relative', relative, same, Bool.false_eq_true,
    if_false]
  exact List.drop_append_of_le_length (ascents_le_length front)

end Relative
end Search
end Wildpath
