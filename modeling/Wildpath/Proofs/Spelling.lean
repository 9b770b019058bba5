import Mathlib.Logic.Relation
import Wildpath.Proofs.Offences

/-!
# How a pattern is spelled

Two texts that are both anchored or both relative, and that have the same names beside `.`, are the
same pattern. So it makes no difference which separators are written, how many of them, and where a
`.` stands, and a text put together from two is read as the two one after the other.
-/

set_option autoImplicit false

namespace Wildpath.Pattern

/-- The names of a text, in their order. -/
def names (s : Text) : List Text := (runs 0 s).map (·.2)

/-- Does the text begin at the top? -/
def isFromTop (s : Text) : Bool := s.head?.any isSeparator

/-- One change to the spelling of a text: of a separator, or by a name that stands for nothing. -/
inductive Respelled : Text → Text → Prop where
  | separator {before after : Text} {c d : Char} : isSeparator c = true → isSeparator d = true →
    Respelled (before ++ c :: after) (before ++ d :: after)
  | repeated {before after : Text} {c d : Char} : isSeparator c = true → isSeparator d = true →
    Respelled (before ++ c :: after) (before ++ c :: d :: after)
  | closed {s : Text} {c : Char} : isSeparator c = true → Respelled s (s ++ [c])
  | inserted {before after : Text} {c d : Char} : isSeparator c = true → isSeparator d = true →
    Respelled (before ++ c :: after) (before ++ c :: '.' :: d :: after)
  | opened {s : Text} {d : Char} : isFromTop s = false → isSeparator d = true →
    Respelled s ('.' :: d :: s)

/-- A relative text whose names are all `.` or `..`. -/
structure Ascending (s : Text) : Prop where
  relative : isFromTop s = false
  dots : ∀ name ∈ names s, name = selfName ∨ name = parentName

section Names

variable {s t : Text} {c : Char}

theorem writtenNames_names (s : Text) : WrittenNames s (names s) := (writtenNames_iff 0).mpr rfl

theorem names_eq {own : List Text} (h : WrittenNames s own) : names s = own :=
  (writtenNames_iff 0).mp h

/-- A separator parts the names before it from the names after it. -/
theorem names_append (separates : isSeparator c = true) (s t : Text) :
    names (s ++ c :: t) = names s ++ names t :=
  names_eq ((writtenNames_names s).join separates (writtenNames_names t))

theorem names_separator (separates : isSeparator c = true) (s : Text) :
    names (c :: s) = names s :=
  names_eq (.separator separates (writtenNames_names s))

theorem names_self (separates : isSeparator c = true) (s : Text) :
    names ('.' :: c :: s) = selfName :: names s := by
  have alone : names ['.'] = [selfName] := rfl
  rw [← List.singleton_append, names_append separates, alone, List.singleton_append]

theorem isFromTop_append (filled : s ≠ []) (t : Text) : isFromTop (s ++ t) = isFromTop s := by
  rw [isFromTop, head?_append_of_ne_nil filled, isFromTop]

end Names

section Reading

variable {leading : Bool} {components components' : List (Nat × Text)} {segments : List Pattern}

/-- Reading names looks neither at their positions nor at those that stand for nothing. -/
theorem readSegments_congr
    (same : essential (components.map (·.2)) = essential (components'.map (·.2))) :
    readSegments leading components = .ok segments ↔
      readSegments leading components' = .ok segments := by
  have parents := iff_of_eq (congrArg (parentName ∈ ·) same)
  rw [parentName_mem_essential_iff, parentName_mem_essential_iff] at parents
  cases leading with
  | true => rw [readSegments_true_iff, readSegments_true_iff, same]
  | false => rw [readSegments_false_iff, readSegments_false_iff, same, parents]

/-- Names that do not go up may stand anywhere. -/
theorem readSegments_of_still (still : parentName ∉ components.map (·.2)) :
    readSegments leading components = .ok segments ↔
      readSegments true components = .ok segments := by
  cases leading with
  | true => rfl
  | false =>
    rw [readSegments_false_iff, readSegments_true_iff]
    constructor
    · intro h
      exact ⟨0, _, segments, rfl, mt parentName_mem_essential_iff.mp still, h.2, rfl⟩
    · intro h
      obtain ⟨ups, below, rest, whole, -, written, rfl⟩ := h
      cases ups with
      | zero =>
        obtain rfl : _ = below := whole
        exact ⟨still, written⟩
      | succ ups =>
        have first : parentName ∈ essential (components.map (·.2)) := by
          rw [whole]
          exact List.mem_cons_self
        exact absurd (parentName_mem_essential_iff.mp first) still

/-- Names that are all `.` or `..` leave nothing behind that could not go up. -/
theorem all_isParent_of_dots
    (dots : ∀ name ∈ components.map (·.2), name = selfName ∨ name = parentName)
    (h : readSegments true components = .ok segments) : segments.all isParent = true := by
  obtain ⟨ups, below, rest, whole, absent, written, rfl⟩ := readSegments_true_iff.mp h
  have none : below = [] := by
    apply List.eq_nil_iff_forall_not_mem.mpr
    intro name member
    have counts : name ∈ essential (components.map (·.2)) := by
      rw [whole]
      exact List.mem_append_right _ member
    obtain ⟨there, other⟩ := List.mem_filter.mp counts
    rcases dots name there with rfl | rfl
    · simp at other
    · exact absent member
  subst none
  cases written
  simp [isParent_iff]

/-- A row of names is accepted if its front is, and what follows may stand behind the front. -/
theorem readSegments_append_iff : readSegments leading (components ++ components') = .ok segments ↔
    ∃ front back, readSegments leading components = .ok front ∧
      readSegments (leading && front.all isParent) components' = .ok back ∧
      segments = front ++ back := by
  cases first : readSegments leading components with
  | error fault =>
    obtain ⟨earlier, run, later, own, rfl, read, refused⟩ := readSegments_eq_error_iff.mp first
    have whole : readSegments leading (earlier ++ run :: later ++ components') = .error fault :=
      readSegments_eq_error_iff.mpr
        ⟨earlier, run, later ++ components', own, by simp, read, refused⟩
    rw [whole]
    simp
  | ok front =>
    rw [readSegments_append first, map_eq_ok_iff]
    simp [eq_comm]

/-- A text that is not empty is read as the top, if it begins there, and then its names. -/
theorem parse_eq_ok_iff_names {s : Text} (filled : s ≠ [])
    (same : essential (components.map (·.2)) = essential (names s)) :
    parse s = .ok segments ↔ ∃ below, readSegments (!isFromTop s) components = .ok below ∧
      segments = (if isFromTop s then [.anchor []] else []) ++ below := by
  cases s with
  | nil => exact absurd rfl filled
  | cons c s =>
    have top : isFromTop (c :: s) = isSeparator c := rfl
    rw [parse_eq_ok_iff, read_cons, map_eq_ok_iff, top]
    simp only [readSegments_congr same, eq_comm]

end Reading

/-- Only the beginning of a text and the names that count decide how it is read. -/
theorem parse_congr {s t : Text} (filled : s ≠ []) (filled' : t ≠ [])
    (begins : isFromTop s = isFromTop t) (same : essential (names s) = essential (names t))
    {segments : List Pattern} : parse s = .ok segments ↔ parse t = .ok segments := by
  rw [parse_eq_ok_iff_names filled rfl, parse_eq_ok_iff_names filled' same, begins]

/-- A change of spelling keeps all that decides how a text is read. -/
theorem Respelled.keeps {s t : Text} (h : Respelled s t) (filled : s ≠ []) : t ≠ [] ∧
    isFromTop s = isFromTop t ∧ essential (names s) = essential (names t) := by
  cases h with
  | @separator before after c d separates separates' =>
    refine ⟨by simp, ?_, by rw [names_append separates, names_append separates']⟩
    cases before with
    | nil => exact separates.trans separates'.symm
    | cons => rfl
  | @repeated before after c d separates separates' =>
    refine ⟨by simp, ?_, ?_⟩
    · cases before <;> rfl
    · rw [names_append separates, names_append separates, names_separator separates']
  | @closed _ c separates =>
    refine ⟨by simp, (isFromTop_append filled _).symm, ?_⟩
    have none : names [] = [] := rfl
    rw [names_append separates, none, List.append_nil]
  | @inserted before after c d separates separates' =>
    refine ⟨by simp, ?_, ?_⟩
    · cases before <;> rfl
    · rw [names_append separates, names_append separates, names_self separates', essential_append,
        essential_append, essential_cons_self]
  | @opened _ d relative separates =>
    refine ⟨by simp, relative, ?_⟩
    rw [names_self separates, essential_cons_self]

theorem parse_respelled {s t : Text} (filled : s ≠ []) (h : Relation.ReflTransGen Respelled s t)
    {segments : List Pattern} : t ≠ [] ∧ (parse s = .ok segments ↔ parse t = .ok segments) := by
  induction h with
  | refl => exact ⟨filled, Iff.rfl⟩
  | tail _ step ih =>
    obtain ⟨filled', begins, same⟩ := step.keeps ih.1
    exact ⟨filled', ih.2.trans (parse_congr ih.1 filled' begins same)⟩

/-- Behind the first text the names of the second one are read as they are on their own. -/
theorem readSegments_behind {p q : Text} (fits : parentName ∉ names q ∨ Ascending p)
    {front : List Pattern} (first : readSegments (!isFromTop p) (runs 0 p) = .ok front)
    {back : List Pattern} :
    readSegments (!isFromTop p && front.all isParent) (runs 0 q) = .ok back ↔
      readSegments true (runs 0 q) = .ok back := by
  rcases fits with still | ascending
  · exact readSegments_of_still still
  · rw [ascending.relative, Bool.not_false] at first ⊢
    rw [all_isParent_of_dots ascending.dots first, Bool.and_true]

theorem parse_join_iff {p q : Text} (filled : p ≠ []) (filled' : q ≠ [])
    (relative : isFromTop q = false) (fits : parentName ∉ names q ∨ Ascending p)
    {segments : List Pattern} : parse (p ++ '/' :: q) = .ok segments ↔
      ∃ front back, parse p = .ok front ∧ parse q = .ok back ∧ segments = front ++ back := by
  have joined : essential ((runs 0 p ++ runs 0 q).map (·.2)) = essential (names (p ++ '/' :: q)) := by
    rw [names_append rfl, List.map_append, names, names]
  have alone {back : List Pattern} :
      parse q = .ok back ↔ readSegments true (runs 0 q) = .ok back := by
    simp [parse_eq_ok_iff_names filled' rfl, relative]
  simp only [parse_eq_ok_iff_names (by simp) joined, isFromTop_append filled,
    readSegments_append_iff, parse_eq_ok_iff_names filled rfl, alone]
  constructor
  · intro h
    obtain ⟨_, ⟨front, back, first, second, rfl⟩, rfl⟩ := h
    exact ⟨_, back, ⟨front, first, rfl⟩, (readSegments_behind fits first).mp second, by simp⟩
  · intro h
    obtain ⟨_, back, ⟨front, first, rfl⟩, second, rfl⟩ := h
    exact ⟨_, ⟨front, back, first, (readSegments_behind fits first).mpr second, rfl⟩, by simp⟩

/-- A text joined from two is accepted if both are, as the segments of the first one and then those
of the second one. However the separators are spelled and wherever a `.` is put, a text is accepted
as before and stands for the same segments. -/
theorem parse_joined_and_respelled :
    (∀ p q : Text, p ≠ [] → q ≠ [] → isFromTop q = false → parentName ∉ names q ∨ Ascending p →
      ∀ segments, parse (p ++ '/' :: q) = .ok segments ↔
        ∃ front back, parse p = .ok front ∧ parse q = .ok back ∧ segments = front ++ back) ∧
    ∀ s t : Text, s ≠ [] → Relation.ReflTransGen Respelled s t →
      ∀ segments, parse s = .ok segments ↔ parse t = .ok segments := by
  refine ⟨fun p q filled filled' relative fits segments => ?_, fun s t filled h segments => ?_⟩
  · exact parse_join_iff filled filled' relative fits
  · exact (parse_respelled filled h).2

theorem parse_joined_and_respelled_sample :
    parse "./../..".toList = .ok [parent, parent] ∧
      parse "../a\\b*".toList = .ok [parent, literal ['a'], .component [.text ['b'], .star]] ∧
      parse ("./../..".toList ++ '/' :: "../a\\b*".toList) =
        .ok [parent, parent, parent, literal ['a'], .component [.text ['b'], .star]] ∧
      parse "./..//a/b*/".toList = .ok [parent, literal ['a'], .component [.text ['b'], .star]] := by
  have first : parse "./../..".toList = .ok [parent, parent] := parse_eq_ok_iff.mpr (by cbv)
  have second : parse "../a\\b*".toList =
      .ok [parent, literal ['a'], .component [.text ['b'], .star]] := parse_eq_ok_iff.mpr (by cbv)
  have ascending : Ascending "./../..".toList := by
    have dots : names "./../..".toList = [selfName, parentName, parentName] := by cbv
    refine ⟨by cbv, ?_⟩
    rw [dots]
    simp
  have opened : Respelled "../a\\b*".toList "./../a\\b*".toList :=
    @Respelled.opened "../a\\b*".toList '/' (by cbv) rfl
  have repeated : Respelled "./../a\\b*".toList "./..//a\\b*".toList :=
    @Respelled.repeated "./..".toList "a\\b*".toList '/' '/' rfl rfl
  have spelled : Respelled "./..//a\\b*".toList "./..//a/b*".toList :=
    @Respelled.separator "./..//a".toList "b*".toList '\\' '/' rfl rfl
  have closed : Respelled "./..//a/b*".toList "./..//a/b*/".toList :=
    @Respelled.closed "./..//a/b*".toList '/' rfl
  have respelled : Relation.ReflTransGen Respelled "../a\\b*".toList "./..//a/b*/".toList :=
    .head opened (.head repeated (.head spelled (.single closed)))
  refine ⟨first, second, ?joined, ?respelled⟩
  case joined =>
    exact (parse_joined_and_respelled.1 _ _ (by simp) (by simp) (by cbv) (Or.inr ascending) _).mpr
      ⟨_, _, first, second, rfl⟩
  case respelled =>
    exact (parse_joined_and_respelled.2 _ _ (by simp) respelled _).mp second

end Wildpath.Pattern
