import Mathlib.Data.List.Forall2
import Wildpath.Proofs.Pieces

/-!
# The grammar of patterns

Which texts are patterns, and which segments each of them stands for: the names between separators,
without those that stand for nothing, first the ones that go up and then one segment for every other
name. Reading accepts these texts and no others.
-/

set_option autoImplicit false

namespace Wildpath.Pattern

inductive WrittenSegment : Text → Pattern → Prop where
  | globstar : WrittenSegment ['*', '*'] .globstar
  | component {name : Text} {pieces : List Pattern} : name ≠ ['*', '*'] →
    WrittenPieces name pieces → WrittenSegment name (.component pieces)

/-- The names are the longest runs of characters that are not separators. -/
inductive WrittenNames : Text → List Text → Prop where
  | nil : WrittenNames [] []
  | separator {c : Char} {rest : Text} {names : List Text} : isSeparator c = true →
    WrittenNames rest names → WrittenNames (c :: rest) names
  | name {name rest : Text} {names : List Text} : name ≠ [] →
    (∀ c ∈ name, isSeparator c = false) → (∀ c ∈ rest.head?, isSeparator c = true) →
    WrittenNames rest names → WrittenNames (name ++ rest) (name :: names)

/-- The names that make segments: `.` stands for nothing. -/
def essential (names : List Text) : List Text := names.filter (· ≠ selfName)

/-- A whole pattern. Only a relative one goes up, and before everything else. -/
inductive Written : Text → List Pattern → Prop where
  | relative {s : Text} {names below : List Text} {ups : Nat} {segments : List Pattern} : s ≠ [] →
    (∀ c ∈ s.head?, isSeparator c = false) → WrittenNames s names →
    essential names = List.replicate ups parentName ++ below → parentName ∉ below →
    List.Forall₂ WrittenSegment below segments →
    Written s (List.replicate ups parent ++ segments)
  | anchored {c : Char} {s : Text} {names : List Text} {segments : List Pattern} :
    isSeparator c = true → WrittenNames (c :: s) names → parentName ∉ names →
    List.Forall₂ WrittenSegment (essential names) segments →
    Written (c :: s) (.anchor [] :: segments)

theorem le_of_mem_runs {position : Nat} {s : Text} {run : Nat × Text}
    (h : run ∈ runs position s) : position ≤ run.1 := by
  fun_induction runs position s with
  | case1 => cases h
  | case2 position c rest separates ih => exact Nat.le_of_succ_le (ih h)
  | case3 position c rest _ none ih =>
    rcases List.mem_singleton.mp h with rfl
    exact Nat.le_refl position
  | case4 position c rest _ name more found ih =>
    rcases List.mem_cons.mp h with rfl | h
    · exact Nat.le_refl position
    · rw [found] at ih
      exact Nat.le_of_succ_le (ih (List.mem_cons_of_mem _ h))
  | case5 position c rest _ start name more found apart ih =>
    rcases List.mem_cons.mp h with rfl | h
    · exact Nat.le_refl position
    · rw [found] at ih
      exact Nat.le_of_succ_le (ih h)

theorem runs_separator {c : Char} (separates : isSeparator c = true) (position : Nat)
    (rest : Text) : runs position (c :: rest) = runs (position + 1) rest := by
  rw [runs, if_pos separates]

/-- The first run is the first name, and the other runs follow it. -/
theorem runs_name {name rest : Text} (filled : name ≠ [])
    (inside : ∀ c ∈ name, isSeparator c = false) (ended : ∀ c ∈ rest.head?, isSeparator c = true)
    (position : Nat) :
    runs position (name ++ rest) = (position, name) :: runs (position + name.length) rest := by
  induction name generalizing position with
  | nil => exact absurd rfl filled
  | cons c name ih =>
    obtain ⟨own, others⟩ := List.forall_mem_cons.mp inside
    cases name with
    | nil =>
      -- the next run does not touch this one, because a separator stands between
      have later : ∀ run ∈ runs (position + 1) rest, run.1 ≠ position + 1 := by
        intro run member
        cases rest with
        | nil => cases member
        | cons d rest =>
          rw [runs_separator (ended d rfl)] at member
          have := le_of_mem_runs member
          omega
      simp only [List.cons_append, List.nil_append, runs, own, Bool.false_eq_true, if_false,
        List.length_singleton]
      split
      · next none => rw [none]
      · next start run more found =>
        rw [found] at later
        rw [if_neg (later (start, run) List.mem_cons_self), found]
    | cons d name =>
      have next := ih (by simp) others (position + 1)
      simp only [List.cons_append] at next ⊢
      rw [runs, own, next]
      simp [Nat.add_assoc, Nat.add_comm 1]

theorem exists_writtenNames (s : Text) : ∃ names, WrittenNames s names := by
  induction s with
  | nil => exact ⟨[], .nil⟩
  | cons c s ih =>
    obtain ⟨names, written⟩ := ih
    cases separates : isSeparator c with
    | true => exact ⟨names, .separator separates written⟩
    | false =>
      cases written with
      | nil => exact ⟨[[c]], @WrittenNames.name [c] [] [] (by simp) (by simpa) (by simp) .nil⟩
      | @separator d rest names ended written =>
        exact ⟨[c] :: names, @WrittenNames.name [c] (d :: rest) names (by simp) (by simpa)
          (by simpa) (.separator ended written)⟩
      | @name name rest names filled inside ended written =>
        exact ⟨(c :: name) :: names, @WrittenNames.name (c :: name) rest names (by simp)
          (List.forall_mem_cons.mpr ⟨separates, inside⟩) ended written⟩

theorem runs_of_written {s : Text} {names : List Text} (h : WrittenNames s names) (position : Nat) :
    (runs position s).map (·.2) = names := by
  induction h generalizing position with
  | nil => rfl
  | separator separates _ ih => rw [runs_separator separates, ih]
  | name filled inside ended _ ih => rw [runs_name filled inside ended, List.map_cons, ih]

theorem writtenNames_iff (position : Nat) {s : Text} {names : List Text} :
    WrittenNames s names ↔ (runs position s).map (·.2) = names := by
  constructor
  · intro h
    exact runs_of_written h position
  · intro h
    obtain ⟨names', written⟩ := exists_writtenNames s
    rw [← h, runs_of_written written position]
    exact written

theorem essential_cons_self (names : List Text) :
    essential (selfName :: names) = essential names := by
  simp [essential]

theorem essential_cons {name : Text} (ne : name ≠ selfName) (names : List Text) :
    essential (name :: names) = name :: essential names := by
  simp [essential, ne]

theorem readSegments_cons {leading : Bool} {start : Nat} {name : Text} {more : List (Nat × Text)}
    (notSelf : name ≠ selfName) (notParent : name ≠ parentName) {segments : List Pattern} :
    readSegments leading ((start, name) :: more) = .ok segments ↔
      ∃ segment later, WrittenSegment name segment ∧ readSegments false more = .ok later ∧
        segments = segment :: later := by
  rw [readSegments, if_neg notSelf, if_neg notParent]
  split
  · next wild =>
    subst wild
    rw [map_eq_ok_iff]
    constructor
    · intro h
      obtain ⟨later, read, rfl⟩ := h
      exact ⟨_, later, .globstar, read, rfl⟩
    · intro h
      obtain ⟨segment, later, written, read, rfl⟩ := h
      cases written with
      | globstar => exact ⟨later, read, rfl⟩
      | component other => exact absurd rfl other
  · next single =>
    constructor
    · intro h
      obtain ⟨pieces, own, h⟩ := bind_eq_ok_iff.mp h
      obtain ⟨later, read, h⟩ := bind_eq_ok_iff.mp h
      cases h
      exact ⟨_, later, .component single ((readPieces_eq_ok_iff start).mp own), read, rfl⟩
    · intro h
      obtain ⟨segment, later, written, read, rfl⟩ := h
      cases written with
      | globstar => exact absurd rfl single
      | component _ written =>
        rw [(readPieces_eq_ok_iff start).mpr written, read]
        rfl

theorem parentName_mem_essential_iff {names : List Text} :
    parentName ∈ essential names ↔ parentName ∈ names := by
  have apart : parentName ≠ selfName := by decide
  simp [essential, apart]

theorem readSegments_false_iff {components : List (Nat × Text)} {segments : List Pattern} :
    readSegments false components = .ok segments ↔ parentName ∉ components.map (·.2) ∧
      List.Forall₂ WrittenSegment (essential (components.map (·.2))) segments := by
  induction components generalizing segments with
  | nil =>
    have none : essential [] = [] := rfl
    rw [readSegments, List.map_nil, none, List.forall₂_nil_left_iff]
    simp [eq_comm]
  | cons component more ih =>
    obtain ⟨start, name⟩ := component
    rw [List.map_cons, List.mem_cons, not_or]
    by_cases isSelf : name = selfName
    · have other : parentName ≠ name := by
        rw [isSelf]
        decide
      rw [readSegments, if_pos isSelf, ih, isSelf, essential_cons_self, ← isSelf, and_assoc]
      exact (and_iff_right other).symm
    · by_cases isParent : name = parentName
      · rw [readSegments, if_neg isSelf, if_pos isParent]
        apply iff_of_false
        · intro h
          cases h
        · intro h
          exact h.1.1 isParent.symm
      · rw [readSegments_cons isSelf isParent, essential_cons isSelf, List.forall₂_cons_left_iff]
        constructor
        · intro h
          obtain ⟨segment, later, written, read, rfl⟩ := h
          obtain ⟨below, others⟩ := ih.mp read
          exact ⟨⟨Ne.symm isParent, below⟩, segment, later, written, others, rfl⟩
        · intro h
          obtain ⟨⟨-, below⟩, segment, later, written, others, rfl⟩ := h
          exact ⟨segment, later, written, ih.mpr ⟨below, others⟩, rfl⟩

theorem readSegments_true_iff {components : List (Nat × Text)} {segments : List Pattern} :
    readSegments true components = .ok segments ↔ ∃ ups below rest,
      essential (components.map (·.2)) = List.replicate ups parentName ++ below ∧
      parentName ∉ below ∧ List.Forall₂ WrittenSegment below rest ∧
      segments = List.replicate ups parent ++ rest := by
  induction components generalizing segments with
  | nil =>
    rw [readSegments]
    constructor
    · intro h
      cases h
      exact ⟨0, [], [], rfl, by simp, .nil, rfl⟩
    · intro h
      obtain ⟨ups, below, rest, none, -, written, rfl⟩ := h
      obtain ⟨noUps, rfl⟩ := List.append_eq_nil_iff.mp (Eq.symm none)
      obtain rfl : ups = 0 := by simpa using noUps
      cases written
      rfl
  | cons component more ih =>
    obtain ⟨start, name⟩ := component
    rw [List.map_cons]
    by_cases isSelf : name = selfName
    · rw [readSegments, if_pos isSelf, ih, isSelf, essential_cons_self]
    · rw [essential_cons isSelf]
      by_cases isParent : name = parentName
      · rw [readSegments, if_neg isSelf, if_pos isParent, if_pos rfl, map_eq_ok_iff, isParent]
        constructor
        · intro h
          obtain ⟨later, read, rfl⟩ := h
          obtain ⟨ups, below, rest, names, absent, written, rfl⟩ := ih.mp read
          exact ⟨ups + 1, below, rest, by rw [names]; rfl, absent, written, rfl⟩
        · intro h
          obtain ⟨ups, below, rest, names, absent, written, rfl⟩ := h
          cases ups with
          | zero =>
            rw [List.replicate_zero, List.nil_append] at names
            rw [← names] at absent
            exact absurd List.mem_cons_self absent
          | succ ups =>
            have names := (List.cons.inj names).2
            exact ⟨_, ih.mpr ⟨ups, below, rest, names, absent, written, rfl⟩, rfl⟩
      · rw [readSegments_cons isSelf isParent]
        constructor
        · intro h
          obtain ⟨segment, later, written, read, rfl⟩ := h
          obtain ⟨absent, others⟩ := readSegments_false_iff.mp read
          refine ⟨0, _, _, rfl, ?_, .cons written others, rfl⟩
          rw [List.mem_cons, not_or, parentName_mem_essential_iff]
          exact ⟨Ne.symm isParent, absent⟩
        · intro h
          obtain ⟨ups, below, rest, names, absent, written, rfl⟩ := h
          cases ups with
          | zero =>
            obtain rfl : _ = below := names
            obtain ⟨segment, later, own, others, rfl⟩ := List.forall₂_cons_left_iff.mp written
            rw [List.mem_cons, not_or, parentName_mem_essential_iff] at absent
            exact ⟨segment, later, own, readSegments_false_iff.mpr ⟨absent.2, others⟩, rfl⟩
          | succ ups => exact absurd (List.cons.inj names).1 isParent

theorem parse_eq_ok_iff_written {s : Text} {segments : List Pattern} :
    parse s = .ok segments ↔ Written s segments := by
  rw [parse_eq_ok_iff]
  cases s with
  | nil =>
    apply iff_of_false
    · intro h
      cases h
    · intro h
      cases h with
      | relative filled => exact filled rfl
  | cons c s =>
    simp only [read]
    cases separates : isSeparator c with
    | true =>
      rw [if_pos rfl, map_eq_ok_iff]
      constructor
      · intro h
        obtain ⟨later, read, rfl⟩ := h
        obtain ⟨absent, written⟩ := readSegments_false_iff.mp read
        exact .anchored separates ((writtenNames_iff 0).mpr rfl) absent written
      · intro h
        cases h with
        | relative _ unanchored => simp [separates] at unanchored
        | @anchored _ _ names later _ named absent written =>
          obtain rfl := (writtenNames_iff 0).mp named
          exact ⟨later, readSegments_false_iff.mpr ⟨absent, written⟩, rfl⟩
    | false =>
      rw [if_neg Bool.false_ne_true, readSegments_true_iff]
      constructor
      · intro h
        obtain ⟨ups, below, rest, names, absent, written, rfl⟩ := h
        have named : WrittenNames (c :: s) _ := (writtenNames_iff 0).mpr rfl
        exact .relative (by simp) (by simpa) named names absent written
      · intro h
        cases h with
        | @relative _ names below ups rest _ _ named essentials absent written =>
          obtain rfl := (writtenNames_iff 0).mp named
          exact ⟨ups, below, rest, essentials, absent, written, rfl⟩
        | anchored anchors =>
          rw [anchors] at separates
          cases separates

/-- Reading accepts what the grammar writes, as the segments it writes, and answers every other text
with a fault of that text. -/
theorem parse_written (s : Text) :
    (∀ segments, parse s = .ok segments ↔ Written s segments) ∧
      ((¬ ∃ segments, Written s segments) ↔
        ∃ fault, parse s = .error fault ∧ fault.pattern = s) := by
  refine ⟨fun segments => parse_eq_ok_iff_written, ?_⟩
  simp only [← parse_eq_ok_iff_written]
  constructor
  · intro none
    cases read : read s with
    | ok segments => exact absurd ⟨segments, parse_eq_ok_iff.mpr read⟩ none
    | error fault =>
      refine ⟨⟨fault.1, s, fault.2⟩, ?_, rfl⟩
      rw [parse, read]
      rfl
  · intro h
    obtain ⟨fault, refused, -⟩ := h
    intro accepted
    obtain ⟨segments, read⟩ := accepted
    rw [refused] at read
    cases read

end Wildpath.Pattern
