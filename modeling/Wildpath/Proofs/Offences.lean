import Wildpath.Proofs.Broken
import Wildpath.Proofs.WellFormed

/-!
# Where a pattern is at fault

A text that is no pattern has a first name that cannot stand where it stands: a component that cannot
be read, or one that goes up where nothing may. What is in front of it reads on its own, and the
position of the fault is that of the offence in the whole text.
-/

set_option autoImplicit false

namespace Wildpath.Pattern

/-- The name stands between separators or at an end of the text. -/
structure Stands (before name after : Text) : Prop where
  begins : ∀ c ∈ before.getLast?, isSeparator c = true
  inside : ∀ c ∈ name, isSeparator c = false
  ends : ∀ c ∈ after.head?, isSeparator c = true

def Readable (s : Text) : Prop := s = [] ∨ ∃ segments, parse s = .ok segments

/-- The text cannot be read from the position on, and everything before it can. -/
inductive Offence : Text → Fault.Kind → Nat → Prop where
  | broken {before front tail after : Text} {kind : Fault.Kind} {place : Nat} :
    Stands before (front ++ tail) after → Readable before → Readable front →
    Broken tail kind place →
    Offence (before ++ (front ++ tail ++ after)) kind (before.length + (front.length + place))
  | misplacedParent {before after : Text} {segments : List Pattern} :
    Stands before parentName after → parse before = .ok segments →
    (∃ segment ∈ segments, segment ≠ parent) →
    Offence (before ++ (parentName ++ after)) .misplacedParent before.length

section Names

variable {before name after : Text}

theorem Stands.runs (h : Stands before name after) (filled : name ≠ []) (position : Nat) :
    runs position (before ++ (name ++ after)) = runs position before ++
      (position + before.length, name) :: runs (position + before.length + name.length) after := by
  obtain ⟨begins, inside, ends⟩ := h
  obtain ⟨names, written⟩ := exists_writtenNames before
  induction written generalizing position with
  | nil => exact runs_name filled inside ends position
  | @separator c rest names separates _ ih =>
    have later : ∀ d ∈ rest.getLast?, isSeparator d = true := by
      intro d last
      exact begins d (by simp_all [List.getLast?_cons])
    rw [List.cons_append, runs_separator separates, runs_separator separates, ih _ later]
    simp only [List.length_cons, Nat.add_assoc, Nat.add_comm 1]
  | @name first rest names own clean ended _ ih =>
    have more : rest ≠ [] := by
      rintro rfl
      rw [List.append_nil] at begins
      obtain ⟨c, last⟩ := Option.isSome_iff_exists.mp (List.getLast?_isSome.mpr own)
      have := clean c (List.mem_of_getLast? last)
      simp [begins c last] at this
    have later : ∀ d ∈ rest.getLast?, isSeparator d = true := by
      rwa [List.getLast?_append_of_ne_nil _ more] at begins
    have ended' : ∀ d ∈ (rest ++ (name ++ after)).head?, isSeparator d = true := by
      rwa [head?_append_of_ne_nil more]
    rw [List.append_assoc, runs_name own clean ended', runs_name own clean ended, ih _ later]
    simp only [List.cons_append, List.length_append, Nat.add_assoc]

/-- Every run stands somewhere in the text, between the runs before and after it. -/
theorem exists_stands {position start : Nat} {s name : Text} {earlier later : List (Nat × Text)}
    (h : runs position s = earlier ++ (start, name) :: later) :
    ∃ before after, s = before ++ (name ++ after) ∧ Stands before name after ∧ name ≠ [] ∧
      runs position before = earlier ∧ start = position + before.length := by
  obtain ⟨names, written⟩ := exists_writtenNames s
  induction written generalizing position earlier with
  | nil => simp [Pattern.runs] at h
  | @separator c rest names separates _ ih =>
    rw [runs_separator separates] at h
    obtain ⟨before, after, rfl, ⟨begins, inside, ends⟩, filled, rfl, rfl⟩ := ih h
    refine ⟨c :: before, after, rfl, ⟨?_, inside, ends⟩, filled, runs_separator separates .., ?_⟩
    · intro d last
      cases before with
      | nil => simp_all
      | cons e before => exact begins d (by simpa using last)
    · rw [List.length_cons]
      omega
  | @name first rest names own clean ended _ ih =>
    rw [runs_name own clean ended] at h
    cases earlier with
    | nil =>
      cases h
      exact ⟨[], rest, rfl, ⟨by simp, clean, ended⟩, own, rfl, rfl⟩
    | cons run earlier =>
      rw [List.cons_append] at h
      obtain ⟨rfl, others⟩ := List.cons.inj h
      obtain ⟨before, after, rfl, ⟨begins, inside, ends⟩, filled, rfl, rfl⟩ := ih others
      -- a run that follows another has a separator in front of it
      have more : before ≠ [] := by
        rintro rfl
        cases name with
        | nil => exact filled rfl
        | cons c name =>
          have := inside c List.mem_cons_self
          simp [ended c rfl] at this
      have ended' : ∀ d ∈ before.head?, isSeparator d = true := by
        rwa [head?_append_of_ne_nil more] at ended
      refine ⟨first ++ before, after, by simp, ⟨?_, inside, ends⟩, filled,
        runs_name own clean ended' _, ?_⟩
      · rwa [List.getLast?_append_of_ne_nil _ more]
      · rw [List.length_append]
        omega

end Names

theorem isParent_of_written {name : Text} {pieces : List Pattern} (h : WrittenPieces name pieces)
    (other : name ≠ parentName) : (Pattern.component pieces).isParent = false := by
  rw [Bool.eq_false_iff, Ne, isParent_iff]
  intro same
  cases same
  exact other h.eq_of_text

/-- What is accepted decides whether a name may still go up behind it. -/
theorem readSegments_append {leading : Bool} {earlier : List (Nat × Text)} {segments : List Pattern}
    (h : readSegments leading earlier = .ok segments) (later : List (Nat × Text)) :
    readSegments leading (earlier ++ later) =
      (segments ++ ·) <$> readSegments (leading && segments.all isParent) later := by
  fun_induction readSegments leading earlier generalizing segments with
  | case1 leading =>
    cases h
    simp
  | case2 leading start more ih =>
    rw [List.cons_append, readSegments, if_pos rfl]
    exact ih h
  | case3 start more notSelf ih =>
    obtain ⟨rest, read, rfl⟩ := map_eq_ok_iff.mp h
    have up : parent.isParent = true := isParent_iff.mpr rfl
    rw [List.cons_append, readSegments, if_neg notSelf, if_pos rfl, if_pos rfl, ih read]
    simp [up]
  | case4 => cases h
  | case5 leading start more notSelf notParent ih =>
    obtain ⟨rest, read, rfl⟩ := map_eq_ok_iff.mp h
    have down : Pattern.globstar.isParent = false := rfl
    rw [List.cons_append, readSegments, if_neg notSelf, if_neg notParent, if_pos rfl, ih read]
    simp [down]
  | case6 leading start name more notSelf notParent notWild ih =>
    obtain ⟨pieces, own, h⟩ := bind_eq_ok_iff.mp h
    obtain ⟨rest, read, h⟩ := bind_eq_ok_iff.mp h
    cases h
    have down := isParent_of_written (written_of_readPieces own) notParent
    rw [List.cons_append, readSegments, if_neg notSelf, if_neg notParent, if_neg notWild, own,
      ih read]
    simp [down]
    rfl

/-- A name is refused if it goes up where it may not, or is a component that cannot be read. -/
theorem readSegments_singleton_eq_error_iff {leading : Bool} {start p : Nat} {name : Text}
    {kind : Fault.Kind} : readSegments leading [(start, name)] = .error (kind, p) ↔
      (name = parentName ∧ leading = false ∧ kind = .misplacedParent ∧ p = start) ∨
      readPieces start name = .error (kind, p) := by
  by_cases isSelf : name = selfName
  · subst isSelf
    simp [readSegments, readPieces, selfName, parentName]
  · by_cases isParent : name = parentName
    · subst isParent
      cases leading <;> simp [readSegments, readPieces, selfName, parentName, eq_comm]
    · by_cases wild : name = ['*', '*']
      · subst wild
        simp [readSegments, readPieces, selfName, parentName]
      · rw [readSegments, if_neg isSelf, if_neg isParent, if_neg wild, bind_eq_error_iff]
        simp [readSegments, isParent, bind, Except.bind, pure, Except.pure]

theorem readSegments_cons_of_error {leading : Bool} {run : Nat × Text}
    {fault : Fault.Kind × Nat} (h : readSegments leading [run] = .error fault)
    (later : List (Nat × Text)) : readSegments leading (run :: later) = .error fault := by
  obtain ⟨start, name⟩ := run
  obtain ⟨kind, p⟩ := fault
  rcases readSegments_singleton_eq_error_iff.mp h with ⟨rfl, rfl, rfl, rfl⟩ | refused
  · rfl
  · rw [readSegments, refused]
    split
    · next isSelf => simp [isSelf, selfName, readPieces] at refused
    · split
      · next isParent => simp [isParent, parentName, readPieces] at refused
      · split
        · next wild => simp [wild, readPieces] at refused
        · rfl

/-- Reading names fails with the first one that is refused. -/
theorem readSegments_eq_error_iff {leading : Bool} {components : List (Nat × Text)}
    {fault : Fault.Kind × Nat} : readSegments leading components = .error fault ↔
      ∃ earlier run later segments, components = earlier ++ run :: later ∧
        readSegments leading earlier = .ok segments ∧
        readSegments (leading && segments.all isParent) [run] = .error fault := by
  constructor
  · intro h
    induction components generalizing leading with
    | nil => cases h
    | cons run more ih =>
      cases first : readSegments leading [run] with
      | error fault' =>
        rw [readSegments_cons_of_error first more] at h
        cases h
        exact ⟨[], run, more, [], rfl, rfl, by simpa using first⟩
      | ok own =>
        have step := readSegments_append first
        rw [← List.singleton_append, step more, map_eq_error_iff] at h
        obtain ⟨earlier, run', later, segments, rfl, read, refused⟩ := ih h
        refine ⟨run :: earlier, run', later, own ++ segments, rfl, ?_, ?_⟩
        · rw [← List.singleton_append, step earlier, read]
          rfl
        · rwa [List.all_append, ← Bool.and_assoc]
  · intro h
    obtain ⟨earlier, run, later, segments, rfl, read, refused⟩ := h
    rw [readSegments_append read, map_eq_error_iff]
    exact readSegments_cons_of_error refused later

/-- Reading a text that is not empty: the top first, if there is one, and then its names. -/
theorem read_cons (c : Char) (s : Text) : read (c :: s) =
    ((if isSeparator c then [.anchor []] else []) ++ ·) <$>
      readSegments (!isSeparator c) (runs 0 (c :: s)) := by
  rw [read]
  cases isSeparator c <;> simp

theorem parse_eq_error_iff_read {s : Text} {fault : Fault} :
    parse s = .error fault ↔ fault.pattern = s ∧ read s = .error (fault.kind, fault.position) := by
  obtain ⟨kind, pattern, position⟩ := fault
  rw [parse]
  cases read s with
  | ok segments => simp [Except.mapError]
  | error refused =>
    obtain ⟨kind', position'⟩ := refused
    simp [Except.mapError, eq_comm, and_left_comm]

/-- The first character of the text says how every text that begins with it is read. -/
theorem readable_iff {anchors : Bool} {s : Text} (top : ∀ c ∈ s.head?, isSeparator c = anchors) :
    Readable s ↔ ∃ segments, readSegments (!anchors) (runs 0 s) = .ok segments := by
  cases s with
  | nil => exact iff_of_true (Or.inl rfl) ⟨[], rfl⟩
  | cons c s =>
    obtain rfl := top c rfl
    simp only [Readable, List.cons_ne_nil, false_or, parse_eq_ok_iff, read_cons, map_eq_ok_iff]
    constructor
    · intro h
      obtain ⟨-, segments, read, -⟩ := h
      exact ⟨segments, read⟩
    · intro h
      obtain ⟨segments, read⟩ := h
      exact ⟨_, segments, read, rfl⟩

theorem readable_iff_written {s : Text} (inside : ∀ c ∈ s, isSeparator c = false) :
    Readable s ↔ ∃ pieces, WrittenPieces s pieces := by
  by_cases filled : s = []
  · subst filled
    exact iff_of_true (Or.inl rfl) ⟨[], .nil⟩
  · have alone := @runs_name s [] filled inside (by simp) 0
    rw [List.append_nil, Pattern.runs] at alone
    have top : ∀ c ∈ s.head?, isSeparator c = false := by
      intro c first
      exact inside c (List.mem_of_mem_head? first)
    rw [readable_iff top, alone]
    constructor
    · intro h
      obtain ⟨segments, read⟩ := h
      cases own : readPieces 0 s with
      | ok pieces => exact ⟨pieces, written_of_readPieces own⟩
      | error fault =>
        rw [readSegments_singleton_eq_error_iff.mpr (Or.inr own)] at read
        cases read
    · intro h
      obtain ⟨pieces, written⟩ := h
      cases read : readSegments (!false) [(0, s)] with
      | ok segments => exact ⟨segments, rfl⟩
      | error fault =>
        rcases readSegments_singleton_eq_error_iff.mp read with ⟨-, leads, -⟩ | refused
        · cases leads
        · rw [readPieces_of_written written] at refused
          cases refused

/-- A name may go up unless the text before it is anchored or went down. -/
theorem sinks_iff {anchors : Bool} {s : Text} (filled : s ≠ [])
    (top : ∀ c ∈ s.head?, isSeparator c = anchors) :
    (∃ segments, parse s = .ok segments ∧ ∃ segment ∈ segments, segment ≠ parent) ↔
      ∃ segments, readSegments (!anchors) (runs 0 s) = .ok segments ∧
        (!anchors && segments.all isParent) = false := by
  cases s with
  | nil => exact absurd rfl filled
  | cons c s =>
    obtain rfl := top c rfl
    simp only [parse_eq_ok_iff, read_cons, map_eq_ok_iff]
    have sinks : ∀ segments : List Pattern,
        (∃ segment ∈ (if isSeparator c then [.anchor []] else []) ++ segments, segment ≠ parent) ↔
          (!isSeparator c && segments.all isParent) = false := by
      intro segments
      cases isSeparator c with
      | true => simp [parent]
      | false => simp [← isParent_iff]
    constructor
    · intro h
      obtain ⟨-, ⟨segments, read, rfl⟩, other⟩ := h
      exact ⟨segments, read, (sinks segments).mp other⟩
    · intro h
      obtain ⟨segments, read, other⟩ := h
      exact ⟨_, ⟨segments, read, rfl⟩, (sinks segments).mpr other⟩

theorem Offence.position_lt {s : Text} {kind : Fault.Kind} {position : Nat}
    (h : Offence s kind position) : position < s.length := by
  cases h with
  | broken _ _ _ broken =>
    have := broken.place_lt
    simp only [List.length_append]
    omega
  | misplacedParent => simp [parentName]

theorem head?_before {before rest : Text} {c : Char} {s : Text} (whole : c :: s = before ++ rest) :
    ∀ d ∈ before.head?, isSeparator d = isSeparator c := by
  cases before with
  | nil => simp
  | cons e before =>
    cases whole
    simp

/-- Reading the names of a text fails with the first one that is refused, where it stands. -/
theorem readSegments_runs_eq_error_iff {leading : Bool} {s : Text} {fault : Fault.Kind × Nat} :
    readSegments leading (runs 0 s) = .error fault ↔ ∃ before name after segments,
      s = before ++ (name ++ after) ∧ Stands before name after ∧ name ≠ [] ∧
      readSegments leading (runs 0 before) = .ok segments ∧
      readSegments (leading && segments.all isParent) [(before.length, name)] = .error fault := by
  constructor
  · intro h
    obtain ⟨earlier, ⟨start, name⟩, later, segments, runs, read, refused⟩ :=
      readSegments_eq_error_iff.mp h
    obtain ⟨before, after, whole, stands, filled, rfl, rfl⟩ := exists_stands runs
    rw [Nat.zero_add] at refused
    exact ⟨before, name, after, segments, whole, stands, filled, read, refused⟩
  · intro h
    obtain ⟨before, name, after, segments, rfl, stands, filled, read, refused⟩ := h
    rw [stands.runs filled, Nat.zero_add]
    exact readSegments_eq_error_iff.mpr ⟨_, _, _, segments, rfl, read, refused⟩

/-- Reading a text that is not empty fails with its first offence. -/
theorem read_eq_error_iff {s : Text} (filled : s ≠ []) {kind : Fault.Kind} {position : Nat} :
    read s = .error (kind, position) ↔ Offence s kind position := by
  cases s with
  | nil => exact absurd rfl filled
  | cons c s =>
    rw [read_cons, map_eq_error_iff, readSegments_runs_eq_error_iff]
    constructor
    · intro h
      obtain ⟨before, name, after, segments, whole, stands, -, read, refused⟩ := h
      have top := head?_before whole
      rw [whole]
      rcases readSegments_singleton_eq_error_iff.mp refused with ⟨rfl, sinks, rfl, rfl⟩ | refused
      · have more : before ≠ [] := by
          rintro rfl
          cases whole
          cases read
          simp [isSeparator] at sinks
        obtain ⟨segments, read, sinks⟩ := (sinks_iff more top).mpr ⟨segments, read, sinks⟩
        exact .misplacedParent stands read sinks
      · obtain ⟨front, pieces, tail, place, rfl, written, broken, rfl⟩ :=
          readPieces_eq_error_iff.mp refused
        have inside := (List.forall_mem_append.mp stands.inside).1
        exact .broken stands ((readable_iff top).mpr ⟨segments, read⟩)
          ((readable_iff_written inside).mpr ⟨pieces, written⟩) broken
    · intro h
      generalize whole : c :: s = t at h
      cases h with
      | @broken before front tail after kind place stands readable accepted broken =>
        have inside := (List.forall_mem_append.mp stands.inside).1
        obtain ⟨segments, read⟩ := (readable_iff (head?_before whole)).mp readable
        obtain ⟨pieces, written⟩ := (readable_iff_written inside).mp accepted
        have filled : front ++ tail ≠ [] := List.append_ne_nil_of_right_ne_nil front broken.ne_nil
        refine ⟨before, front ++ tail, after, segments, rfl, stands, filled, read, ?_⟩
        rw [readSegments_singleton_eq_error_iff, readPieces_eq_error_iff]
        exact Or.inr ⟨front, pieces, tail, place, rfl, written, broken, rfl⟩
      | @misplacedParent before after segments stands read sinks =>
        have more : before ≠ [] := by
          rintro rfl
          cases read
        obtain ⟨segments, read, sinks⟩ :=
          (sinks_iff more (head?_before whole)).mp ⟨segments, read, sinks⟩
        refine ⟨before, parentName, after, segments, rfl, stands, by simp [parentName], read, ?_⟩
        exact readSegments_singleton_eq_error_iff.mpr (Or.inl ⟨rfl, sinks, rfl, rfl⟩)

/-- A text that is refused is refused for its first offence, at a position within the text. -/
theorem parse_eq_error_iff {s : Text} (filled : s ≠ []) {fault : Fault} :
    parse s = .error fault ↔ fault.pattern = s ∧ fault.position < s.length ∧
      Offence s fault.kind fault.position := by
  rw [parse_eq_error_iff_read, read_eq_error_iff filled]
  exact and_congr_right fun _ => ⟨fun h => ⟨h.position_lt, h⟩, fun h => h.2⟩

theorem parse_eq_error_iff_reversed :
    parse "../a*/\x7bx\x7d[b-c+-!]/..".toList =
        .error ⟨.reversedRange '+' '!', "../a*/\x7bx\x7d[b-c+-!]/..".toList, 13⟩ ∧
      Offence "../a*/\x7bx\x7d[b-c+-!]/..".toList (.reversedRange '+' '!') 13 := by
  have refused : parse "../a*/\x7bx\x7d[b-c+-!]/..".toList =
      .error ⟨.reversedRange '+' '!', "../a*/\x7bx\x7d[b-c+-!]/..".toList, 13⟩ :=
    parse_eq_error_iff_read.mpr ⟨rfl, by cbv⟩
  exact ⟨refused, ((parse_eq_error_iff (by simp)).mp refused).2.2⟩

end Wildpath.Pattern
