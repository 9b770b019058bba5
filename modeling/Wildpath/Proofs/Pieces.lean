import Wildpath.Proofs.Canonical

/-!
# How a component is written

Which texts are components, and which pieces each of them stands for, said without a reader: the
text is cut from left to right into runs of stars, runs of plain characters, question marks, classes
and sets. Where there is such a cut, the reader finds it, so there is only one.
-/

set_option autoImplicit false

namespace Wildpath

namespace Text

theorem eq_append_of_dropWhile {stop c : Char} {s after : Text}
    (h : s.dropWhile (· ≠ stop) = c :: after) : s = s.takeWhile (· ≠ stop) ++ stop :: after := by
  have stops := List.head?_dropWhile_not (· ≠ stop) s
  rw [h] at stops
  have same : c = stop := by simpa using stops
  have whole := @List.takeWhile_append_dropWhile _ (· ≠ stop) s
  rw [h, same] at whole
  exact whole.symm

theorem takeWhile_append_stop {stop : Char} {before : Text} (clean : stop ∉ before) (after : Text) :
    (before ++ stop :: after).takeWhile (· ≠ stop) = before := by
  have runs : ∀ c ∈ before, decide (c ≠ stop) = true := by
    intro c member
    apply decide_eq_true
    intro same
    exact clean (same ▸ member)
  rw [List.takeWhile_append_of_pos runs]
  simp

theorem dropWhile_append_stop {stop : Char} {before : Text} (clean : stop ∉ before) (after : Text) :
    (before ++ stop :: after).dropWhile (· ≠ stop) = stop :: after := by
  have whole := @List.takeWhile_append_dropWhile _ (· ≠ stop) (before ++ stop :: after)
  rw [takeWhile_append_stop clean] at whole
  exact List.append_cancel_left whole

theorem notMem_takeWhile (stop : Char) (s : Text) : stop ∉ s.takeWhile (· ≠ stop) := by
  intro member
  have kept := List.all_eq_true.mp List.all_takeWhile stop member
  simp at kept

variable {sep : Char}

theorem fields_of_notMem {piece : Text} (clean : sep ∉ piece) : fields sep piece = [piece] := by
  induction piece with
  | nil => rfl
  | cons c piece ih =>
    have apart := List.ne_and_not_mem_of_not_mem_cons clean
    simp [fields, apart.1.symm, ih apart.2]

theorem fields_append {piece : Text} (clean : sep ∉ piece) (rest : Text) :
    fields sep (piece ++ sep :: rest) = piece :: fields sep rest := by
  induction piece with
  | nil => simp [fields]
  | cons c piece ih =>
    have apart := List.ne_and_not_mem_of_not_mem_cons clean
    simp [fields, apart.1.symm, ih apart.2]

theorem notMem_of_mem_fields {piece s : Text} (h : piece ∈ fields sep s) : sep ∉ piece := by
  induction s generalizing piece with
  | nil =>
    rw [List.mem_singleton.mp h]
    simp
  | cons c s ih =>
    rw [fields] at h
    split at h
    · rcases List.mem_cons.mp h with rfl | h
      · simp
      · exact ih h
    · next other =>
      split at h
      · next none => exact absurd none (fields_ne_nil sep s)
      · next first more pieces =>
        rw [pieces] at ih
        rcases List.mem_cons.mp h with rfl | h
        · have := ih List.mem_cons_self
          simp [Ne.symm other, this]
        · exact ih (List.mem_cons_of_mem _ h)

/-- The pieces between separators are the only texts without the separator that make up the text. -/
theorem fields_eq_iff {s : Text} {pieces : List Text} :
    fields sep s = pieces ↔
      pieces ≠ [] ∧ (∀ piece ∈ pieces, sep ∉ piece) ∧ joined [sep] pieces = s := by
  constructor
  · intro h
    subst h
    exact ⟨fields_ne_nil sep s, fun piece => notMem_of_mem_fields, joined_fields sep s⟩
  · intro h
    obtain ⟨ne, clean, rfl⟩ := h
    induction pieces with
    | nil => exact absurd rfl ne
    | cons piece more ih =>
      obtain ⟨first, others⟩ := List.forall_mem_cons.mp clean
      cases more with
      | nil => exact fields_of_notMem first
      | cons next more =>
        have later := ih (by simp) others
        rw [joined, List.append_assoc, List.singleton_append, fields_append first, later]
        simp

end Text

namespace Pattern

/-- The characters of a class: `c-d` wherever a character follows the dash, otherwise one character.
No range runs backwards. -/
inductive WrittenRanges : Text → List (Char × Char) → Prop where
  | nil : WrittenRanges [] []
  | span {low high : Char} {rest : Text} {ranges : List (Char × Char)} : low ≤ high →
    WrittenRanges rest ranges → WrittenRanges (low :: '-' :: high :: rest) ((low, high) :: ranges)
  | single {c : Char} {rest : Text} {ranges : List (Char × Char)} :
    (∀ high rest', rest ≠ '-' :: high :: rest') → WrittenRanges rest ranges →
    WrittenRanges (c :: rest) ((c, c) :: ranges)

/-- What stands before the bracket that closes a class, which is never the first character. -/
structure WrittenBody (body : Text) (ranges : List (Char × Char)) : Prop where
  filled : body ≠ []
  closed : ']' ∉ body.tail
  ranges : WrittenRanges body ranges

/-- A class between its brackets. A mark in front inverts it. -/
inductive WrittenClass : Text → CharClass → Prop where
  | plain {body : Text} {ranges : List (Char × Char)} : body.head? ≠ some '!' →
    body.head? ≠ some '^' → WrittenBody body ranges → WrittenClass body ⟨ranges, false⟩
  | inverted {mark : Char} {body : Text} {ranges : List (Char × Char)} : mark = '!' ∨ mark = '^' →
    WrittenBody body ranges → WrittenClass (mark :: body) ⟨ranges, true⟩

/-- A set between its braces: items without braces and commas, with commas between them. -/
structure WrittenSet (body : Text) (items : List Text) : Prop where
  closed : '}' ∉ body
  flat : '{' ∉ body
  filled : items ≠ []
  apart : ∀ item ∈ items, ',' ∉ item
  whole : Text.joined [','] items = body

/-- The pieces of a component from left to right. Stars and plain characters are taken in the
longest runs. -/
inductive WrittenPieces : Text → List Pattern → Prop where
  | nil : WrittenPieces [] []
  | star {count : Nat} {rest : Text} {pieces : List Pattern} : rest.head? ≠ some '*' →
    WrittenPieces rest pieces →
    WrittenPieces (List.replicate (count + 1) '*' ++ rest) (.star :: pieces)
  | anyChar {rest : Text} {pieces : List Pattern} : WrittenPieces rest pieces →
    WrittenPieces ('?' :: rest) (.anyChar :: pieces)
  | charClass {body rest : Text} {cls : CharClass} {pieces : List Pattern} :
    WrittenClass body cls → WrittenPieces rest pieces →
    WrittenPieces ('[' :: (body ++ ']' :: rest)) (.charClass cls :: pieces)
  | oneOf {body rest : Text} {items : List Text} {pieces : List Pattern} :
    WrittenSet body items → WrittenPieces rest pieces →
    WrittenPieces ('{' :: (body ++ '}' :: rest)) (.oneOf items :: pieces)
  | text {value rest : Text} {pieces : List Pattern} : value ≠ [] →
    (∀ c ∈ value, isPlain c = true) → (∀ c ∈ rest.head?, isPlain c = false) →
    WrittenPieces rest pieces → WrittenPieces (value ++ rest) (.text value :: pieces)

theorem split_eq_some_iff {s body rest : Text} : Bracket.split s = (body, some rest) ↔
    s = body ++ ']' :: rest ∧ body ≠ [] ∧ ']' ∉ body.tail := by
  constructor
  · intro h
    cases s with
    | nil => simp [Bracket.split] at h
    | cons first tail =>
      simp only [Bracket.split] at h
      cases ended : tail.dropWhile (· ≠ ']') with
      | nil =>
        rw [ended] at h
        cases h
      | cons c after =>
        rw [ended] at h
        cases h
        refine ⟨?_, by simp, Text.notMem_takeWhile ']' tail⟩
        rw [List.cons_append, ← Text.eq_append_of_dropWhile ended]
  · intro h
    obtain ⟨rfl, filled, closed⟩ := h
    cases body with
    | nil => exact absurd rfl filled
    | cons first body =>
      rw [List.tail_cons] at closed
      simp only [List.cons_append, Bracket.split, Text.takeWhile_append_stop closed,
        Text.dropWhile_append_stop closed]

theorem WrittenBody.split {body : Text} {ranges : List (Char × Char)} (h : WrittenBody body ranges)
    (rest : Text) : Bracket.split (body ++ ']' :: rest) = (body, some rest) :=
  split_eq_some_iff.mpr ⟨rfl, h.filled, h.closed⟩

theorem map_located (position position' : Nat) (body : Text) :
    (Bracket.located position body).map (·.2) = (Bracket.located position' body).map (·.2) := by
  fun_induction Bracket.located position body generalizing position' with
  | case1 => rfl
  | case2 position low high rest ih =>
    rw [Bracket.located, List.map_cons, List.map_cons, ih]
  | case3 position c rest other ih =>
    rw [Bracket.located, List.map_cons, List.map_cons, ih]
    exact other

/-- The ranges of a body are written there if none of them runs backwards. -/
theorem writtenRanges_iff (position : Nat) {body : Text} {ranges : List (Char × Char)} :
    WrittenRanges body ranges ↔ (∀ r ∈ Bracket.located position body, r.2.1 ≤ r.2.2) ∧
      Bracket.ranges body = ranges := by
  rw [Bracket.ranges, map_located 0 position]
  fun_induction Bracket.located position body generalizing ranges with
  | case1 =>
    constructor
    · intro h
      cases h
      simp
    · intro h
      rw [← h.2]
      exact .nil
  | case2 position low high rest ih =>
    constructor
    · intro h
      cases h with
      | span ordered h =>
        obtain ⟨others, same⟩ := ih.mp h
        exact ⟨List.forall_mem_cons.mpr ⟨ordered, others⟩, by rw [List.map_cons, same]⟩
      | single other _ => exact absurd rfl (other high rest)
    · intro h
      obtain ⟨ordered, rfl⟩ := h
      obtain ⟨first, others⟩ := List.forall_mem_cons.mp ordered
      exact .span first (ih.mpr ⟨others, rfl⟩)
  | case3 position c rest other ih =>
    constructor
    · intro h
      cases h with
      | span => exact absurd rfl (other _ _)
      | single _ h =>
        obtain ⟨others, same⟩ := ih.mp h
        exact ⟨List.forall_mem_cons.mpr ⟨Char.le_refl c, others⟩, by rw [List.map_cons, same]⟩
    · intro h
      obtain ⟨ordered, rfl⟩ := h
      exact .single other (ih.mpr ⟨(List.forall_mem_cons.mp ordered).2, rfl⟩)

theorem inversion_cases (s : Text) :
    (∃ mark rest, (mark = '!' ∨ mark = '^') ∧ s = mark :: rest ∧
      Bracket.inversion s = (true, rest)) ∨
    (s.head? ≠ some '!' ∧ s.head? ≠ some '^' ∧ Bracket.inversion s = (false, s)) := by
  unfold Bracket.inversion
  split
  · next rest => exact Or.inl ⟨'!', rest, Or.inl rfl, rfl, rfl⟩
  · next rest => exact Or.inl ⟨'^', rest, Or.inr rfl, rfl, rfl⟩
  · next notBang notCaret =>
    cases s with
    | nil => simp
    | cons c rest =>
      right
      refine ⟨?_, ?_, rfl⟩
      · intro same
        exact notBang rest (congrArg (· :: rest) (Option.some.inj same))
      · intro same
        exact notCaret rest (congrArg (· :: rest) (Option.some.inj same))

theorem readClass_eq_ok_iff_split {position : Nat} {s rest : Text} {cls : CharClass} :
    readClass position s = .ok (cls, rest) ↔
      ∃ body, Bracket.split (Bracket.inversion s).2 = (body, some rest) ∧
        WrittenRanges body cls.ranges ∧ cls.inverted = (Bracket.inversion s).1 := by
  simp only [readClass]
  generalize Bracket.inversion s = mark
  obtain ⟨inverted, inner⟩ := mark
  cases Bracket.split inner with
  | mk body after =>
    simp only
    generalize position + 1 + (s.length - inner.length) = start
    constructor
    · intro h
      split at h
      · cases h
      · next forwards =>
        split at h
        · cases h
        · next after =>
          cases h
          refine ⟨body, rfl, (writtenRanges_iff start).mpr ⟨?_, rfl⟩, rfl⟩
          intro r member
          have := List.find?_eq_none.mp forwards r member
          exact Char.not_lt.mp (by simpa using this)
    · intro h
      obtain ⟨_, same, written, rfl⟩ := h
      cases same
      obtain ⟨ordered, ranges⟩ := (writtenRanges_iff start).mp written
      have forwards : (Bracket.located start body).find? (fun r => r.2.2 < r.2.1) = none := by
        apply List.find?_eq_none.mpr
        intro r member backwards
        exact Char.not_lt.mpr (ordered r member) (of_decide_eq_true backwards)
      rw [forwards, ranges]

theorem head?_append_of_ne_nil {α : Type} {before : List α} (ne : before ≠ []) (after : List α) :
    (before ++ after).head? = before.head? := by
  cases before with
  | nil => exact absurd rfl ne
  | cons => rfl

/-- Reading a class takes what is written up to the bracket that closes it. -/
theorem readClass_eq_ok_iff {position : Nat} {s rest : Text} {cls : CharClass} :
    readClass position s = .ok (cls, rest) ↔
      ∃ body, s = body ++ ']' :: rest ∧ WrittenClass body cls := by
  obtain ⟨ranges, inverted⟩ := cls
  rw [readClass_eq_ok_iff_split]
  constructor
  · intro h
    obtain ⟨body, split, written, marked⟩ := h
    obtain ⟨inner, filled, closed⟩ := split_eq_some_iff.mp split
    rcases inversion_cases s with
      ⟨mark, after, isMark, rfl, inversion⟩ | ⟨notBang, notCaret, inversion⟩
    · rw [inversion] at inner marked
      obtain rfl : inverted = true := marked
      exact ⟨mark :: body, congrArg (mark :: ·) inner, .inverted isMark ⟨filled, closed, written⟩⟩
    · rw [inversion] at inner marked
      obtain rfl : inverted = false := marked
      obtain rfl : s = body ++ ']' :: rest := inner
      rw [head?_append_of_ne_nil filled] at notBang notCaret
      exact ⟨body, rfl, .plain notBang notCaret ⟨filled, closed, written⟩⟩
  · intro h
    obtain ⟨body, rfl, written⟩ := h
    cases written with
    | @plain body _ notBang notCaret written =>
      rcases inversion_cases (body ++ ']' :: rest) with
        ⟨mark, after, isMark, same, -⟩ | ⟨-, -, inversion⟩
      · have head : body.head? = some mark := by
          rw [← head?_append_of_ne_nil written.filled, same]
          rfl
        rcases isMark with rfl | rfl
        · exact absurd head notBang
        · exact absurd head notCaret
      · rw [inversion]
        exact ⟨body, written.split rest, written.ranges, rfl⟩
    | @inverted mark body _ isMark written =>
      have inversion : Bracket.inversion (mark :: (body ++ ']' :: rest)) =
          (true, body ++ ']' :: rest) := by
        rcases isMark with rfl | rfl <;> rfl
      rw [List.cons_append, inversion]
      exact ⟨body, written.split rest, written.ranges, rfl⟩

/-- Reading a set takes what is written up to the brace that closes it. -/
theorem readSet_eq_ok_iff {position : Nat} {s rest : Text} {items : List Text} :
    readSet position s = .ok (items, rest) ↔
      ∃ body, s = body ++ '}' :: rest ∧ WrittenSet body items := by
  constructor
  · intro h
    simp only [readSet] at h
    split at h
    · cases h
    · next c after ended =>
      split at h
      · cases h
      · next flat =>
        cases h
        have items := Text.fields_eq_iff.mp (rfl : Text.fields ',' (s.takeWhile (· ≠ '}')) = _)
        obtain ⟨filled, apart, whole⟩ := items
        have flat : '{' ∉ s.takeWhile (· ≠ '}') := by simpa using flat
        exact ⟨_, Text.eq_append_of_dropWhile ended, Text.notMem_takeWhile '}' s, flat, filled,
          apart, whole⟩
  · intro h
    obtain ⟨body, rfl, written⟩ := h
    have items := Text.fields_eq_iff.mpr ⟨written.filled, written.apart, written.whole⟩
    have flat : body.contains '{' = false := by simpa using written.flat
    simp only [readSet, Text.takeWhile_append_stop written.closed,
      Text.dropWhile_append_stop written.closed, flat, items, Bool.false_eq_true, if_false]

namespace WrittenPieces

variable {s : Text} {pieces : List Pattern}

theorem star_iff (h : WrittenPieces s pieces) :
    s.head? = some '*' ↔ ∃ later, pieces = .star :: later := by
  cases h with
  | star => simp [List.replicate_succ]
  | @text value rest later filled plain =>
    cases value with
    | nil => exact absurd rfl filled
    | cons c value =>
      have plain := plain c List.mem_cons_self
      apply iff_of_false
      · intro same
        cases same
        cases plain
      · simp
  | _ => simp

theorem text_iff (h : WrittenPieces s pieces) :
    (∃ c ∈ s.head?, isPlain c = true) ↔ ∃ value later, pieces = .text value :: later := by
  cases h with
  | star => simp [List.replicate_succ, isPlain]
  | @text value rest later filled plain =>
    cases value with
    | nil => exact absurd rfl filled
    | cons c value => simp [plain c List.mem_cons_self]
  | _ => simp [isPlain]

theorem consStar (h : WrittenPieces s pieces) : WrittenPieces ('*' :: s) (consStar pieces) := by
  unfold Pattern.consStar
  split
  · next later =>
    cases h with
    | @star count rest _ ended h => exact @star (count + 1) rest later ended h
  · next other =>
    have ended : s.head? ≠ some '*' := by
      intro starts
      obtain ⟨later, same⟩ := h.star_iff.mp starts
      exact other later same
    exact @star 0 s pieces ended h

theorem consChar {c : Char} (plain : isPlain c = true) (h : WrittenPieces s pieces) :
    WrittenPieces (c :: s) (consChar c pieces) := by
  unfold Pattern.consChar
  split
  · next value later =>
    cases h with
    | @text _ rest _ filled all ended h =>
      exact @text (c :: value) rest later (by simp) (List.forall_mem_cons.mpr ⟨plain, all⟩) ended h
  · next other =>
    have ended : ∀ d ∈ s.head?, isPlain d = false := by
      intro d first
      rw [← Bool.not_eq_true]
      intro plain
      obtain ⟨value, later, same⟩ := h.text_iff.mp ⟨d, first, plain⟩
      exact other value later same
    exact @text [c] s pieces (by simp) (by simpa using plain) ended h

end WrittenPieces

theorem written_of_readPieces {position : Nat} {s : Text} {pieces : List Pattern}
    (h : readPieces position s = .ok pieces) : WrittenPieces s pieces := by
  fun_induction readPieces position s generalizing pieces with
  | case1 =>
    cases h
    exact .nil
  | case2 position rest ih =>
    obtain ⟨later, read, rfl⟩ := map_eq_ok_iff.mp h
    exact (ih read).consStar
  | case3 position rest ih =>
    obtain ⟨later, read, rfl⟩ := map_eq_ok_iff.mp h
    exact .anyChar (ih read)
  | case4 => cases h
  | case5 position inner cls rest own _ ih =>
    obtain ⟨later, read, rfl⟩ := map_eq_ok_iff.mp h
    obtain ⟨body, rfl, written⟩ := readClass_eq_ok_iff.mp own
    exact .charClass written (ih read)
  | case6 => cases h
  | case7 position inner items rest own _ ih =>
    obtain ⟨later, read, rfl⟩ := map_eq_ok_iff.mp h
    obtain ⟨body, rfl, written⟩ := readSet_eq_ok_iff.mp own
    exact .oneOf written (ih read)
  | case8 position c rest notStar notAny notClass notSet ih =>
    obtain ⟨later, read, rfl⟩ := map_eq_ok_iff.mp h
    have plain : isPlain c = true := by
      simp only [isPlain, Bool.and_eq_true, bne_iff_ne]
      exact ⟨⟨⟨notStar, notAny⟩, notClass⟩, notSet⟩
    exact (ih read).consChar plain

theorem readPieces_stars {rest : Text} {pieces : List Pattern} (ended : rest.head? ≠ some '*')
    (written : WrittenPieces rest pieces) (read : ∀ position, readPieces position rest = .ok pieces)
    (count position : Nat) :
    readPieces position (List.replicate (count + 1) '*' ++ rest) = .ok (.star :: pieces) := by
  induction count generalizing position with
  | zero =>
    have first : consStar pieces = .star :: pieces := by
      unfold consStar
      split
      · next later => exact absurd (written.star_iff.mpr ⟨later, rfl⟩) ended
      · rfl
    rw [List.replicate_one, List.singleton_append, readPieces, read]
    exact congrArg Except.ok first
  | succ count ih =>
    rw [List.replicate_succ, List.cons_append, readPieces, ih]
    rfl

theorem readPieces_plain {c : Char} (plain : isPlain c = true) (position : Nat) (rest : Text) :
    readPieces position (c :: rest) = consChar c <$> readPieces (position + 1) rest := by
  simp only [isPlain, Bool.and_eq_true, bne_iff_ne, ne_eq] at plain
  obtain ⟨⟨⟨notStar, notAny⟩, notClass⟩, notSet⟩ := plain
  rw [readPieces]
  all_goals assumption

theorem readPieces_text {rest value : Text} {pieces : List Pattern} (filled : value ≠ [])
    (plain : ∀ c ∈ value, isPlain c = true) (ended : ∀ c ∈ rest.head?, isPlain c = false)
    (written : WrittenPieces rest pieces) (read : ∀ position, readPieces position rest = .ok pieces)
    (position : Nat) : readPieces position (value ++ rest) = .ok (.text value :: pieces) := by
  induction value generalizing position with
  | nil => exact absurd rfl filled
  | cons c value ih =>
    obtain ⟨first, others⟩ := List.forall_mem_cons.mp plain
    rw [List.cons_append, readPieces_plain first]
    cases value with
    | nil =>
      have alone : consChar c pieces = .text [c] :: pieces := by
        unfold consChar
        split
        · next value later =>
          obtain ⟨d, starts, plain⟩ := written.text_iff.mpr ⟨value, later, rfl⟩
          rw [ended d starts] at plain
          cases plain
        · rfl
      rw [List.nil_append, read]
      exact congrArg Except.ok alone
    | cons d value =>
      rw [ih (by simp) others]
      rfl

theorem readPieces_class (position : Nat) (inner : Text) :
    readPieces position ('[' :: inner) = readClass position inner >>= fun (cls, rest) =>
      (.charClass cls :: ·) <$> readPieces (position + 1 + (inner.length - rest.length)) rest := by
  rw [readPieces]
  split
  · next refused => simp only [refused, bind, Except.bind]
  · next given => simp only [given, bind, Except.bind]

theorem readPieces_set (position : Nat) (inner : Text) :
    readPieces position ('{' :: inner) = readSet position inner >>= fun (items, rest) =>
      (.oneOf items :: ·) <$> readPieces (position + 1 + (inner.length - rest.length)) rest := by
  rw [readPieces]
  split
  · next refused => simp only [refused, bind, Except.bind]
  · next given => simp only [given, bind, Except.bind]

theorem readPieces_of_written {s : Text} {pieces : List Pattern} (h : WrittenPieces s pieces)
    (position : Nat) : readPieces position s = .ok pieces := by
  induction h generalizing position with
  | nil => rw [readPieces]
  | star ended written ih => exact readPieces_stars ended written ih _ position
  | anyChar _ ih =>
    rw [readPieces, ih]
    rfl
  | @charClass body rest cls pieces own _ ih =>
    have read : readClass position (body ++ ']' :: rest) = .ok (cls, rest) :=
      readClass_eq_ok_iff.mpr ⟨body, rfl, own⟩
    rw [readPieces_class, read, bind_eq_ok_iff]
    exact ⟨_, rfl, map_eq_ok_iff.mpr ⟨pieces, ih _, rfl⟩⟩
  | @oneOf body rest items pieces own _ ih =>
    have read : readSet position (body ++ '}' :: rest) = .ok (items, rest) :=
      readSet_eq_ok_iff.mpr ⟨body, rfl, own⟩
    rw [readPieces_set, read, bind_eq_ok_iff]
    exact ⟨_, rfl, map_eq_ok_iff.mpr ⟨pieces, ih _, rfl⟩⟩
  | text filled plain ended written ih =>
    exact readPieces_text filled plain ended written ih position

theorem readPieces_eq_ok_iff (position : Nat) {s : Text} {pieces : List Pattern} :
    readPieces position s = .ok pieces ↔ WrittenPieces s pieces :=
  ⟨written_of_readPieces, fun h => readPieces_of_written h position⟩

end Pattern
end Wildpath
