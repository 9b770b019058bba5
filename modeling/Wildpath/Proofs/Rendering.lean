import Mathlib.Data.List.Permutation
import Wildpath.Pattern.Render
import Wildpath.Proofs.Joining

/-!
# Reading what was written

A pattern that was read is written with a slash between its segments, one star for a run of stars
and one character for a range of one. Reading gives the same segments again, with one exception: a
range of one character loses its dash, so a dash that follows it may join it to the character after
the dash.
-/

set_option autoImplicit false

namespace Wildpath

theorem Text.joined_cons_cons (sep piece next : Text) (more : List Text) :
    joined sep (piece :: next :: more) = piece ++ sep ++ joined sep (next :: more) := rfl

theorem Text.mem_joined {sep : Text} {pieces : List Text} {piece : Text} (member : piece ∈ pieces)
    {c : Char} (own : c ∈ piece) : c ∈ Text.joined sep pieces := by
  induction pieces with
  | nil => cases member
  | cons first more ih =>
    cases more with
    | nil =>
      rw [List.mem_singleton.mp member] at own
      exact own
    | cons next more =>
      rw [Text.joined_cons_cons, List.append_assoc, List.mem_append, List.mem_append]
      rcases List.mem_cons.mp member with rfl | member
      · exact Or.inl own
      · exact Or.inr (Or.inr (ih member))

namespace CharClass

/-- A dash after a single character ends the class. -/
def Legible (cls : CharClass) : Prop :=
  ∀ before c high after, cls.ranges = before ++ (c, c) :: ('-', high) :: after →
    high = '-' ∧ after = []

theorem legible_nil (inverted : Bool) : Legible ⟨[], inverted⟩ := by
  intro before c high after same
  simp at same

theorem legible_cons_iff {low high : Char} {ranges : List (Char × Char)} {inverted : Bool} :
    Legible ⟨(low, high) :: ranges, inverted⟩ ↔
      (low = high → ∀ top after, ranges = ('-', top) :: after → top = '-' ∧ after = []) ∧
        Legible ⟨ranges, inverted⟩ := by
  constructor
  · intro legible
    constructor
    · rintro rfl top after rfl
      exact legible [] low top after rfl
    · intro before c top after same
      exact legible ((low, high) :: before) c top after (congrArg (_ :: ·) same)
  · rintro ⟨first, legible⟩ before c top after same
    cases before with
    | nil =>
      obtain ⟨pair, rest⟩ := List.cons.inj same
      cases pair
      exact first rfl top after rest
    | cons r before => exact legible before c top after (List.cons.inj same).2

/-- The written ranges, without the brackets around them and the mark before them. -/
def written (ranges : List (Char × Char)) : Text := ranges.flatMap renderRange

theorem written_single (c : Char) (ranges : List (Char × Char)) :
    written ((c, c) :: ranges) = c :: written ranges := by
  simp [written, renderRange]

theorem written_span {low high : Char} (apart : low ≠ high) (ranges : List (Char × Char)) :
    written ((low, high) :: ranges) = low :: '-' :: high :: written ranges := by
  simp [written, renderRange, apart]

theorem head?_written (ranges : List (Char × Char)) :
    (written ranges).head? = ranges.head?.map Prod.fst := by
  cases ranges with
  | nil => rfl
  | cons r ranges =>
    by_cases same : r.1 = r.2 <;> simp [written, renderRange, same]

theorem written_eq_nil_iff {ranges : List (Char × Char)} : written ranges = [] ↔ ranges = [] := by
  have heads := head?_written ranges
  cases ranges with
  | nil => simp [written]
  | cons r ranges =>
    refine iff_of_false ?_ (by simp)
    intro none
    simp [none] at heads

/-- A dash with a character after it is written for a dash that does not end the class. -/
theorem written_eq_dash_iff {ranges : List (Char × Char)} :
    (∃ c rest, written ranges = '-' :: c :: rest) ↔
      ∃ high after, ranges = ('-', high) :: after ∧ ¬ (high = '-' ∧ after = []) := by
  cases ranges with
  | nil => simp [written]
  | cons r ranges =>
    obtain ⟨low, high⟩ := r
    by_cases same : low = high
    · subst same
      rw [written_single]
      constructor
      · rintro ⟨c, rest, dash⟩
        obtain ⟨rfl, more⟩ := List.cons.inj dash
        refine ⟨'-', ranges, rfl, ?_⟩
        rintro ⟨-, none⟩
        rw [written_eq_nil_iff.mpr none] at more
        cases more
      · rintro ⟨top, after, dash, more⟩
        obtain ⟨pair, rfl⟩ := List.cons.inj dash
        cases pair
        cases left : written ranges with
        | nil => exact absurd ⟨rfl, written_eq_nil_iff.mp left⟩ more
        | cons c rest => exact ⟨c, rest, rfl⟩
    · rw [written_span same]
      constructor
      · rintro ⟨c, rest, dash⟩
        obtain ⟨rfl, -⟩ := List.cons.inj dash
        exact ⟨high, ranges, rfl, fun ended => same ended.1.symm⟩
      · rintro ⟨top, after, dash, -⟩
        obtain ⟨pair, rfl⟩ := List.cons.inj dash
        cases pair
        exact ⟨'-', high :: written ranges, rfl⟩

theorem written_ne_dash_iff {ranges : List (Char × Char)} :
    (∀ c rest, written ranges ≠ '-' :: c :: rest) ↔
      ∀ high after, ranges = ('-', high) :: after → high = '-' ∧ after = [] := by
  constructor
  · intro clear high after same
    by_contra more
    obtain ⟨c, rest, dash⟩ := written_eq_dash_iff.mpr ⟨high, after, same, more⟩
    exact clear c rest dash
  · intro ended c rest dash
    obtain ⟨high, after, same, more⟩ := written_eq_dash_iff.mp ⟨c, rest, dash⟩
    exact more (ended high after same)

end CharClass

namespace Pattern

open CharClass (written written_single written_span)

/-- Of the ranges of a class, writing leaves out at most the dash and the end of a range. -/
theorem WrittenRanges.sublist {body : Text} {ranges : List (Char × Char)}
    (h : WrittenRanges body ranges) : (written ranges).Sublist body := by
  induction h with
  | nil => exact .slnil
  | @span low high rest ranges _ _ ih =>
    by_cases same : low = high
    · subst same
      rw [written_single]
      exact (ih.cons _).cons _ |>.cons_cons low
    · rw [written_span same]
      exact ih.cons_cons high |>.cons_cons '-' |>.cons_cons low
  | @single c rest ranges _ _ ih =>
    rw [written_single]
    exact ih.cons_cons c

theorem WrittenRanges.head? {body : Text} {ranges : List (Char × Char)}
    (h : WrittenRanges body ranges) : (written ranges).head? = body.head? := by
  rw [CharClass.head?_written]
  cases h <;> rfl

theorem WrittenRanges.ordered {body : Text} {ranges : List (Char × Char)}
    (h : WrittenRanges body ranges) : ∀ r ∈ ranges, r.1 ≤ r.2 := by
  induction h with
  | nil => simp
  | span first _ ih => exact List.forall_mem_cons.mpr ⟨first, ih⟩
  | single _ _ ih => exact List.forall_mem_cons.mpr ⟨Char.le_refl _, ih⟩

/-- Ranges are read from what is written for them as long as no dash joins two of them. -/
theorem writtenRanges_written_iff {ranges : List (Char × Char)} (inverted : Bool)
    (ordered : ∀ r ∈ ranges, r.1 ≤ r.2) :
    WrittenRanges (written ranges) ranges ↔ CharClass.Legible ⟨ranges, inverted⟩ := by
  induction ranges with
  | nil => exact iff_of_true .nil (CharClass.legible_nil inverted)
  | cons r ranges ih =>
    obtain ⟨low, high⟩ := r
    obtain ⟨first, others⟩ := List.forall_mem_cons.mp ordered
    rw [CharClass.legible_cons_iff, ← ih others]
    by_cases same : low = high
    · subst same
      rw [written_single, ← CharClass.written_ne_dash_iff]
      constructor
      · intro h
        generalize text : low :: written ranges = body at h
        cases h with
        | @span _ _ rest _ _ later =>
          -- what is written for the later ranges would be shorter than itself
          have whole := (List.cons.inj text).2
          have shorter := later.sublist.length_le
          rw [whole, List.length_cons, List.length_cons] at shorter
          omega
        | single clear later =>
          obtain ⟨-, rfl⟩ := List.cons.inj text
          exact ⟨fun _ => clear, later⟩
      · rintro ⟨clear, later⟩
        exact .single (clear rfl) later
    · rw [written_span same]
      constructor
      · intro h
        cases h with
        | span _ later => exact ⟨fun equal => absurd equal same, later⟩
        | single => exact absurd rfl same
      · rintro ⟨-, later⟩
        exact .span first later

namespace WrittenBody

variable {body : Text} {ranges : List (Char × Char)}

theorem filled_written (h : WrittenBody body ranges) : written ranges ≠ [] := by
  intro none
  have heads := h.ranges.head?
  rw [none, List.head?_nil, eq_comm, List.head?_eq_none_iff] at heads
  exact h.filled heads

theorem closed_written (h : WrittenBody body ranges) : ']' ∉ (written ranges).tail := by
  have heads := h.ranges.head?
  have kept := h.ranges.sublist
  intro member
  cases body with
  | nil => exact h.filled rfl
  | cons first body =>
    cases text : written ranges with
    | nil => exact h.filled_written text
    | cons first' rest =>
      rw [text] at heads kept member
      obtain rfl : first' = first := by simpa using heads
      exact h.closed ((List.cons_sublist_cons.mp kept).subset member)

/-- What is written for a class ends where its own bracket closes it. -/
theorem split_written (h : WrittenBody body ranges) (rest : Text) :
    Bracket.split (written ranges ++ ']' :: rest) = (written ranges, some rest) :=
  split_eq_some_iff.mpr ⟨rfl, h.filled_written, h.closed_written⟩

theorem written_iff (h : WrittenBody body ranges) (inverted : Bool) :
    WrittenBody (written ranges) ranges ↔ CharClass.Legible ⟨ranges, inverted⟩ := by
  rw [← writtenRanges_written_iff inverted h.ranges.ordered]
  constructor
  · exact fun again => again.ranges
  · exact fun again => ⟨h.filled_written, h.closed_written, again⟩

end WrittenBody

end Pattern

/-- What is written between the brackets of a class. -/
def CharClass.inner (cls : CharClass) : Text :=
  (if cls.inverted then ['!'] else []) ++ written cls.ranges

theorem CharClass.render_append (cls : CharClass) (rest : Text) :
    cls.render ++ rest = '[' :: (cls.inner ++ ']' :: rest) := by
  simp [render, inner, written]

namespace Pattern

open CharClass (written)

namespace WrittenClass

variable {body : Text} {cls : CharClass}

theorem inner_iff (h : WrittenClass body cls) : WrittenClass cls.inner cls ↔ cls.Legible := by
  cases h with
  | @plain body ranges notBang notCaret h =>
    have inner : CharClass.inner ⟨ranges, false⟩ = written ranges := rfl
    rw [inner, ← h.written_iff]
    constructor
    · intro again
      generalize written ranges = text at again ⊢
      cases again with
      | plain _ _ again => exact again
    · intro again
      rw [← h.ranges.head?] at notBang notCaret
      exact .plain notBang notCaret again
  | @inverted mark body ranges _ h =>
    have inner : CharClass.inner ⟨ranges, true⟩ = '!' :: written ranges := rfl
    rw [inner, ← h.written_iff]
    constructor
    · intro again
      cases again with
      | inverted _ again => exact again
    · exact fun again => .inverted (.inl rfl) again

theorem mem_inner (h : WrittenClass body cls) {c : Char} (member : c ∈ cls.inner) :
    c ∈ body ∨ c = '!' := by
  cases h with
  | plain _ _ h => exact Or.inl (h.ranges.sublist.subset member)
  | inverted _ h =>
    rcases List.mem_cons.mp member with rfl | member
    · exact Or.inr rfl
    · exact Or.inl (List.mem_cons_of_mem _ (h.ranges.sublist.subset member))

/-- A class and what follows it can be told apart in what is written for them. -/
theorem eq_inner (h : WrittenClass body cls) {body' rest rest' : Text}
    (again : WrittenClass body' cls) (same : cls.inner ++ ']' :: rest = body' ++ ']' :: rest') :
    cls.inner = body' ∧ rest = rest' := by
  cases h with
  | @plain body ranges _ _ h =>
    cases again with
    | plain _ _ again =>
      have same : written ranges ++ ']' :: rest = body' ++ ']' :: rest' := same
      have split := h.split_written rest
      rw [same, again.split] at split
      cases split
      exact ⟨rfl, rfl⟩
  | @inverted mark body ranges _ h =>
    cases again with
    | @inverted mark' body' _ _ again =>
      have whole : '!' :: (written ranges ++ ']' :: rest) = mark' :: (body' ++ ']' :: rest') := same
      obtain ⟨rfl, tails⟩ := List.cons.inj whole
      have split := h.split_written rest
      rw [tails, again.split] at split
      cases split
      exact ⟨rfl, rfl⟩

end WrittenClass

theorem render_oneOf_append {body : Text} {items : List Text} (h : WrittenSet body items)
    (rest : Text) : (oneOf items).render ++ rest = '{' :: (body ++ '}' :: rest) := by
  simp [render, h.whole]

theorem renderPieces_cons (piece : Pattern) (pieces : List Pattern) :
    renderPieces (piece :: pieces) = piece.render ++ renderPieces pieces := by
  rw [renderPieces]

namespace WrittenPieces

variable {s : Text} {pieces : List Pattern}

theorem head?_render (h : WrittenPieces s pieces) : (renderPieces pieces).head? = s.head? := by
  cases h with
  | nil => rfl
  | star => simp [renderPieces_cons, render, List.replicate_succ]
  | anyChar => simp [renderPieces_cons, render]
  | charClass => simp [renderPieces_cons, render, CharClass.render]
  | oneOf => simp [renderPieces_cons, render]
  | text filled =>
    rw [renderPieces_cons, render, head?_append_of_ne_nil filled, head?_append_of_ne_nil filled]

/-- The pieces are read again from what is written for them if and only if their classes are. -/
theorem render_iff (h : WrittenPieces s pieces) :
    WrittenPieces (renderPieces pieces) pieces ↔ ∀ cls, .charClass cls ∈ pieces → cls.Legible := by
  induction h with
  | nil => exact iff_of_true .nil (by simp)
  | @star count rest pieces ended h ih =>
    rw [← h.head?_render] at ended
    rw [renderPieces_cons, render, List.singleton_append]
    simp only [List.mem_cons, reduceCtorEq, false_or, ← ih]
    constructor
    · intro again
      generalize text : '*' :: renderPieces pieces = s at again
      cases again with
      | @star count' rest' _ _ later =>
        rw [List.replicate_succ, List.cons_append] at text
        have tails := (List.cons.inj text).2
        cases count' with
        | zero =>
          obtain rfl : renderPieces pieces = rest' := tails
          exact later
        | succ count' =>
          rw [tails] at ended
          exact absurd rfl ended
    · exact fun later => @star 0 _ pieces ended later
  | @anyChar rest pieces _ ih =>
    rw [renderPieces_cons, render, List.singleton_append]
    simp only [List.mem_cons, reduceCtorEq, false_or, ← ih]
    constructor
    · intro again
      generalize text : '?' :: renderPieces pieces = s at again
      cases again with
      | anyChar later =>
        rw [(List.cons.inj text).2]
        exact later
    · exact fun later => anyChar later
  | @charClass body rest cls pieces own _ ih =>
    rw [renderPieces_cons, render, cls.render_append]
    simp only [List.mem_cons, Pattern.charClass.injEq, or_imp, forall_and, forall_eq, ← ih,
      ← own.inner_iff]
    constructor
    · intro again
      generalize text : '[' :: (cls.inner ++ ']' :: renderPieces pieces) = s at again
      cases again with
      | charClass again later =>
        obtain ⟨rfl, rfl⟩ := own.eq_inner again (List.cons.inj text).2
        exact ⟨again, later⟩
    · exact fun again => charClass again.1 again.2
  | @oneOf body rest items pieces own _ ih =>
    rw [renderPieces_cons, render_oneOf_append own]
    simp only [List.mem_cons, reduceCtorEq, false_or, ← ih]
    constructor
    · intro again
      generalize text : '{' :: (body ++ '}' :: renderPieces pieces) = s at again
      cases again with
      | @oneOf body' rest' _ _ again later =>
        obtain rfl : body = body' := own.whole.symm.trans again.whole
        obtain rfl : renderPieces pieces = rest' :=
          (List.cons.inj (List.append_cancel_left (List.cons.inj text).2)).2
        exact later
    · exact fun later => oneOf own later
  | @text value rest pieces filled plain ended h ih =>
    rw [← h.head?_render] at ended
    simp only [renderPieces_cons, render, List.mem_cons, reduceCtorEq, false_or, ← ih]
    constructor
    · intro again
      generalize whole : value ++ renderPieces pieces = s at again
      cases again with
      | @text _ rest' _ _ _ _ later =>
        obtain rfl : renderPieces pieces = rest' := List.append_cancel_left whole
        exact later
    · exact fun later => text filled plain ended later

theorem mem_render (h : WrittenPieces s pieces) {c : Char} (member : c ∈ renderPieces pieces) :
    c ∈ s ∨ c = '!' := by
  induction h with
  | nil => cases member
  | star _ _ ih =>
    rw [renderPieces_cons, render, List.singleton_append] at member
    grind
  | anyChar _ ih =>
    rw [renderPieces_cons, render, List.singleton_append] at member
    grind
  | charClass own _ ih =>
    rw [renderPieces_cons, render, CharClass.render_append] at member
    have inner := @WrittenClass.mem_inner _ _ own c
    grind
  | oneOf own _ ih =>
    rw [renderPieces_cons, render_oneOf_append own] at member
    grind
  | text _ _ _ _ ih =>
    rw [renderPieces_cons, render] at member
    grind

/-- Plain characters are written as they were read. -/
theorem render_eq_of_plain (h : WrittenPieces s pieces)
    (plain : ∀ c ∈ renderPieces pieces, isPlain c = true) : renderPieces pieces = s := by
  induction h with
  | nil => rfl
  | star => exact absurd (plain '*' (by simp [renderPieces_cons, render])) (by decide)
  | anyChar => exact absurd (plain '?' (by simp [renderPieces_cons, render])) (by decide)
  | charClass =>
    exact absurd (plain '[' (by simp [renderPieces_cons, render, CharClass.render])) (by decide)
  | oneOf => exact absurd (plain '\x7b' (by simp [renderPieces_cons, render])) (by decide)
  | text _ _ _ _ ih =>
    rw [renderPieces_cons, render] at plain ⊢
    rw [ih fun c member => plain c (List.mem_append_right _ member)]

/-- Two stars are `**`, which no component is written as. -/
theorem render_ne_globstar (h : WrittenPieces s pieces) : renderPieces pieces ≠ ['*', '*'] := by
  intro stars
  cases h with
  | star ended h =>
    rw [← h.head?_render] at ended
    rw [renderPieces_cons, render, List.singleton_append] at stars
    rw [(List.cons.inj stars).2] at ended
    exact ended rfl
  | text filled plain =>
    rw [renderPieces_cons, render] at stars
    obtain ⟨c, rest, rfl⟩ := List.exists_cons_of_ne_nil filled
    obtain ⟨rfl, -⟩ := List.cons.inj stars
    exact absurd (plain '*' List.mem_cons_self) (by decide)
  | nil => cases stars
  | anyChar | charClass | oneOf => simp [renderPieces_cons, render, CharClass.render] at stars

end WrittenPieces

/-- No class of a segment has a dash that would join its neighbours. -/
def Legible : Pattern → Prop
  | .component pieces => ∀ cls, .charClass cls ∈ pieces → cls.Legible
  | _ => True

theorem plain_of_dots {name : Text} (dots : ∀ c ∈ name, c = '.') : ∀ c ∈ name, isPlain c = true := by
  intro c member
  rw [dots c member]
  rfl

/-- What may stand between two separators for a segment. -/
structure ProperName (name : Text) : Prop where
  filled : name ≠ []
  inside : ∀ c ∈ name, isSeparator c = false
  counts : name ≠ selfName

namespace WrittenSegment

variable {name : Text} {segment : Pattern}

theorem render_eq_of_plain (h : WrittenSegment name segment)
    (plain : ∀ c ∈ segment.render, isPlain c = true) : segment.render = name := by
  cases h with
  | globstar => rfl
  | component _ written =>
    rw [render] at plain ⊢
    exact written.render_eq_of_plain plain

theorem properName_render (h : WrittenSegment name segment) (proper : ProperName name) :
    ProperName segment.render where
  filled := by
    cases h with
    | globstar => exact proper.filled
    | component _ written =>
      intro none
      have heads := written.head?_render
      rw [render] at none
      rw [none, List.head?_nil, eq_comm, List.head?_eq_none_iff] at heads
      exact proper.filled heads
  inside := by
    intro c member
    cases h with
    | globstar => exact proper.inside c member
    | component _ written =>
      rw [render] at member
      rcases written.mem_render member with there | rfl
      · exact proper.inside c there
      · rfl
  counts := by
    intro isSelf
    have plain : ∀ c ∈ segment.render, isPlain c = true := by
      rw [isSelf]
      exact plain_of_dots (by simp [selfName])
    rw [h.render_eq_of_plain plain] at isSelf
    exact proper.counts isSelf

theorem render_iff (h : WrittenSegment name segment) :
    WrittenSegment segment.render segment ↔ segment.Legible := by
  cases h with
  | globstar => exact iff_of_true .globstar trivial
  | @component name pieces _ written =>
    rw [render, Legible, ← written.render_iff]
    constructor
    · intro again
      generalize renderPieces pieces = text at again ⊢
      cases again with
      | component _ again => exact again
    · exact fun again => .component written.render_ne_globstar again

end WrittenSegment

theorem WrittenNames.properName {s : Text} {names : List Text} (h : WrittenNames s names) :
    ∀ name ∈ essential names, ProperName name := by
  induction h with
  | nil => simp [essential]
  | separator _ _ ih => exact ih
  | @name name rest names filled inside _ _ ih =>
    by_cases isSelf : name = selfName
    · rw [isSelf, essential_cons_self]
      exact ih
    · rw [essential_cons isSelf]
      exact List.forall_mem_cons.mpr ⟨⟨filled, inside, isSelf⟩, ih⟩

theorem essential_eq_self {names : List Text} (proper : ∀ name ∈ names, ProperName name) :
    essential names = names :=
  List.filter_eq_self.mpr fun name member => decide_eq_true (proper name member).counts

theorem writtenNames_joined {names : List Text} (proper : ∀ name ∈ names, ProperName name) :
    WrittenNames (Text.joined ['/'] names) names := by
  induction names with
  | nil => exact .nil
  | cons name names ih =>
    obtain ⟨first, others⟩ := List.forall_mem_cons.mp proper
    have alone : WrittenNames name [name] := by
      have := @WrittenNames.name name [] [] first.filled first.inside (by simp) .nil
      rwa [List.append_nil] at this
    cases names with
    | nil => exact alone
    | cons next names =>
      have later := alone.join (rfl : isSeparator '/' = true) (ih others)
      rwa [Text.joined_cons_cons, List.append_assoc, List.singleton_append]

theorem renderSegments_eq_joined (segments : List Pattern) :
    renderSegments segments = Text.joined ['/'] (segments.map render) := by
  induction segments with
  | nil => rw [renderSegments]; rfl
  | cons segment segments ih =>
    cases segments with
    | nil => rw [renderSegments]; rfl
    | cons next segments =>
      have step : renderSegments (segment :: next :: segments) =
          segment.render ++ '/' :: renderSegments (next :: segments) := by
        rw [renderSegments]
        exact List.cons_ne_nil next segments
      rw [step, ih]
      simp only [List.map_cons, Text.joined_cons_cons, List.append_assoc, List.singleton_append]

section Segments

variable {names : List Text} {segments : List Pattern}

theorem properName_of_mem_render (h : List.Forall₂ WrittenSegment names segments)
    (proper : ∀ name ∈ names, ProperName name) : ∀ text ∈ segments.map render, ProperName text := by
  induction h with
  | nil => simp
  | cons first _ ih =>
    obtain ⟨own, others⟩ := List.forall_mem_cons.mp proper
    exact List.forall_mem_cons.mpr ⟨first.properName_render own, ih others⟩

theorem parentName_notMem_render (h : List.Forall₂ WrittenSegment names segments)
    (absent : parentName ∉ names) : parentName ∉ segments.map render := by
  induction h with
  | nil => simp
  | @cons name segment names segments first _ ih =>
    obtain ⟨own, others⟩ := List.ne_and_not_mem_of_not_mem_cons absent
    refine List.not_mem_cons_of_ne_of_not_mem ?_ (ih others)
    intro isParent
    have plain : ∀ c ∈ segment.render, isPlain c = true := by
      rw [← isParent]
      exact plain_of_dots (by simp [parentName])
    exact own (isParent.trans (first.render_eq_of_plain plain))

theorem forall₂_render_iff (h : List.Forall₂ WrittenSegment names segments) :
    List.Forall₂ WrittenSegment (segments.map render) segments ↔
      ∀ segment ∈ segments, segment.Legible := by
  induction h with
  | nil => simp
  | cons first _ ih =>
    rw [List.map_cons, List.forall₂_cons, first.render_iff, ih, List.forall_mem_cons]

end Segments

theorem render_parent : parent.render = parentName := by
  simp [parent, render, renderPieces]

/-- The segment that takes one name. -/
def literal (name : Text) : Pattern := .component [.text name]

theorem writtenSegment_literal {name : Text} (filled : name ≠ [])
    (plain : ∀ c ∈ name, isPlain c = true) : WrittenSegment name (literal name) := by
  apply WrittenSegment.component
  · intro stars
    rw [stars] at plain
    exact absurd (plain '*' (by simp)) (by decide)
  · have := @WrittenPieces.text name [] [] filled plain (by simp) .nil
    rwa [List.append_nil] at this

theorem writtenSegment_parent : WrittenSegment parentName parent :=
  writtenSegment_literal (by decide) (plain_of_dots (by simp [parentName]))

theorem writtenSegment_parents (ups : Nat) :
    List.Forall₂ WrittenSegment (List.replicate ups parentName) (List.replicate ups parent) := by
  induction ups with
  | zero => exact .nil
  | succ ups ih => exact .cons writtenSegment_parent ih

namespace Written

variable {s : Text} {segments : List Pattern}

/-- The segments of a relative pattern stand for its names, those that go up among them. -/
theorem forall₂_relative (h : Written s segments) (relative : isAnchored segments = false) :
    ∃ names, WrittenNames s names ∧ List.Forall₂ WrittenSegment (essential names) segments := by
  cases h with
  | anchored => cases relative
  | @relative _ names below ups segments _ _ named essentials _ written =>
    refine ⟨names, named, ?_⟩
    rw [essentials]
    exact List.rel_append (writtenSegment_parents ups) written

theorem forall₂_anchored {top : Text} (h : Written s (.anchor top :: segments)) :
    ∃ names, WrittenNames s names ∧ List.Forall₂ WrittenSegment (essential names) segments := by
  generalize whole : .anchor top :: segments = all at h
  cases h with
  | anchored _ named _ written =>
    cases whole
    exact ⟨_, named, written⟩
  | @relative _ names below ups rest _ _ _ _ _ written =>
    cases ups with
    | zero =>
      obtain rfl : .anchor top :: segments = rest := whole
      cases written with
      | cons first => cases first
    | succ ups => cases whole

end Written

theorem eq_of_writtenNames {s : Text} {names names' : List Text} (h : WrittenNames s names)
    (h' : WrittenNames s names') : names = names' :=
  (runs_of_written h 0).symm.trans (runs_of_written h' 0)

theorem joined_eq_nil {names : List Text} (proper : ∀ name ∈ names, ProperName name)
    (none : Text.joined ['/'] names = []) : names = [] := by
  have named := writtenNames_joined proper
  rw [none] at named
  exact eq_of_writtenNames named .nil

theorem isAnchored_of_forall₂ {names : List Text} {segments : List Pattern}
    (h : List.Forall₂ WrittenSegment names segments) : isAnchored segments = false := by
  cases h with
  | nil => rfl
  | cons first => cases first <;> rfl

/-- What a pattern says after the top, if it has one, is read again from what is written for it. -/
theorem written_joined_iff {ups : Nat} {below : List Text} {rest : List Pattern}
    (proper : ∀ name ∈ List.replicate ups parentName ++ below, ProperName name)
    (absent : parentName ∉ below) (written : List.Forall₂ WrittenSegment below rest)
    (filled : List.replicate ups parent ++ rest ≠ []) :
    Written (Text.joined ['/'] ((List.replicate ups parent ++ rest).map render))
        (List.replicate ups parent ++ rest) ↔
      ∀ segment ∈ List.replicate ups parent ++ rest, segment.Legible := by
  have all := List.rel_append (writtenSegment_parents ups) written
  have proper := properName_of_mem_render all proper
  have named := writtenNames_joined proper
  constructor
  · intro again
    obtain ⟨names, named', all'⟩ := again.forall₂_relative (isAnchored_of_forall₂ all)
    rw [← eq_of_writtenNames named named', essential_eq_self proper] at all'
    exact (forall₂_render_iff all).mp all'
  · intro legible
    refine .relative ?filled ?unanchored named ?names (parentName_notMem_render written absent) ?all
    case filled =>
      intro none
      exact filled (List.map_eq_nil_iff.mp (joined_eq_nil proper none))
    case unanchored =>
      -- the text begins with its first name
      intro c first
      cases texts : (List.replicate ups parent ++ rest).map render with
      | nil => exact absurd (List.map_eq_nil_iff.mp texts) filled
      | cons text texts' =>
        rw [texts] at proper first
        have own := proper text List.mem_cons_self
        refine own.inside c (List.mem_of_mem_head? ?_)
        cases texts' with
        | nil => exact first
        | cons =>
          rwa [Text.joined_cons_cons, List.append_assoc, head?_append_of_ne_nil own.filled] at first
    case names =>
      rw [essential_eq_self proper, List.map_append, List.map_replicate, render_parent]
    case all =>
      refine (forall₂_render_iff written).mpr ?_
      intro segment member
      exact legible segment (List.mem_append_right _ member)

theorem written_anchored_iff {names : List Text} {segments : List Pattern}
    (proper : ∀ name ∈ names, ProperName name) (absent : parentName ∉ names)
    (written : List.Forall₂ WrittenSegment names segments) :
    Written ('/' :: Text.joined ['/'] (segments.map render)) (.anchor [] :: segments) ↔
      ∀ segment ∈ segments, segment.Legible := by
  have proper := properName_of_mem_render written proper
  have named : WrittenNames ('/' :: Text.joined ['/'] (segments.map render)) (segments.map render) :=
    .separator rfl (writtenNames_joined proper)
  rw [← forall₂_render_iff written]
  constructor
  · intro again
    obtain ⟨names', named', all⟩ := again.forall₂_anchored
    rwa [← eq_of_writtenNames named named', essential_eq_self proper] at all
  · intro all
    rw [← essential_eq_self proper] at all
    exact .anchored rfl named (parentName_notMem_render written absent) all

/-- Writing the segments of a pattern and reading them again gives the same segments if and only if
no class has a dash that joins its neighbours. The top alone is written as nothing. -/
theorem parse_render {p : Text} {segments : List Pattern} (parsed : parse p = .ok segments)
    (named : ∃ segment ∈ segments, ∀ top, segment ≠ .anchor top) :
    parse (tree segments).render = .ok segments ↔ ∀ segment ∈ segments, segment.Legible := by
  obtain ⟨segment, member, named⟩ := named
  rw [parse_eq_ok_iff_written, render, renderSegments_eq_joined]
  cases parse_eq_ok_iff_written.mp parsed with
  | @relative _ names below ups rest _ _ found essentials absent written =>
    have proper := found.properName
    rw [essentials] at proper
    exact written_joined_iff proper absent written (List.ne_nil_of_mem member)
  | @anchored first s names rest anchors found absent written =>
    have other : rest ≠ [] := by
      rintro rfl
      exact named [] (List.mem_singleton.mp member)
    have text : Text.joined ['/'] ((.anchor [] :: rest).map render) =
        '/' :: Text.joined ['/'] (rest.map render) := by
      obtain ⟨next, more, rfl⟩ := List.exists_cons_of_ne_nil other
      rw [List.map_cons, List.map_cons, Text.joined_cons_cons, render]
      rfl
    rw [text, written_anchored_iff found.properName (mt parentName_mem_essential_iff.mp absent)
      written]
    simp [Legible]

theorem parse_render_mixed :
    parse "/**/a***[^]a-c-]\x7b,x*\x7d?/./b".toList =
        .ok [.anchor [], .globstar,
          .component [.text ['a'], .star, .charClass ⟨[(']', ']'), ('a', 'c'), ('-', '-')], true⟩,
            .oneOf [[], ['x', '*']], .anyChar],
          .component [.text ['b']]] ∧
      parse "/**/a*[!]a-c-]\x7b,x*\x7d?/b".toList =
        .ok [.anchor [], .globstar,
          .component [.text ['a'], .star, .charClass ⟨[(']', ']'), ('a', 'c'), ('-', '-')], true⟩,
            .oneOf [[], ['x', '*']], .anyChar],
          .component [.text ['b']]] := by
  have parsed : parse "/**/a***[^]a-c-]\x7b,x*\x7d?/./b".toList = .ok _ :=
    parse_eq_ok_iff.mpr (by cbv)
  refine ⟨parsed, (parse_render parsed ⟨.globstar, by simp, by simp⟩).mpr ?_⟩
  simp [Legible, CharClass.legible_cons_iff, CharClass.legible_nil]

/-- A range of one character before a dash: what is written for it is a longer range. -/
theorem parse_render_joined :
    parse "[a-a-z]".toList =
        .ok [.component [.charClass ⟨[('a', 'a'), ('-', '-'), ('z', 'z')], false⟩]] ∧
      (tree [.component [.charClass ⟨[('a', 'a'), ('-', '-'), ('z', 'z')], false⟩]]).render =
        "[a-z]".toList ∧
      parse "[a-z]".toList = .ok [.component [.charClass ⟨[('a', 'z')], false⟩]] := by
  refine ⟨parse_eq_ok_iff.mpr (by cbv), by cbv, parse_eq_ok_iff.mpr (by cbv)⟩

end Pattern
end Wildpath
