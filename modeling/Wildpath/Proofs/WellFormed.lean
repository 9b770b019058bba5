import Mathlib.Data.List.Chain
import Wildpath.Proofs.Rendering

/-!
# The shape of a pattern that was read

Reading gives segments of one shape only. The top is the first segment or none, the segments that go
up lead a relative pattern, and between the pieces of a component nothing could be put together. No
character of a piece could have been read as something else.
-/

set_option autoImplicit false

namespace Wildpath

/-- No range of the class runs backwards, and a closing bracket bounds none but the first. -/
structure CharClass.WellFormed (cls : CharClass) : Prop where
  filled : cls.ranges ≠ []
  ordered : ∀ r ∈ cls.ranges, r.1 ≤ r.2
  closed : ∀ r ∈ cls.ranges.tail, r.1 ≠ ']' ∧ r.2 ≠ ']'

namespace Pattern

/-- May the character stand in an item of a set? -/
def isItemChar (c : Char) : Bool := c != ',' && c != '{' && c != '}' && !isSeparator c

def WellFormedPiece : Pattern → Prop
  | .star => True
  | .anyChar => True
  | .text value => value ≠ [] ∧ ∀ c ∈ value, isPlain c = true ∧ isSeparator c = false
  | .charClass cls => cls.WellFormed
  | .oneOf items => items ≠ [] ∧ ∀ item ∈ items, ∀ c ∈ item, isItemChar c = true
  | _ => False

/-- Would two neighbouring pieces have been read as two? -/
def Apart : Pattern → Pattern → Prop
  | .text _, .text _ => False
  | .star, .star => False
  | _, _ => True

structure WellFormedPieces (pieces : List Pattern) : Prop where
  filled : pieces ≠ []
  each : ∀ piece ∈ pieces, WellFormedPiece piece
  apart : pieces.IsChain Apart
  counts : pieces ≠ [.text selfName]

def WellFormedSegment : Pattern → Prop
  | .anchor name => name = []
  | .globstar => True
  | .component pieces => WellFormedPieces pieces
  | _ => False

structure WellFormed (segments : List Pattern) : Prop where
  each : ∀ segment ∈ segments, WellFormedSegment segment
  /-- Only the first segment may be the top. -/
  top : ∀ before name after, segments = before ++ .anchor name :: after → before = []
  /-- The segments that go up come before all others. -/
  rising : ∃ ups rest, segments = List.replicate ups parent ++ rest ∧ parent ∉ rest
  /-- Nothing goes up from the top. -/
  level : isAnchored segments = true → parent ∉ segments

theorem WrittenRanges.mem_body {body : Text} {ranges : List (Char × Char)}
    (h : WrittenRanges body ranges) : ∀ r ∈ ranges, r.1 ∈ body ∧ r.2 ∈ body := by
  induction h with
  | nil => simp
  | span _ _ ih =>
    intro r member
    rcases List.mem_cons.mp member with rfl | member
    · simp
    · have := ih r member
      simp [this]
  | single _ _ ih =>
    intro r member
    rcases List.mem_cons.mp member with rfl | member
    · simp
    · have := ih r member
      simp [this]

theorem WrittenRanges.mem_tail {body : Text} {ranges : List (Char × Char)}
    (h : WrittenRanges body ranges) : ∀ r ∈ ranges.tail, r.1 ∈ body.tail ∧ r.2 ∈ body.tail := by
  cases h with
  | nil => simp
  | span _ h =>
    intro r member
    have := h.mem_body r member
    simp [this]
  | single _ h => exact h.mem_body

theorem WrittenBody.wellFormed {body : Text} {ranges : List (Char × Char)}
    (h : WrittenBody body ranges) (inverted : Bool) : CharClass.WellFormed ⟨ranges, inverted⟩ where
  filled := by
    intro none
    exact h.filled_written (CharClass.written_eq_nil_iff.mpr none)
  ordered := h.ranges.ordered
  closed := by
    intro r member
    obtain ⟨low, high⟩ := h.ranges.mem_tail r member
    constructor
    · intro same
      exact h.closed (same ▸ low)
    · intro same
      exact h.closed (same ▸ high)

theorem WrittenClass.wellFormed {body : Text} {cls : CharClass} (h : WrittenClass body cls) :
    cls.WellFormed := by
  cases h with
  | plain _ _ h => exact h.wellFormed false
  | inverted _ h => exact h.wellFormed true

theorem WrittenSet.wellFormed {body : Text} {items : List Text} (h : WrittenSet body items)
    (inside : ∀ c ∈ body, isSeparator c = false) : WellFormedPiece (.oneOf items) := by
  refine ⟨h.filled, ?_⟩
  intro item member c own
  have there : c ∈ body := by
    rw [← h.whole]
    exact Text.mem_joined member own
  have comma : c ≠ ',' := ne_of_mem_of_not_mem own (h.apart item member)
  have opening : c ≠ '{' := ne_of_mem_of_not_mem there h.flat
  have closing : c ≠ '}' := ne_of_mem_of_not_mem there h.closed
  simp [isItemChar, comma, opening, closing, inside c there]

namespace WrittenPieces

variable {s : Text} {pieces : List Pattern}

theorem wellFormed_each (h : WrittenPieces s pieces) (inside : ∀ c ∈ s, isSeparator c = false) :
    ∀ piece ∈ pieces, WellFormedPiece piece := by
  induction h with
  | nil => simp
  | star _ _ ih =>
    obtain ⟨-, later⟩ := List.forall_mem_append.mp inside
    exact List.forall_mem_cons.mpr ⟨trivial, ih later⟩
  | anyChar _ ih =>
    obtain ⟨-, later⟩ := List.forall_mem_cons.mp inside
    exact List.forall_mem_cons.mpr ⟨trivial, ih later⟩
  | charClass own _ ih =>
    obtain ⟨-, inside⟩ := List.forall_mem_cons.mp inside
    obtain ⟨-, later⟩ := List.forall_mem_append.mp inside
    obtain ⟨-, later⟩ := List.forall_mem_cons.mp later
    exact List.forall_mem_cons.mpr ⟨own.wellFormed, ih later⟩
  | oneOf own _ ih =>
    obtain ⟨-, inside⟩ := List.forall_mem_cons.mp inside
    obtain ⟨body, later⟩ := List.forall_mem_append.mp inside
    obtain ⟨-, later⟩ := List.forall_mem_cons.mp later
    exact List.forall_mem_cons.mpr ⟨own.wellFormed body, ih later⟩
  | text filled plain _ _ ih =>
    obtain ⟨own, later⟩ := List.forall_mem_append.mp inside
    refine List.forall_mem_cons.mpr ⟨⟨filled, ?_⟩, ih later⟩
    intro c member
    exact ⟨plain c member, own c member⟩

/-- Runs are read in full, so two neighbours are never parts of one run. -/
theorem apart (h : WrittenPieces s pieces) : pieces.IsChain Apart := by
  induction h with
  | nil => exact .nil
  | star ended written ih =>
    refine List.isChain_cons.mpr ⟨?_, ih⟩
    intro next first
    cases next with
    | star =>
      obtain ⟨later, rfl⟩ := List.head?_eq_some_iff.mp first
      exact absurd (written.star_iff.mpr ⟨later, rfl⟩) ended
    | _ => trivial
  | anyChar _ ih | charClass _ _ ih | oneOf _ _ ih =>
    exact List.isChain_cons.mpr ⟨fun _ _ => trivial, ih⟩
  | text _ _ ended written ih =>
    refine List.isChain_cons.mpr ⟨?_, ih⟩
    intro next first
    cases next with
    | text value =>
      obtain ⟨later, rfl⟩ := List.head?_eq_some_iff.mp first
      obtain ⟨c, starts, plain⟩ := written.text_iff.mpr ⟨value, later, rfl⟩
      rw [ended c starts] at plain
      cases plain
    | _ => trivial

theorem eq_nil_iff (h : WrittenPieces s pieces) : pieces = [] ↔ s = [] := by
  cases h with
  | text filled => simp [filled]
  | _ => simp

theorem eq_of_text {value : Text} (h : WrittenPieces s [.text value]) : s = value := by
  cases h with
  | text _ _ _ h => rw [h.eq_nil_iff.mp rfl, List.append_nil]

theorem wellFormed (h : WrittenPieces s pieces) (proper : ProperName s) :
    WellFormedPieces pieces where
  filled := mt h.eq_nil_iff.mp proper.filled
  each := h.wellFormed_each proper.inside
  apart := h.apart
  counts := by
    rintro rfl
    exact proper.counts h.eq_of_text

end WrittenPieces

section Segments

variable {names : List Text} {segments : List Pattern}

theorem WrittenSegment.wellFormed {name : Text} {segment : Pattern} (h : WrittenSegment name segment)
    (proper : ProperName name) : WellFormedSegment segment := by
  cases h with
  | globstar => exact trivial
  | component _ written => exact written.wellFormed proper

theorem wellFormed_each (h : List.Forall₂ WrittenSegment names segments)
    (proper : ∀ name ∈ names, ProperName name) : ∀ segment ∈ segments, WellFormedSegment segment := by
  induction h with
  | nil => simp
  | cons first _ ih =>
    obtain ⟨own, others⟩ := List.forall_mem_cons.mp proper
    exact List.forall_mem_cons.mpr ⟨first.wellFormed own, ih others⟩

theorem anchor_notMem (h : List.Forall₂ WrittenSegment names segments) (top : Text) :
    .anchor top ∉ segments := by
  induction h with
  | nil => simp
  | cons first _ ih =>
    refine List.not_mem_cons_of_ne_of_not_mem ?_ ih
    cases first <;> simp

theorem parent_notMem (h : List.Forall₂ WrittenSegment names segments)
    (absent : parentName ∉ names) : parent ∉ segments := by
  have absent := parentName_notMem_render h absent
  intro member
  rw [← render_parent] at absent
  exact absent (List.mem_map_of_mem member)

end Segments

theorem Written.wellFormed {s : Text} {segments : List Pattern} (h : Written s segments) :
    WellFormed segments := by
  cases h with
  | @relative _ names below ups rest _ _ named essentials absent written =>
    have all : List.Forall₂ WrittenSegment (List.replicate ups parentName ++ below)
        (List.replicate ups parent ++ rest) :=
      List.rel_append (writtenSegment_parents ups) written
    have proper := named.properName
    rw [essentials] at proper
    refine ⟨wellFormed_each all proper, ?top, ⟨ups, rest, rfl, parent_notMem written absent⟩, ?level⟩
    case top =>
      intro before name after same
      have none := anchor_notMem all name
      rw [same] at none
      simp at none
    case level =>
      intro anchored
      rw [isAnchored_of_forall₂ all] at anchored
      cases anchored
  | @anchored c s names rest _ named absent written =>
    have still := parent_notMem written (mt parentName_mem_essential_iff.mp absent)
    have still : parent ∉ .anchor [] :: rest :=
      List.not_mem_cons_of_ne_of_not_mem (by simp [parent]) still
    refine ⟨?each, ?top, ⟨0, _, rfl, still⟩, fun _ => still⟩
    case each =>
      exact List.forall_mem_cons.mpr ⟨rfl, wellFormed_each written named.properName⟩
    case top =>
      intro before name after same
      cases before with
      | nil => rfl
      | cons first before =>
        have none := anchor_notMem written name
        rw [(List.cons.inj same).2] at none
        simp at none

/-- What a search is left to match after it went up does not go up. -/
theorem WellFormed.parent_notMem_remaining {segments : List Pattern} (h : WellFormed segments) :
    parent ∉ Search.remaining segments := by
  unfold Search.remaining
  split
  · next anchored => exact h.level anchored
  · obtain ⟨ups, rest, rfl, still⟩ := h.rising
    have stays : Search.ascents (List.replicate ups parent) = ups := by
      simp [Search.ascents, parent, isParent]
    rw [Search.ascents_append (Search.ascents_of_still still), stays]
    simpa using still

/-- Every pattern that was read is well-formed, and none of its segments goes up after those that
move the root of a search. -/
theorem parse_wellFormed {s : Text} {segments : List Pattern} (parsed : parse s = .ok segments) :
    WellFormed segments ∧ parent ∉ Search.remaining segments := by
  have wellFormed := (parse_eq_ok_iff_written.mp parsed).wellFormed
  exact ⟨wellFormed, wellFormed.parent_notMem_remaining⟩

theorem parse_wellFormed_mixed :
    parse ".././../a***[^]a-c-]\x7b,x*\x7db/**".toList =
        .ok [parent, parent, .component [.text ['a'], .star,
          .charClass ⟨[(']', ']'), ('a', 'c'), ('-', '-')], true⟩, .oneOf [[], ['x', '*']],
          .text ['b']], .globstar] ∧
      WellFormed [parent, parent, .component [.text ['a'], .star,
        .charClass ⟨[(']', ']'), ('a', 'c'), ('-', '-')], true⟩, .oneOf [[], ['x', '*']],
        .text ['b']], .globstar] := by
  have parsed : parse ".././../a***[^]a-c-]\x7b,x*\x7db/**".toList = .ok _ :=
    parse_eq_ok_iff.mpr (by cbv)
  exact ⟨parsed, (parse_wellFormed parsed).1⟩

end Pattern
end Wildpath
