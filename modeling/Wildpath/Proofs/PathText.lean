import Mathlib.Data.List.Permutation
import Wildpath.Proofs.Rendering
import Wildpath.Proofs.Subtree

/-!
# Paths read from their text

A path that was read from text, and its absolute form, are read back from what is written for them.
If nothing in an absolute path stands for anything but itself in a pattern, its text is also a pattern:
the top, and then a segment for every name.
-/

set_option autoImplicit false

namespace Wildpath

theorem Text.exists_joined_cons (sep first : Text) (more : List Text) :
    ∃ rest, Text.joined sep (first :: more) = first ++ rest := by
  cases more with
  | nil => exact ⟨[], (List.append_nil first).symm⟩
  | cons next more => exact ⟨_, by rw [Text.joined_cons_cons, List.append_assoc]⟩

namespace Path

/-- The parts are such as reading leaves them: none is empty or `.`, and none has a separator. -/
def Proper (p : Path) : Prop := ∀ part ∈ p.parts, part ≠ [] ∧ part ≠ selfName ∧ '/' ∉ part

theorem proper_ofText (s : Text) : (ofText s).Proper := by
  intro part member
  obtain ⟨field, kept⟩ := List.mem_filter.mp member
  obtain ⟨filled, other⟩ := of_decide_eq_true kept
  exact ⟨filled, other, Text.notMem_of_mem_fields field⟩

theorem mem_pushPart {before : List Text} {next part : Text}
    (h : part ∈ pushPart true before next) : part = next ∨ part ∈ before := by
  unfold pushPart at h
  split at h
  · split at h
    · cases h
    · split at h
      · exact List.mem_cons.mp h
      · exact Or.inr (List.mem_cons_of_mem _ h)
  · exact List.mem_cons.mp h

theorem mem_foldl_pushPart {before parts : List Text} {part : Text}
    (h : part ∈ parts.foldl (pushPart true) before) : part ∈ parts ∨ part ∈ before := by
  induction parts generalizing before with
  | nil => exact Or.inr h
  | cons next parts ih =>
    rcases ih h with later | pushed
    · exact Or.inl (List.mem_cons_of_mem next later)
    · rcases mem_pushPart pushed with rfl | old
      · exact Or.inl List.mem_cons_self
      · exact Or.inr old

/-- What may name an entry is a part that reading leaves. -/
theorem proper_of_isName {name : Text} (h : isName name = true) :
    name ≠ [] ∧ name ≠ selfName ∧ '/' ∉ name := by
  simp only [isName, Bool.and_eq_true, bne_iff_ne, Bool.not_eq_true'] at h
  exact ⟨h.1.1.1.1, h.1.1.1.2, by simpa using h.1.2⟩

theorem Proper.absolute {p : Path} (proper : p.Proper) {cwd : List Text}
    (placed : ∀ name ∈ cwd, isName name = true) : (p.absolute cwd).Proper := by
  intro part member
  simp only [Path.absolute, normal, isAnchored_anchored, List.mem_reverse] at member
  have there := (mem_foldl_pushPart member).resolve_right List.not_mem_nil
  unfold anchored at there
  split at there
  · exact proper part there
  · rcases List.mem_append.mp there with there | there
    · exact proper_of_isName (placed part there)
    · exact proper part there

theorem Proper.filter_parts {p : Path} (proper : p.Proper) :
    p.parts.filter (fun part => part ≠ [] ∧ part ≠ selfName) = p.parts := by
  apply List.filter_eq_self.mpr
  intro part member
  exact decide_eq_true ⟨(proper part member).1, (proper part member).2.1⟩

/-- Only the relative path without parts is written as something else than its parts. -/
theorem text_eq {p : Path} (h : p.isAnchored = true ∨ p.parts ≠ []) :
    p.text = p.anchor.text ++ Text.joined ['/'] p.parts := by
  unfold text
  split
  · next relative none => simp [isAnchored, relative, none] at h
  · rfl

/-- The separators in front give no part. -/
theorem filter_fields_anchor (anchor : Anchor) (s : Text) :
    (Text.fields '/' (anchor.text ++ s)).filter (fun part => part ≠ [] ∧ part ≠ selfName) =
      (Text.fields '/' s).filter fun part => part ≠ [] ∧ part ≠ selfName := by
  cases anchor <;> simp [Anchor.text, Text.fields]

/-- A path whose parts are proper is read back from its text. -/
theorem ofText_text {p : Path} (proper : p.Proper) : ofText p.text = p := by
  have kept := proper.filter_parts
  obtain ⟨anchor, parts⟩ := p
  cases parts with
  | nil => cases anchor <;> rfl
  | cons first more =>
    have fields : Text.fields '/' (Text.joined ['/'] (first :: more)) = first :: more :=
      Text.fields_eq_iff.mpr ⟨by simp, fun part member => (proper part member).2.2, rfl⟩
    rw [text_eq (Or.inr (List.cons_ne_nil first more)), ofText, filter_fields_anchor, fields, kept]
    congr 1
    -- the first part does not begin with a separator
    obtain ⟨filled, -, inside⟩ := proper first List.mem_cons_self
    obtain ⟨c, first, rfl⟩ := List.exists_cons_of_ne_nil filled
    have other : c ≠ '/' := (List.ne_and_not_mem_of_not_mem_cons inside).1.symm
    obtain ⟨rest, begins⟩ := Text.exists_joined_cons ['/'] (c :: first) more
    rw [begins]
    cases anchor <;> simp [Anchor.text, Anchor.ofText, other]

end Path

namespace Pattern

/-- The text of an absolute path without special characters is a pattern for the names of the path. -/
theorem parse_text {p : Path} (anchored : p.isAnchored = true) (proper : p.Proper)
    (still : parentName ∉ p.parts) (plain : ∀ c ∈ p.text, isPlain c = true ∧ c ≠ '\\') :
    parse p.text = .ok (.anchor [] :: p.parts.map literal) := by
  have inText : ∀ part ∈ p.parts, ∀ c ∈ part, c ∈ p.text := by
    intro part member c own
    rw [Path.text_eq (Or.inl anchored)]
    exact List.mem_append_right _ (Text.mem_joined member own)
  have names : ∀ part ∈ p.parts, ProperName part := by
    intro part member
    obtain ⟨filled, counts, inside⟩ := proper part member
    refine ⟨filled, ?_, counts⟩
    intro c own
    have apart : c ≠ '/' := by
      rintro rfl
      exact inside own
    simp [isSeparator, apart, (plain c (inText part member c own)).2]
  have segments : List.Forall₂ WrittenSegment (essential p.parts) (p.parts.map literal) := by
    rw [essential_eq_self names, List.forall₂_map_right_iff, List.forall₂_same]
    intro part member
    exact writtenSegment_literal (proper part member).1 fun c own =>
      (plain c (inText part member c own)).1
  have named := writtenNames_joined names
  apply parse_eq_ok_iff_written.mpr
  rw [Path.text_eq (Or.inl anchored)]
  cases anchor : p.anchor with
  | relative => simp [Path.isAnchored, anchor] at anchored
  | top => exact .anchored rfl (.separator rfl named) still segments
  | doubleTop => exact .anchored rfl (.separator rfl (.separator rfl named)) still segments

end Pattern
end Wildpath
