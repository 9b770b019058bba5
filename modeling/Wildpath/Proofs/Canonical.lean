import Wildpath.Pattern.Parser

/-!
# The shape of what reading gives

A text piece of a pattern that was read has no character with a meaning of its own, and the
segments are the top, `**` and components only.
-/

set_option autoImplicit false

namespace Wildpath.Pattern

/-- Does the character stand for itself outside brackets and braces? -/
def isPlain (c : Char) : Bool := c != '*' && c != '?' && c != '[' && c != '{'

def PlainPiece : Pattern → Prop
  | .text value => ∀ c ∈ value, isPlain c = true
  | _ => True

def CanonicalSegment : Pattern → Prop
  | .anchor name => name = []
  | .globstar => True
  | .component pieces => ∀ piece ∈ pieces, PlainPiece piece
  | _ => False

theorem plainPiece_consChar {c : Char} {pieces : List Pattern} (plain : isPlain c = true)
    (h : ∀ piece ∈ pieces, PlainPiece piece) : ∀ piece ∈ consChar c pieces, PlainPiece piece := by
  intro piece member
  unfold consChar at member
  split at member
  · next value rest =>
    rcases List.mem_cons.mp member with rfl | member
    · intro d hd
      rcases List.mem_cons.mp hd with rfl | hd
      · exact plain
      · exact h (.text value) List.mem_cons_self d hd
    · exact h piece (List.mem_cons_of_mem _ member)
  · rcases List.mem_cons.mp member with rfl | member
    · intro d hd
      rwa [List.mem_singleton.mp hd]
    · exact h piece member

theorem plainPiece_consStar {pieces : List Pattern} (h : ∀ piece ∈ pieces, PlainPiece piece) :
    ∀ piece ∈ consStar pieces, PlainPiece piece := by
  intro piece member
  unfold consStar at member
  split at member
  · exact h piece member
  · rcases List.mem_cons.mp member with rfl | member
    · exact trivial
    · exact h piece member

theorem map_eq_ok_iff {ε α β : Type} {f : α → β} {x : Except ε α} {b : β} :
    f <$> x = .ok b ↔ ∃ a, x = .ok a ∧ f a = b := by
  cases x <;> simp [Functor.map, Except.map]

theorem bind_eq_ok_iff {ε α β : Type} {f : α → Except ε β} {x : Except ε α} {b : β} :
    x >>= f = .ok b ↔ ∃ a, x = .ok a ∧ f a = .ok b := by
  cases x <;> simp [bind, Except.bind]

theorem map_eq_error_iff {ε α β : Type} {f : α → β} {x : Except ε α} {e : ε} :
    f <$> x = .error e ↔ x = .error e := by
  cases x <;> simp [Functor.map, Except.map]

theorem bind_eq_error_iff {ε α β : Type} {f : α → Except ε β} {x : Except ε α} {e : ε} :
    x >>= f = .error e ↔ x = .error e ∨ ∃ a, x = .ok a ∧ f a = .error e := by
  cases x <;> simp [bind, Except.bind]

@[simp] theorem mapError_ok {ε ε' α : Type} (f : ε → ε') (a : α) :
    (Except.ok a : Except ε α).mapError f = .ok a := rfl

@[simp] theorem mapError_error {ε ε' α : Type} (f : ε → ε') (e : ε) :
    (Except.error e : Except ε α).mapError f = .error (f e) := rfl

theorem mapError_eq_ok_iff {ε ε' α : Type} {f : ε → ε'} {x : Except ε α} {a : α} :
    x.mapError f = .ok a ↔ x = .ok a := by
  cases x <;> simp

theorem mapError_eq_error_iff {ε ε' α : Type} {f : ε → ε'} {x : Except ε α} {e : ε'} :
    x.mapError f = .error e ↔ ∃ e', x = .error e' ∧ f e' = e := by
  cases x <;> simp

theorem plainPiece_of_readPieces {position : Nat} {s : Text} {pieces : List Pattern}
    (h : readPieces position s = .ok pieces) : ∀ piece ∈ pieces, PlainPiece piece := by
  fun_induction readPieces position s generalizing pieces with
  | case1 =>
    cases h
    simp
  | case2 position rest ih =>
    obtain ⟨later, read, rfl⟩ := map_eq_ok_iff.mp h
    exact plainPiece_consStar (ih read)
  | case3 position rest ih =>
    obtain ⟨later, read, rfl⟩ := map_eq_ok_iff.mp h
    exact List.forall_mem_cons.mpr ⟨trivial, ih read⟩
  | case4 => cases h
  | case5 position inner cls rest _ _ ih =>
    obtain ⟨later, read, rfl⟩ := map_eq_ok_iff.mp h
    exact List.forall_mem_cons.mpr ⟨trivial, ih read⟩
  | case6 => cases h
  | case7 position inner items rest _ _ ih =>
    obtain ⟨later, read, rfl⟩ := map_eq_ok_iff.mp h
    exact List.forall_mem_cons.mpr ⟨trivial, ih read⟩
  | case8 position c rest notStar notAny notClass notSet ih =>
    obtain ⟨later, read, rfl⟩ := map_eq_ok_iff.mp h
    refine plainPiece_consChar ?_ (ih read)
    simp only [isPlain, Bool.and_eq_true, bne_iff_ne]
    exact ⟨⟨⟨notStar, notAny⟩, notClass⟩, notSet⟩

theorem canonicalSegment_of_readSegments {leading : Bool} {components : List (Nat × Text)}
    {segments : List Pattern} (h : readSegments leading components = .ok segments) :
    ∀ segment ∈ segments, CanonicalSegment segment := by
  fun_induction readSegments leading components generalizing segments with
  | case1 =>
    cases h
    simp
  | case2 leading start more ih => exact ih h
  | case3 start more notSelf ih =>
    obtain ⟨later, read, rfl⟩ := map_eq_ok_iff.mp h
    refine List.forall_mem_cons.mpr ⟨?_, ih read⟩
    simp [parent, parentName, CanonicalSegment, PlainPiece, isPlain]
  | case4 => cases h
  | case5 leading start more _ _ ih =>
    obtain ⟨later, read, rfl⟩ := map_eq_ok_iff.mp h
    exact List.forall_mem_cons.mpr ⟨trivial, ih read⟩
  | case6 leading start name more _ _ _ ih =>
    obtain ⟨pieces, own, h⟩ := bind_eq_ok_iff.mp h
    obtain ⟨later, read, h⟩ := bind_eq_ok_iff.mp h
    cases h
    exact List.forall_mem_cons.mpr ⟨plainPiece_of_readPieces own, ih read⟩

theorem parse_eq_ok_iff {s : Text} {segments : List Pattern} :
    parse s = .ok segments ↔ read s = .ok segments :=
  mapError_eq_ok_iff

theorem canonicalSegment_of_parse {s : Text} {segments : List Pattern}
    (h : parse s = .ok segments) : ∀ segment ∈ segments, CanonicalSegment segment := by
  have read : read s = .ok segments := parse_eq_ok_iff.mp h
  unfold Pattern.read at read
  split at read
  · cases read
  · split at read
    · obtain ⟨later, below, rfl⟩ := map_eq_ok_iff.mp read
      exact List.forall_mem_cons.mpr ⟨rfl, canonicalSegment_of_readSegments below⟩
    · exact canonicalSegment_of_readSegments read

end Wildpath.Pattern
