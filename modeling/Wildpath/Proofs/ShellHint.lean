import Wildpath.Proofs.Hint
import Wildpath.Proofs.WellFormed

/-!
# Hints as shell patterns

A hint leaves the program as a flat text, and a listing may read it as shells do, brackets included.
The text forgets where a piece ends, so characters of a piece could come to mean something else in it.
They do not: a piece that was read has no character with a meaning of its own. So a hint fits exactly
the names that its segment accepts.
-/

set_option autoImplicit false

namespace Wildpath.Pattern

namespace Hint

/-- The class after an opening bracket and what follows it, if a bracket closes it. Here only `!`
inverts. -/
def shellClass? (s : Text) : Option (CharClass × Text) :=
  let (inverted, inner) := match s with
    | '!' :: rest => (true, rest)
    | s => (false, s)
  match Bracket.split inner with
  | (body, some after) => some (⟨Bracket.ranges body, inverted⟩, after)
  | (_, none) => none

/-- `*` stands for any text, `?` for any character, a bracket that is closed begins a class, and every
other character stands for itself. -/
inductive ShellFits : Text → Text → Prop where
  | nil : ShellFits [] []
  | star (front : Text) {hint back : Text} : ShellFits hint back →
    ShellFits ('*' :: hint) (front ++ back)
  | anyChar (c : Char) {hint back : Text} : ShellFits hint back → ShellFits ('?' :: hint) (c :: back)
  | charClass {inner after : Text} {cls : CharClass} {c : Char} {back : Text} :
    shellClass? inner = some (cls, after) → cls.Holds c → ShellFits after back →
    ShellFits ('[' :: inner) (c :: back)
  | char {c : Char} {hint back : Text} : c ≠ '*' → c ≠ '?' →
    (c = '[' → shellClass? hint = none) → ShellFits hint back → ShellFits (c :: hint) (c :: back)

/-- Without brackets a hint fits what it fits as a flat pattern. -/
theorem shellFits_iff_fits {hint name : Text} (bare : '[' ∉ hint) :
    ShellFits hint name ↔ Fits hint name := by
  constructor
  · intro h
    induction h with
    | nil => exact .nil
    | star front _ ih => exact .star front (ih (List.not_mem_of_not_mem_cons bare))
    | anyChar c _ ih => exact .anyChar c (ih (List.not_mem_of_not_mem_cons bare))
    | charClass => exact absurd List.mem_cons_self bare
    | char notStar notAny _ _ ih =>
      exact .char notStar notAny (ih (List.not_mem_of_not_mem_cons bare))
  · intro h
    induction h with
    | nil => exact .nil
    | star front _ ih => exact .star front (ih (List.not_mem_of_not_mem_cons bare))
    | anyChar c _ ih => exact .anyChar c (ih (List.not_mem_of_not_mem_cons bare))
    | char notStar notAny _ ih =>
      obtain ⟨other, bare⟩ := List.ne_and_not_mem_of_not_mem_cons bare
      exact .char notStar notAny (fun same => absurd same.symm other) (ih bare)

/-- Characters that stand for themselves are taken off a name one by one. -/
theorem exists_of_fits_append {value hint name : Text} (plain : ∀ c ∈ value, isPlain c = true)
    (h : Fits (value ++ hint) name) : ∃ back, name = value ++ back ∧ Fits hint back := by
  induction value generalizing name with
  | nil => exact ⟨name, rfl, h⟩
  | cons c value ih =>
    obtain ⟨own, later⟩ := List.forall_mem_cons.mp plain
    have notStar : c ≠ '*' := by
      rintro rfl
      cases own
    have notAny : c ≠ '?' := by
      rintro rfl
      cases own
    obtain ⟨rest, rfl, below⟩ := (fits_char_iff notStar notAny).mp h
    obtain ⟨back, rfl, left⟩ := ih later below
    exact ⟨back, rfl, left⟩

end Hint

section Pieces

variable {pieces : List Pattern} {hint name : Text}

/-- What fits the flat text is cut as the pieces ask for. -/
theorem spells_of_fits (plain : ∀ piece ∈ pieces, PlainPiece piece) (flat : flat? pieces = some hint)
    (fits : Hint.Fits hint name) : Spells pieces name := by
  fun_induction flat? pieces generalizing hint name with
  | case1 =>
    cases flat
    rw [Hint.fits_nil_iff.mp fits]
    exact .nil
  | case2 pieces ih =>
    obtain ⟨later, flat', rfl⟩ := Option.map_eq_some_iff.mp flat
    obtain ⟨front, back, rfl, below⟩ := Hint.fits_star_iff.mp fits
    exact .cons trivial (ih (List.forall_mem_cons.mp plain).2 flat' below)
  | case3 pieces ih =>
    obtain ⟨later, flat', rfl⟩ := Option.map_eq_some_iff.mp flat
    obtain ⟨c, back, rfl, below⟩ := Hint.fits_anyChar_iff.mp fits
    have one : Covers .anyChar [c] := ⟨c, rfl⟩
    exact .cons one (ih (List.forall_mem_cons.mp plain).2 flat' below)
  | case4 value pieces ih =>
    obtain ⟨later, flat', rfl⟩ := Option.map_eq_some_iff.mp flat
    obtain ⟨own, others⟩ := List.forall_mem_cons.mp plain
    obtain ⟨back, rfl, below⟩ := Hint.exists_of_fits_append own fits
    have whole : Covers (.text value) value := rfl
    exact .cons whole (ih others flat' below)
  | case5 => cases flat

theorem fits_iff_accepts (plain : ∀ piece ∈ pieces, PlainPiece piece)
    (flat : flat? pieces = some hint) :
    Hint.Fits hint name ↔ acceptsName true pieces name = true := by
  rw [(acceptsName_spells pieces name).1]
  exact ⟨spells_of_fits plain flat, fun spelled => fits_of_spells spelled flat⟩

/-- Only a set or a class has no flat text. -/
theorem flat?_eq_none_iff (wellFormed : ∀ piece ∈ pieces, WellFormedPiece piece) :
    flat? pieces = none ↔
      (∃ items, .oneOf items ∈ pieces) ∨ ∃ cls, .charClass cls ∈ pieces := by
  induction pieces with
  | nil => simp [flat?]
  | cons piece pieces ih =>
    obtain ⟨own, later⟩ := List.forall_mem_cons.mp wellFormed
    cases piece with
    | star | anyChar | text => simpa [flat?] using ih later
    | oneOf items => simp [flat?]
    | charClass cls => simp [flat?]
    | _ => cases own

end Pieces

/-- The hint of a component that was read is missing where it holds a set or a class, and only there.
Otherwise a listing that reads the hint as shells do keeps the names that the component accepts, and
no others: no character of the component's texts means anything but itself in it. -/
theorem hint?_exact {s : Text} {segments pieces : List Pattern} (parsed : parse s = .ok segments)
    (member : .component pieces ∈ segments) :
    ((Pattern.component pieces).hint? = none ↔
      (∃ items, .oneOf items ∈ pieces) ∨ ∃ cls, .charClass cls ∈ pieces) ∧
    (∀ value, .text value ∈ pieces → '*' ∉ value ∧ '?' ∉ value ∧ '[' ∉ value) ∧
    ∀ hint, (Pattern.component pieces).hint? = some hint → ∀ name,
      (Hint.ShellFits hint name ↔ acceptsName true pieces name = true) ∧
        Hint.admits hint name = acceptsName true pieces name := by
  have canonical := canonicalSegment_of_parse parsed _ member
  have wellFormed := (parse_wellFormed parsed).1.each _ member
  refine ⟨flat?_eq_none_iff wellFormed.each, ?texts, ?fits⟩
  case texts =>
    intro value member
    have plain : ∀ c ∈ value, isPlain c = true := canonical _ member
    refine ⟨?_, ?_, ?_⟩ <;>
    · intro inside
      cases plain _ inside
  case fits =>
    intro hint flat name
    have fits := @fits_iff_accepts pieces hint name canonical flat
    refine ⟨?_, Bool.eq_iff_iff.mpr (Hint.admits_iff_fits.trans fits)⟩
    rw [Hint.shellFits_iff_fits (bracket_notMem_flat canonical flat), fits]

theorem hint?_exact_sample :
    parse "a]*?/[ab]*".toList = .ok [.component [.text "a]".toList, .star, .anyChar],
        .component [.charClass ⟨[('a', 'a'), ('b', 'b')], false⟩, .star]] ∧
      Hint.ShellFits "a]*?".toList "a]xy".toList ∧
      (Pattern.component [.charClass ⟨[('a', 'a'), ('b', 'b')], false⟩, .star]).hint? = none := by
  have parsed : parse "a]*?/[ab]*".toList = .ok [.component [.text "a]".toList, .star, .anyChar],
      .component [.charClass ⟨[('a', 'a'), ('b', 'b')], false⟩, .star]] :=
    parse_eq_ok_iff.mpr (by cbv)
  have plain := hint?_exact parsed List.mem_cons_self
  have classed := hint?_exact parsed (List.mem_cons_of_mem _ List.mem_cons_self)
  exact ⟨parsed, (plain.2.2 _ (by decide) _).1.mpr (by decide),
    classed.1.mpr (.inr ⟨_, List.mem_cons_self⟩)⟩

end Wildpath.Pattern
