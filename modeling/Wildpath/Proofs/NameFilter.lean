import Wildpath.Proofs.Broken
import Wildpath.Proofs.Literal
import Wildpath.Proofs.Loading

/-!
# Filters by name

A filter by name patterns keeps those without wildcards apart, to compare them with a name as texts.
It leaves out the same entries as if every pattern were matched, so neither the order of the patterns
nor a repeated one makes a difference. If one of them is not a pattern of one name there is no
filter, and the fault is that of the first such pattern.
-/

set_option autoImplicit false

namespace Wildpath.Filter

/-- Why the text is no pattern of one name: it is no pattern, or one of more or of less. -/
inductive Refused (p : Text) : Fault → Prop where
  | unreadable {fault : Fault} : Pattern.parse p = .error fault → Refused p fault
  | notOneName {segments : List Pattern} : Pattern.parse p = .ok segments →
    (∀ pieces, segments ≠ [.component pieces]) → Refused p ⟨.notOneName, p, 0⟩

section Reading

variable {p : Text} {pieces : List Pattern}

theorem readName_eq_ok_iff : readName p = .ok pieces ↔ Pattern.parse p = .ok [.component pieces] := by
  unfold readName
  split <;> simp_all

theorem readName_eq_error_iff {fault : Fault} : readName p = .error fault ↔ Refused p fault := by
  unfold readName
  split
  · next parsed =>
    constructor
    · intro h
      cases h
      exact .unreadable parsed
    · intro h
      cases h with
      | unreadable parsed' => rw [← parsed, parsed']
      | notOneName parsed' => simp [parsed] at parsed'
  · next pieces parsed =>
    refine iff_of_false (by simp) ?_
    intro h
    cases h with
    | unreadable parsed' => simp [parsed] at parsed'
    | notOneName parsed' other =>
      rw [parsed] at parsed'
      cases parsed'
      exact other pieces rfl
  · next segments other parsed =>
    constructor
    · intro h
      cases h
      exact .notOneName parsed other
    · intro h
      cases h with
      | unreadable parsed' => simp [parsed] at parsed'
      | notOneName => rfl

theorem wellFormedPieces_of_readName (h : readName p = .ok pieces) :
    Pattern.WellFormedPieces pieces :=
  (Pattern.parse_wellFormed (readName_eq_ok_iff.mp h)).1.each _ List.mem_cons_self

end Reading

section Lots

variable {pieces : List Pattern} {name : Text}

theorem acceptsName_eq_accepts (pieces : List Pattern) (name : Text) :
    Pattern.acceptsName true pieces name = Pattern.accepts pieces name := by
  simp [Pattern.acceptsName]

theorem excludes_iff {names : Names} : names.excludes name = true ↔
    name ∈ names.literal ∨ ∃ pieces ∈ names.magic, Pattern.acceptsName true pieces name = true := by
  simp [Names.excludes, acceptsName_eq_accepts]

/-- Into whichever lot the pieces go, they leave out the names that they accept. -/
theorem excludes_insert_iff (wellFormed : Pattern.WellFormedPieces pieces) (names : Names) :
    (names.insert pieces).excludes name = true ↔
      names.excludes name = true ∨ Pattern.acceptsName true pieces name = true := by
  unfold Names.insert
  dsimp only
  split
  · next plain =>
    rw [Pattern.isLiteral_iff, Pattern.walk] at plain
    obtain ⟨value, rfl⟩ := wellFormed.eq_text (List.forall_mem_cons.mp plain).2
    have text : (Pattern.component [.text value]).render = value := by
      simp [Pattern.render, Pattern.renderPieces]
    rw [excludes_iff, excludes_iff, Pattern.acceptsName_text_iff, text, List.mem_append,
      List.mem_singleton, or_right_comm]
  · rw [excludes_iff, excludes_iff, or_assoc]
    simp only [List.mem_append, List.mem_singleton, or_and_right, exists_or, exists_eq_left]

theorem excludes_foldl_iff {all : List (List Pattern)}
    (wellFormed : ∀ pieces ∈ all, Pattern.WellFormedPieces pieces) (names : Names) :
    (all.foldl Names.insert names).excludes name = true ↔ names.excludes name = true ∨
      ∃ pieces ∈ all, Pattern.acceptsName true pieces name = true := by
  induction all generalizing names with
  | nil => simp
  | cons pieces all ih =>
    obtain ⟨own, others⟩ := List.forall_mem_cons.mp wellFormed
    rw [List.foldl_cons, ih others, excludes_insert_iff own, List.exists_mem_cons_iff, or_assoc]

end Lots

theorem mem_of_mapM {ε α β : Type} {f : α → Except ε β} {as : List α} {bs : List β}
    (h : as.mapM f = .ok bs) {b : β} : b ∈ bs ↔ ∃ a ∈ as, f a = .ok b := by
  induction as generalizing bs with
  | nil =>
    cases h
    simp
  | cons a as ih =>
    rw [List.mapM_cons] at h
    obtain ⟨first, own, h⟩ := Pattern.bind_eq_ok_iff.mp h
    obtain ⟨rest, others, h⟩ := Pattern.bind_eq_ok_iff.mp h
    cases h
    rw [List.mem_cons, List.exists_mem_cons_iff, ih others, own]
    simp [eq_comm]

section Patterns

variable {patterns : List Text}

theorem ofPatterns_eq_error_iff {fault : Fault} : Names.ofPatterns patterns = .error fault ↔
    ∃ before p after, patterns = before ++ p :: after ∧
      (∀ b ∈ before, ∃ pieces, Pattern.parse b = .ok [.component pieces]) ∧ Refused p fault := by
  unfold Names.ofPatterns
  rw [Pattern.map_eq_error_iff, Ignore.mapM_eq_error_iff]
  simp only [readName_eq_ok_iff, readName_eq_error_iff]

/-- The lots leave out the names that one of the patterns accepts. -/
theorem excludes_ofPatterns_iff {names : Names} (h : Names.ofPatterns patterns = .ok names)
    {name : Text} : names.excludes name = true ↔ ∃ p ∈ patterns, ∃ pieces,
      Pattern.parse p = .ok [.component pieces] ∧ Pattern.acceptsName true pieces name = true := by
  obtain ⟨all, read, rfl⟩ := Pattern.map_eq_ok_iff.mp h
  have wellFormed : ∀ pieces ∈ all, Pattern.WellFormedPieces pieces := by
    intro pieces member
    obtain ⟨p, -, own⟩ := (mem_of_mapM read).mp member
    exact wellFormedPieces_of_readName own
  have nothing : (⟨[], []⟩ : Names).excludes name = false := rfl
  rw [excludes_foldl_iff wellFormed, nothing]
  simp only [Bool.false_eq_true, false_or, mem_of_mapM read, readName_eq_ok_iff]
  constructor
  · intro h
    obtain ⟨pieces, ⟨p, member, own⟩, accepted⟩ := h
    exact ⟨p, member, pieces, own, accepted⟩
  · intro h
    obtain ⟨p, member, pieces, own, accepted⟩ := h
    exact ⟨pieces, ⟨p, member, own⟩, accepted⟩

/-- The same patterns in another order, some of them repeated, give the same lots but for the order. -/
theorem exists_ofPatterns_of_mem_iff {patterns' : List Text}
    (same : ∀ p, p ∈ patterns' ↔ p ∈ patterns) {names : Names}
    (h : Names.ofPatterns patterns = .ok names) :
    ∃ names', Names.ofPatterns patterns' = .ok names' ∧ byName names' = byName names := by
  have readable := Names.ofPatterns_eq_ok_iff.mp ⟨names, h⟩
  obtain ⟨names', h'⟩ := Names.ofPatterns_eq_ok_iff.mpr fun p member => readable p ((same p).mp member)
  refine ⟨names', h', ?_⟩
  funext cwd e
  rw [Bool.eq_iff_iff, byName, byName, excludes_ofPatterns_iff h, excludes_ofPatterns_iff h']
  simp only [same]

end Patterns

/-- There is no filter if and only if one of the texts is not a pattern of one name, and then the
fault is that of the first such text. Otherwise the filter leaves out an entry if and only if one of
the patterns accepts its name, whatever the order of the patterns and however often each is given. -/
theorem byName_ofPatterns (patterns : List Text) :
    ((∃ fault, Names.ofPatterns patterns = .error fault) ↔
      ∃ p ∈ patterns, ∀ pieces, Pattern.parse p ≠ .ok [.component pieces]) ∧
    (∀ fault, Names.ofPatterns patterns = .error fault ↔
      ∃ before p after, patterns = before ++ p :: after ∧
        (∀ b ∈ before, ∃ pieces, Pattern.parse b = .ok [.component pieces]) ∧ Refused p fault) ∧
    ∀ names, Names.ofPatterns patterns = .ok names →
      (∀ cwd e, byName names cwd e = true ↔ ∃ p ∈ patterns, ∃ pieces,
        Pattern.parse p = .ok [.component pieces] ∧
          Pattern.acceptsName true pieces e.name = true) ∧
      ∀ patterns', (∀ p, p ∈ patterns' ↔ p ∈ patterns) →
        ∃ names', Names.ofPatterns patterns' = .ok names' ∧ byName names' = byName names := by
  refine ⟨?_, fun fault => ofPatterns_eq_error_iff, fun names made => ⟨fun cwd e => ?_, ?_⟩⟩
  · have all := @Names.ofPatterns_eq_ok_iff patterns
    simp only [Readable, readName_eq_ok_iff] at all
    cases made : Names.ofPatterns patterns with
    | error fault => simpa [made] using all
    | ok names => simpa [made] using all
  · exact excludes_ofPatterns_iff made
  · exact fun patterns' same => exists_ofPatterns_of_mem_iff same made

theorem byName_ofPatterns_sample :
    ∃ names names',
      Names.ofPatterns ["./a*/".toList, "c".toList, ".\x7bb,\x7d".toList] = .ok names ∧
      Names.ofPatterns ["c".toList, ".\x7bb,\x7d".toList, "c".toList, "./a*/".toList] = .ok names' ∧
      byName names' = byName names ∧
      byName names [] ⟨⟨.relative, [".b".toList]⟩, ".b".toList, true, 1⟩ = true := by
  have made : Names.ofPatterns ["./a*/".toList, "c".toList, ".\x7bb,\x7d".toList] = .ok
      ⟨["c".toList], [[.text ['a'], .star], [.text ['.'], .oneOf [['b'], []]]]⟩ := by cbv
  have parsed : Pattern.parse ".\x7bb,\x7d".toList =
      .ok [.component [.text ['.'], .oneOf [['b'], []]]] := Pattern.parse_eq_ok_iff.mpr (by cbv)
  obtain ⟨excludes, reordered⟩ := (byName_ofPatterns _).2.2 _ made
  obtain ⟨names', made', same⟩ :=
    reordered ["c".toList, ".\x7bb,\x7d".toList, "c".toList, "./a*/".toList] (by simp; tauto)
  exact ⟨_, names', made, made', same,
    (excludes _ _).mpr ⟨_, by simp, _, parsed, by decide⟩⟩

end Wildpath.Filter
