import Wildpath.Pattern.Component

/-!
# What a component accepts

The pieces of a component accept a name if it is a row of texts, one that each piece covers. The
pieces are tried one after the other, and every trial knows which trials before it were in vain. All
that is noted was in vain indeed, however it came to be noted, so no note keeps a name out.
-/

set_option autoImplicit false

namespace Wildpath

/-- One of the ranges holds the character, or none does if the class is inverted. -/
def CharClass.Holds (cls : CharClass) (c : Char) : Prop :=
  if cls.inverted then ∀ r ∈ cls.ranges, ¬ (r.1 ≤ c ∧ c ≤ r.2)
  else ∃ r ∈ cls.ranges, r.1 ≤ c ∧ c ≤ r.2

theorem CharClass.contains_iff {cls : CharClass} {c : Char} :
    cls.contains c = true ↔ cls.Holds c := by
  obtain ⟨ranges, inverted⟩ := cls
  cases inverted <;> simp [contains, Holds]

namespace Pattern

/-- The texts that one piece stands for. -/
def Covers : Pattern → Text → Prop
  | .star, _ => True
  | .anyChar, s => ∃ c, s = [c]
  | .text value, s => s = value
  | .oneOf items, s => s ∈ items
  | .charClass cls, s => ∃ c, s = [c] ∧ cls.Holds c
  | _, _ => False

/-- The name is cut into consecutive texts, one for every piece. -/
inductive Spells : List Pattern → Text → Prop where
  | nil : Spells [] []
  | cons {piece : Pattern} {pieces : List Pattern} {front back : Text} :
    Covers piece front → Spells pieces back → Spells (piece :: pieces) (front ++ back)

theorem ends_eq_cons {α : Type} (l : List α) : ends l = l :: (ends l).tail := by
  cases l <;> rfl

theorem mem_ends_iff {α : Type} {back l : List α} : back ∈ ends l ↔ ∃ front, l = front ++ back := by
  induction l with
  | nil => simp [ends, eq_comm]
  | cons a l ih =>
    simp only [ends, List.mem_cons, ih]
    constructor
    · rintro (rfl | ⟨front, rfl⟩)
      · exact ⟨[], rfl⟩
      · exact ⟨a :: front, rfl⟩
    · rintro ⟨front, h⟩
      cases front with
      | nil => exact Or.inl h.symm
      | cons b front => exact Or.inr ⟨front, (List.cons.inj h).2⟩

theorem headD_map_ends {α β : Type} (f : List α → β) (l : List α) (b : β) :
    ((ends l).map f).headD b = f l := by
  rw [ends_eq_cons]
  rfl

theorem any_map_ends {α : Type} (f : List α → Bool) (l : List α) :
    ((ends l).map f).any id = true ↔ ∃ front back, l = front ++ back ∧ f back = true := by
  simp only [List.any_eq_true, List.mem_map, mem_ends_iff, id]
  constructor
  · rintro ⟨_, ⟨back, ⟨front, h⟩, rfl⟩, accepted⟩
    exact ⟨front, back, h, accepted⟩
  · rintro ⟨front, back, h, accepted⟩
    exact ⟨true, ⟨back, ⟨front, h⟩, accepted⟩, rfl⟩

theorem mem_afterText_iff {value s back : Text} :
    back ∈ afterText value s ↔ s = value ++ back := by
  unfold afterText
  split
  · next starts =>
    obtain ⟨rest, rfl⟩ := List.isPrefixOf_iff_prefix.mp starts
    simp [eq_comm]
  · next other =>
    refine iff_of_false (by simp) ?_
    rintro rfl
    exact other (List.isPrefixOf_iff_prefix.mpr (List.prefix_append value back))

/-- A piece leaves what follows a text that it covers. -/
theorem mem_rests_iff {piece : Pattern} {s back : Text} :
    back ∈ rests piece s ↔ ∃ front, s = front ++ back ∧ Covers piece front := by
  cases piece with
  | star => simp only [rests, mem_ends_iff, Covers, and_true]
  | text value => simp [rests, mem_afterText_iff, Covers]
  | oneOf items =>
    simp only [rests, List.mem_flatMap, mem_afterText_iff, Covers]
    constructor
    · rintro ⟨item, member, rfl⟩
      exact ⟨item, rfl, member⟩
    · rintro ⟨item, rfl, member⟩
      exact ⟨item, member, rfl⟩
  | anyChar =>
    cases s with
    | nil => simp [rests, Covers]
    | cons c s =>
      simp only [rests, List.mem_singleton, Covers]
      constructor
      · rintro rfl
        exact ⟨[c], rfl, c, rfl⟩
      · rintro ⟨_, same, d, rfl⟩
        exact (List.cons.inj same).2.symm
  | charClass cls =>
    cases s with
    | nil => simp [rests, Covers]
    | cons c s =>
      simp only [rests, List.mem_ite_nil_right, List.mem_singleton, CharClass.contains_iff, Covers]
      constructor
      · rintro ⟨inside, rfl⟩
        exact ⟨[c], rfl, c, rfl, inside⟩
      · rintro ⟨_, same, d, rfl, inside⟩
        obtain ⟨rfl, rfl⟩ := List.cons.inj same
        exact ⟨inside, rfl⟩
  | _ => simp [rests, Covers]

theorem spells_nil_iff {s : Text} : Spells [] s ↔ s = [] := by
  constructor
  · rintro ⟨⟩
    rfl
  · rintro rfl
    exact .nil

theorem spells_cons_iff {piece : Pattern} {later : List Pattern} {s : Text} :
    Spells (piece :: later) s ↔ ∃ back ∈ rests piece s, Spells later back := by
  simp only [mem_rests_iff]
  constructor
  · intro h
    cases h with
    | @cons _ _ front back covers spelled => exact ⟨back, ⟨front, rfl, covers⟩, spelled⟩
  · rintro ⟨back, ⟨front, rfl, covers⟩, spelled⟩
    exact .cons covers spelled

theorem suffix_of_mem_rests {piece : Pattern} {s back : Text} (h : back ∈ rests piece s) :
    back <:+ s := by
  obtain ⟨front, rfl, -⟩ := mem_rests_iff.mp h
  exact List.suffix_append front back

/-- Every failure that is noted for an end of the name is one. -/
def Futile (name : Text) : List Pattern → Failures → Prop
  | [], _ => True
  | piece :: later, failures =>
    (∀ s, s <:+ name → s.length ∈ failures.headD [] → ¬ Spells (piece :: later) s) ∧
      Futile name later failures.tail

theorem futile_nil (name : Text) (pieces : List Pattern) : Futile name pieces [] := by
  induction pieces with
  | nil => trivial
  | cons piece later ih => exact ⟨by simp, ih⟩

/-- Where every attempt answers a question rightly and keeps what the failures promise, trying in
turn asks whether one of the answers is yes. -/
theorem tryInTurn_spec {α σ : Type} {attempt : α → σ → Bool × σ} {Sound : σ → Prop} {P : α → Prop}
    {l : List α} (right : ∀ a ∈ l, ∀ failures, Sound failures →
      ((attempt a failures).1 = true ↔ P a) ∧ Sound (attempt a failures).2)
    {failures : σ} (sound : Sound failures) :
    ((tryInTurn attempt l failures).1 = true ↔ ∃ a ∈ l, P a) ∧
      Sound (tryInTurn attempt l failures).2 := by
  induction l generalizing failures with
  | nil => exact ⟨by simp [tryInTurn], sound⟩
  | cons a l ih =>
    obtain ⟨answer, kept⟩ := right a List.mem_cons_self failures sound
    have others : ∀ b ∈ l, ∀ failures, Sound failures →
        ((attempt b failures).1 = true ↔ P b) ∧ Sound (attempt b failures).2 :=
      fun b member => right b (List.mem_cons_of_mem a member)
    rw [tryInTurn]
    rcases tried : attempt a failures with ⟨_ | _, noted⟩
    · rw [tried] at answer kept
      have refused : ¬ P a := fun holds => Bool.false_ne_true (answer.mpr holds)
      obtain ⟨found, sound⟩ := ih others kept
      refine ⟨found.trans ?_, sound⟩
      simp [refused]
    · rw [tried] at answer kept
      exact ⟨by simp [answer.mp rfl], kept⟩

/-- Whatever failures were noted before, as long as they are failures, the answer is whether the
pieces spell the text, and only failures are added. -/
theorem acceptsFrom_spec {name : Text} (pieces : List Pattern) {s : Text} (within : s <:+ name)
    {failures : Failures} (futile : Futile name pieces failures) :
    ((acceptsFrom pieces s failures).1 = true ↔ Spells pieces s) ∧
      Futile name pieces (acceptsFrom pieces s failures).2 := by
  induction pieces generalizing s failures with
  | nil => exact ⟨by simp [acceptsFrom, spells_nil_iff], trivial⟩
  | cons piece later ih =>
    obtain ⟨noted, below⟩ := futile
    simp only [acceptsFrom]
    split
    · next failed =>
      have failed := noted s within (by simpa using failed)
      exact ⟨iff_of_false Bool.false_ne_true failed, noted, below⟩
    · obtain ⟨answer, kept⟩ := tryInTurn_spec (l := rests piece s)
        (fun back member failures futile =>
          ih ((suffix_of_mem_rests member).trans within) futile) below
      rw [← spells_cons_iff] at answer
      rcases tried : tryInTurn (acceptsFrom later) (rests piece s) failures.tail with ⟨_ | _, after⟩
      · rw [tried] at answer kept
        have refused : ¬ Spells (piece :: later) s :=
          fun spelled => Bool.false_ne_true (answer.mpr spelled)
        refine ⟨answer, ?_, kept⟩
        -- two ends of the name of one length are the same end
        intro t inside member
        rcases List.mem_cons.mp member with same | member
        · have shorter := List.suffix_of_suffix_length_le inside within (Nat.le_of_eq same)
          rwa [shorter.eq_of_length same]
        · exact noted t inside member
      · rw [tried] at answer kept
        exact ⟨answer, noted, kept⟩

theorem accepts_iff_spells {pieces : List Pattern} {name : Text} :
    accepts pieces name = true ↔ Spells pieces name :=
  (acceptsFrom_spec pieces List.suffix_rfl (futile_nil name pieces)).1

/-- A component of one text takes this name and no other, hidden or not. -/
theorem acceptsName_text_iff {hidden : Bool} {value name : Text} :
    acceptsName hidden [.text value] name = true ↔ name = value := by
  have spelled : accepts [.text value] name = true ↔ name = value := by
    rw [accepts_iff_spells]
    constructor
    · intro h
      cases h with
      | cons covers later =>
        cases later
        rw [List.append_nil]
        exact covers
    · rintro rfl
      have spelled : Spells [.text name] (name ++ []) := .cons rfl .nil
      rwa [List.append_nil] at spelled
  unfold acceptsName
  split
  · next asked =>
    have dotted : Text.startsHidden name = true := (Bool.and_eq_true_iff.mp asked).2
    simp only [spellsDot, Bool.and_eq_true, spelled, and_iff_right_iff_imp]
    rintro rfl
    exact dotted
  · exact spelled

/-- Where hidden names are allowed, a component accepts the names that its pieces spell. What was
tried in vain before makes no difference, and all that is noted was tried in vain. -/
theorem acceptsName_spells (pieces : List Pattern) (name : Text) :
    (acceptsName true pieces name = true ↔ Spells pieces name) ∧
      ∀ failures, Futile name pieces failures →
        ((acceptsFrom pieces name failures).1 = true ↔ Spells pieces name) ∧
          Futile name pieces (acceptsFrom pieces name failures).2 := by
  have plain : acceptsName true pieces name = accepts pieces name := by simp [acceptsName]
  rw [plain]
  refine ⟨accepts_iff_spells, ?_⟩
  intro failures futile
  exact acceptsFrom_spec pieces List.suffix_rfl futile

/-- The item that is tried first leaves nothing that the second set accepts. -/
example : acceptsName true
    [.oneOf ["a".toList, "ab".toList], .oneOf ["c".toList, "bcd".toList]] "abc".toList = true := by
  decide

end Pattern
end Wildpath
