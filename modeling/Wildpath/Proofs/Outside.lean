import Wildpath.Proofs.RuleReach
import Wildpath.Proofs.RuledPath

/-!
# Ignore rules outside their directory

An entry outside the directory of the rules is asked about too, under the way that leads up to the
last common directory and down from there. Its text begins with two dots. A rule that takes any name
or any directories in front takes the dots as well, so it excludes what is outside; a rule that is
tied to its directory does not.
-/

set_option autoImplicit false

namespace Wildpath

namespace Path

/-- Where the common front ends, one of the lists is used up or the next names differ. -/
theorem exists_front (as bs : List Text) : ∃ front, as = front ++ (dropCommon as bs).1 ∧
    bs = front ++ (dropCommon as bs).2 ∧
    ((dropCommon as bs).2 = [] ∨ (dropCommon as bs).1.head? ≠ (dropCommon as bs).2.head?) := by
  fun_induction dropCommon as bs with
  | case1 as b bs ih =>
    obtain ⟨front, first, second, apart⟩ := ih
    exact ⟨b :: front, by rw [List.cons_append, ← first], by rw [List.cons_append, ← second], apart⟩
  | case2 a as b bs other => exact ⟨[], rfl, rfl, Or.inr (by simpa using other)⟩
  | case3 as bs apart =>
    refine ⟨[], rfl, rfl, ?_⟩
    cases bs with
    | nil => exact Or.inl rfl
    | cons b bs =>
      cases as with
      | nil => exact Or.inr (by simp)
      | cons a as => exact absurd rfl (apart a as b bs rfl)

end Path

namespace Filter

variable {cwd : List Text} {root : Path} {names : List Text}

theorem ruledText_up (filled : names ≠ []) (directory : Bool) :
    ruledText (parentName :: names) directory = '.' :: '.' :: '/' :: ruledText names directory := by
  cases names with
  | nil => exact absurd rfl filled
  | cons name names => rfl

theorem exists_ruledText_up (names : List Text) (directory : Bool) :
    ∃ rest, ruledText (parentName :: names) directory = '.' :: '.' :: rest := by
  cases names with
  | nil => cases directory <;> exact ⟨_, rfl⟩
  | cons name names => exact ⟨_, ruledText_up (by simp) directory⟩

/-- What floats covers names outside wherever it covers them inside. -/
theorem covers_ruledText_up {shape : Ignore.Shape} (floats : shape.Floats) (filled : names ≠ [])
    {directory : Bool} (covers : (shape.covers (ruledText names directory)).isSome = true)
    (ups : Nat) :
    (shape.covers (ruledText (List.replicate ups parentName ++ names) directory)).isSome = true := by
  induction ups with
  | zero => exact covers
  | succ ups ih =>
    rw [List.replicate_succ, List.cons_append, ruledText_up (by simp [filled])]
    exact floats.covers_up ih

/-- The way to an entry outside the root leads up the names `back`, and down from there. -/
theorem ruledPath?_of_outside {e : Entry}
    (outside : ¬ (root.absolute cwd).parts <+: (e.path.absolute cwd).parts) :
    ∃ front back names, (root.absolute cwd).parts = front ++ back ∧
      (e.path.absolute cwd).parts = front ++ names ∧ back ≠ [] ∧ names.head? ≠ back.head? ∧
      ruledPath? root cwd e =
        some (ruledText (List.replicate back.length parentName ++ names) e.isDirectory) := by
  obtain ⟨front, down, up, apart⟩ :=
    Path.exists_front (e.path.absolute cwd).parts (root.absolute cwd).parts
  generalize split :
    Path.dropCommon (e.path.absolute cwd).parts (root.absolute cwd).parts = ways at down up apart
  obtain ⟨names, back⟩ := ways
  have climbs : back ≠ [] := by
    rintro rfl
    exact outside ⟨names, by rw [down, up, List.append_nil]⟩
  refine ⟨front, back, names, up, down, climbs, apart.resolve_left climbs, ?_⟩
  have filled : List.replicate back.length parentName ++ names ≠ [] := by simp [climbs]
  rw [ruledPath?, Path.relativeTo, split, ruledText]
  simp only [if_neg filled]
  rw [Path.text_eq (Or.inr filled)]
  rfl

/-- An entry outside the directory of the rules is excluded if and only if they ignore the way that
leads to it, up the names `back` and down others. Lines that are tied to their directory never exclude
it. But a loose line that covers names inside covers them outside too. -/
theorem byRules_outside {e : Entry}
    (outside : ¬ (root.absolute cwd).parts <+: (e.path.absolute cwd).parts) :
    ∃ front back names, (root.absolute cwd).parts = front ++ back ∧
      (e.path.absolute cwd).parts = front ++ names ∧ back ≠ [] ∧ names.head? ≠ back.head? ∧
      (∀ rules, byRules root rules cwd e = Ignore.isIgnored rules
        (ruledText (List.replicate back.length parentName ++ names) e.isDirectory)) ∧
      ∀ s rules, Ignore.readRules s = .ok rules →
        ((∀ line ∈ Text.lines (Text.withLineFeeds s), ∀ rule,
          Ignore.readRule line = .ok (some rule) → rule.ignores = true →
            Ignore.Tied (Ignore.trimmedLine line)) →
          byRules root rules cwd e = false) ∧
        ((∀ rule ∈ rules, rule.ignores = true) → names ≠ [] →
          ∀ line ∈ Text.lines (Text.withLineFeeds s), Ignore.Loose (Ignore.trimmedLine line) →
            ∀ rule, Ignore.readRule line = .ok (some rule) →
              (rule.shape.covers (ruledText names e.isDirectory)).isSome = true →
                byRules root rules cwd e = true) := by
  obtain ⟨front, back, names, up, down, climbs, apart, known⟩ := ruledPath?_of_outside outside
  have asked (rules : List Ignore.Rule) : byRules root rules cwd e = Ignore.isIgnored rules
      (ruledText (List.replicate back.length parentName ++ names) e.isDirectory) := by
    simp [byRules, known]
  -- whatever follows, the text begins with two dots, so no lead is taken off it
  obtain ⟨rest, dots⟩ : ∃ rest, ruledText (List.replicate back.length parentName ++ names)
      e.isDirectory = '.' :: '.' :: rest := by
    obtain ⟨last, back, rfl⟩ := List.exists_cons_of_ne_nil climbs
    exact exists_ruledText_up _ _
  have whole : Ignore.withoutLead ('.' :: '.' :: rest) = '.' :: '.' :: rest := rfl
  refine ⟨front, back, names, up, down, climbs, apart, asked, fun s rules read => ⟨?tied, ?loose⟩⟩
  case tied =>
    intro tied
    rw [asked, dots, Bool.eq_false_iff]
    intro ignored
    obtain ⟨rule, member, ignores, covers⟩ := Ignore.exists_covers_of_isIgnored ignored
    obtain ⟨line, there, given⟩ := (Ignore.mem_readRules_iff read).mp member
    obtain ⟨c, atoms, ending, other, shape⟩ := Ignore.readShape_of_tied
      (tied line there rule given ignores) (Ignore.readShape_of_ignores given ignores)
    simp [shape, whole, Ignore.Shape.covers, Ignore.firstWay, Ignore.Atom.rests, other.symm] at covers
  case loose =>
    intro ignoring filled line there loose rule given covers
    have member := (Ignore.mem_readRules_iff read).mpr ⟨line, there, given⟩
    have floats := Ignore.readShape_of_loose loose
      (Ignore.readShape_of_ignores given (ignoring rule member))
    rw [asked, dots]
    apply Ignore.isIgnored_of_covers ignoring member
    rw [whole, ← dots]
    exact covers_ruledText_up floats filled covers back.length

theorem byRules_outside_sample :
    ∃ tied loose, Ignore.readRules "/build/\ndocs/*.md\n".toList = .ok tied ∧
      Ignore.readRules "build/\n".toList = .ok loose ∧
      byRules (Path.ofText "r".toList) tied []
        ⟨Path.ofText "build".toList, "build".toList, true, 1⟩ = false ∧
      byRules (Path.ofText "r".toList) loose []
        ⟨Path.ofText "build".toList, "build".toList, true, 1⟩ = true := by
  obtain ⟨tied, read⟩ : ∃ rules, Ignore.readRules "/build/\ndocs/*.md\n".toList = .ok rules :=
    ⟨_, by cbv⟩
  have read' : Ignore.readRules "build/\n".toList =
      .ok [⟨true, .glob (.leading :: "build".toList.map .char) .directory⟩] := by cbv
  have outside : ¬ ((Path.ofText "r".toList).absolute []).parts <+:
      ((Path.ofText "build".toList).absolute []).parts := by decide
  obtain ⟨front, back, names, up, down, -, -, -, lines⟩ :=
    @byRules_outside [] _ ⟨_, "build".toList, true, 1⟩ outside
  refine ⟨tied, _, read, read', (lines _ tied read).1 ?tied, ?loose⟩
  case tied =>
    intro line member rule given ignores
    have both : Text.lines (Text.withLineFeeds "/build/\ndocs/*.md\n".toList) =
      ["/build/".toList, "docs/*.md".toList] := by decide
    rw [both, List.mem_pair] at member
    rcases member with rfl | rfl
    · exact ⟨'b', "uild/".toList, by decide, Or.inl (by decide)⟩
    · exact ⟨'d', "ocs/*.md".toList, by decide, Or.inr (by decide)⟩
  case loose =>
    obtain rfl : front = [] := by
      cases front with
      | nil => rfl
      | cons name front =>
        have own : ["r".toList] = name :: (front ++ back) := up
        have other : ["build".toList] = name :: (front ++ names) := down
        have same := (List.cons.inj own).1.trans (List.cons.inj other).1.symm
        exact absurd same (by decide)
    obtain rfl : names = ["build".toList] := down.symm
    refine (lines _ _ read').2 (by simp) (by simp) "build/".toList (by decide) ?_ _ (by cbv) (by cbv)
    exact ⟨by decide, by decide⟩

/-- A rule for hidden names takes the two dots of the way up for one, so it excludes every entry
outside, such as a file beside the directory of the rules. -/
theorem byRules_outside_hidden :
    ∃ rules, Ignore.readRules ".*\n".toList = .ok rules ∧
      ¬ ((Path.ofText "r".toList).absolute []).parts <+: ((Path.ofText "x".toList).absolute []).parts ∧
      byRules (Path.ofText "r".toList) rules [] ⟨Path.ofText "x".toList, "x".toList, false, 1⟩ =
        true :=
  ⟨_, by cbv, by decide, by cbv⟩

end Filter
end Wildpath
