import Mathlib.Data.List.Permutation
import Wildpath.Filter.Plan
import Wildpath.FileSystem.Below
import Wildpath.FileSystem.Change
import Wildpath.Preset

/-!
# What a filter is made from

Name patterns are read one by one, those of the presets always can be. The ignore file of a directory
may be missing; if it can be read but is no text, or has a line that is no rule, there is no filter.
A path with the character NUL is turned away before the file system is asked, which never happens to
the ignore file of a directory that was reached.
-/

set_option autoImplicit false

namespace Wildpath

/-- A name on the way has the character NUL. -/
def Path.Unaskable (cwd : List Text) (p : Path) : Prop :=
  ∃ name ∈ (p.anchored cwd).parts, '\x00' ∈ name

namespace FileSystem

theorem walk_ne_nulInPath (fs : FileSystem) (links : Nat) (start : Location) (names : List Text) :
    fs.walk links start names ≠ .error .nulInPath := by
  fun_induction walk fs links start names <;> simp_all

/-- A path with NUL is turned away before the file system is asked, and no other path is. -/
theorem place_eq_nulInPath_iff (fs : FileSystem) {cwd : List Text} {p : Path} :
    fs.place cwd p = .error .nulInPath ↔ p.Unaskable cwd := by
  unfold place Path.Unaskable
  dsimp only
  split
  · next dirty => simpa using dirty
  · next clean => simpa [walk_ne_nulInPath] using clean

theorem resolve_eq_nulInPath_iff {fs : FileSystem} {cwd : List Text} {p : Path} :
    fs.resolve cwd p = .error .nulInPath ↔ p.Unaskable cwd := by
  rw [← place_eq_nulInPath_iff fs]
  unfold resolve
  split <;> simp_all

theorem refusal_of_walk {fs : FileSystem} {links : Nat} {start : Location} {names : List Text}
    {refusal : Refusal} (h : fs.walk links start names = .error refusal) :
    refusal = .missing ∨ refusal = .notDirectory ∨ refusal = .tooManyLinks := by
  fun_induction walk fs links start names <;> simp_all

/-- These refusals say no to whether a path leads anywhere. What else may come of asking is not up to
the file system. -/
theorem refusal_of_resolve {fs : FileSystem} {cwd : List Text} {p : Path} {refusal : Refusal}
    (h : fs.resolve cwd p = .error refusal) :
    refusal = .missing ∨ refusal = .notDirectory ∨ refusal = .tooManyLinks ∨
      refusal = .nulInPath := by
  unfold resolve place at h
  dsimp only at h
  split at h
  · cases h
  · cases h
    exact .inl rfl
  · next refused =>
    cases h
    split at refused
    · cases refused
      exact .inr (.inr (.inr rfl))
    · rcases refusal_of_walk refused with missing | notDirectory | tooMany
      · exact .inl missing
      · exact .inr (.inl notDirectory)
      · exact .inr (.inr (.inl tooMany))

theorem write_eq_nulInPath_iff {fs : FileSystem} {cwd : List Text} {p : Path}
    {bytes : List UInt8} {e : FileError} :
    fs.write cwd p bytes = .error e ∧ e.refusal = .nulInPath ↔
      p.Unaskable cwd ∧ e = ⟨.nulInPath, p.text⟩ := by
  rw [← place_eq_nulInPath_iff fs]
  unfold write
  split
  · next refusal placed =>
    rw [placed]
    constructor
    · rintro ⟨h, same⟩
      cases h
      simp_all
    · rintro ⟨h, rfl⟩
      cases h
      exact ⟨rfl, rfl⟩
  · next placed =>
    simp only [placed, reduceCtorEq, false_and, iff_false, not_and]
    intro h
    split at h <;> cases h
    simp
  · next placed =>
    simp only [placed, reduceCtorEq, false_and, iff_false, not_and]
    intro h
    split at h
    · cases h
      simp
    · cases h
      simp
    · cases h
      simp
    · split at h <;> cases h
      simp

/-- Below a directory that was reached every name can be asked for. -/
theorem bytesAt_child_ne_nulInPath {fs : FileSystem} {cwd : List Text} {p : Path} {name : Text}
    (reached : fs.leadsToDirectory cwd p = true) (proper : name.contains '\x00' = false)
    {e : FileError} (h : fs.bytesAt cwd (p.child name) = .error e) : e.refusal ≠ .nulInPath := by
  have clean : ¬(p.child name).Unaskable cwd := by
    unfold leadsToDirectory at reached
    split at reached
    · next resolved =>
      have before := (resolve_eq_ok_iff.mp resolved).1
      rw [Path.Unaskable, anchored_child]
      rintro ⟨part, member, dirty⟩
      rcases List.mem_append.mp member with member | member
      · exact absurd dirty (by simpa using List.any_eq_false.mp before part member)
      · rw [List.mem_singleton.mp member] at dirty
        simp [dirty] at proper
    · cases reached
  unfold bytesAt at h
  split at h
  · next refusal refused =>
    cases h
    rintro rfl
    exact clean (resolve_eq_nulInPath_iff.mp refused)
  · split at h <;> grind

end FileSystem

namespace Ignore

/-- Reading a row fails on its first member that cannot be read. -/
theorem mapM_eq_error_iff {ε α β : Type} {f : α → Except ε β} {as : List α} {e : ε} :
    as.mapM f = .error e ↔ ∃ before a after, as = before ++ a :: after ∧
      (∀ b ∈ before, ∃ read, f b = .ok read) ∧ f a = .error e := by
  induction as with
  | nil => simp [pure, Except.pure]
  | cons a rest ih =>
    rw [List.mapM_cons]
    cases here : f a with
    | error problem =>
      constructor
      · intro h
        cases h
        exact ⟨[], a, rest, rfl, by simp, here⟩
      · rintro ⟨_ | ⟨b, before⟩, c, after, same, read, bad⟩
        · cases same
          rw [here] at bad
          cases bad
          rfl
        · cases same
          obtain ⟨value, read⟩ := read a List.mem_cons_self
          simp [here] at read
    | ok value =>
      have rest_iff : (do let v ← Except.ok value; let vs ← rest.mapM f; pure (v :: vs)) =
          (.error e : Except ε (List β)) ↔ rest.mapM f = .error e := by
        cases rest.mapM f <;> simp [bind, Except.bind, pure, Except.pure]
      rw [rest_iff, ih]
      constructor
      · rintro ⟨before, c, after, rfl, read, bad⟩
        exact ⟨a :: before, c, after, rfl, by simpa [here] using read, bad⟩
      · rintro ⟨_ | ⟨b, before⟩, c, after, same, read, bad⟩
        · cases same
          simp [here] at bad
        · cases same
          exact ⟨before, c, after, rfl, fun d member => read d (List.mem_cons_of_mem _ member), bad⟩

/-- The ignore file of a directory can be read but gives no rules: it is no text, or a line of it is
invalid, of which the first one counts. -/
inductive Broken (fs : FileSystem) (cwd : List Text) (root : Path) : LoadError → Prop where
  | undecodable {bytes : List UInt8} {error : Utf8.Error}
      (read : fs.bytesAt cwd (root.child fileName) = .ok bytes)
      (bad : Utf8.decode bytes = .error error) : Broken fs cwd root (.undecodable error)
  | invalidLine {bytes : List UInt8} {s line : Text} {before after : List Text}
      (read : fs.bytesAt cwd (root.child fileName) = .ok bytes)
      (decoded : Utf8.decode bytes = .ok s)
      (cut : Text.lines (Text.withLineFeeds s) = before ++ line :: after)
      (passed : ∀ l ∈ before, readRule l ≠ .error .invalid)
      (bad : readRule line = .error .invalid) : Broken fs cwd root (.invalidLine line)

theorem readRules_eq_error_iff {s line : Text} :
    readRules s = .error line ↔ ∃ before after,
      Text.lines (Text.withLineFeeds s) = before ++ line :: after ∧
      (∀ l ∈ before, readRule l ≠ .error .invalid) ∧ readRule line = .error .invalid := by
  unfold readRules
  dsimp only
  generalize Text.lines (Text.withLineFeeds s) = lines
  have mapped (x : Except Text (List (Option Rule))) :
      (·.filterMap id) <$> x = .error line ↔ x = .error line := by
    cases x <;> simp [Functor.map, Except.map]
  rw [mapped, mapM_eq_error_iff]
  constructor
  · rintro ⟨before, l, after, rfl, passed, bad⟩
    split at bad
    · cases bad
    · cases bad
    · next invalid =>
      cases bad
      refine ⟨before, after, rfl, fun b member other => ?_, invalid⟩
      obtain ⟨rule, read⟩ := passed b member
      simp [other] at read
  · rintro ⟨before, after, rfl, passed, invalid⟩
    refine ⟨before, line, after, rfl, fun b member => ?_, by simp [invalid]⟩
    have valid := passed b member
    split
    · exact ⟨_, rfl⟩
    · exact ⟨_, rfl⟩
    · contradiction

theorem load_eq_error_iff {fs : FileSystem} {cwd : List Text} {root : Path}
    (reached : fs.leadsToDirectory cwd root = true) {e : LoadError} :
    load fs cwd root = .error e ↔ Broken fs cwd root e := by
  unfold load
  constructor
  · intro h
    split at h
    · next error refused =>
      have := FileSystem.bytesAt_child_ne_nulInPath reached (by decide) refused
      simp [this] at h
    · next bytes read =>
      split at h
      · next bad =>
        cases h
        exact .undecodable read bad
      · next s decoded =>
        split at h
        · next bad =>
          cases h
          obtain ⟨before, after, cut, passed, bad⟩ := readRules_eq_error_iff.mp bad
          exact .invalidLine read decoded cut passed bad
        · cases h
  · rintro (⟨read, bad⟩ | ⟨read, decoded, cut, passed, bad⟩)
    · simp [read, bad]
    · simp [read, decoded, readRules_eq_error_iff.mpr ⟨_, _, cut, passed, bad⟩]

end Ignore

namespace Filter

/-- The text is a pattern of one name. -/
def Readable (pattern : Text) : Prop := ∃ pieces, readName pattern = .ok pieces

theorem Names.ofPatterns_eq_ok_iff {patterns : List Text} :
    (∃ names, Names.ofPatterns patterns = .ok names) ↔ ∀ p ∈ patterns, Readable p := by
  have read : (∃ pieces, patterns.mapM readName = .ok pieces) ↔ ∀ p ∈ patterns, Readable p := by
    induction patterns with
    | nil => simp [pure, Except.pure]
    | cons p rest ih =>
      rw [List.mapM_cons, List.forall_mem_cons, ← ih]
      cases hp : readName p <;> cases hr : rest.mapM readName <;>
        simp [Readable, hp, bind, Except.bind, pure, Except.pure]
  rw [← read]
  unfold Names.ofPatterns
  cases patterns.mapM readName <;> simp [Functor.map, Except.map]

end Filter

namespace Preset

theorem readable_of_mem_table {preset : String × List String} (member : preset ∈ table) {p : String}
    (own : p ∈ preset.2) : Filter.Readable p.toList := by
  have all : (table.all fun preset => preset.2.all fun p => (Filter.readName p.toList).isOk) =
      true := by cbv
  have ok := List.all_eq_true.mp (List.all_eq_true.mp all preset member) p own
  cases read : Filter.readName p.toList with
  | error => simp [read, Except.isOk, Except.toBool] at ok
  | ok pieces => exact ⟨pieces, read⟩

theorem readable_of_ownPatterns {name : Text} {own : List Text} (h : ownPatterns? name = some own) :
    ∀ p ∈ own, Filter.Readable p := by
  intro p member
  obtain ⟨preset, found, rfl⟩ := Option.map_eq_some_iff.mp h
  obtain ⟨s, there, rfl⟩ := List.mem_map.mp member
  exact readable_of_mem_table (List.mem_of_find?_eq_some found) there

theorem readable_of_patterns {name : Text} {all : List Text} (h : patterns name = .ok all) :
    ∀ p ∈ all, Filter.Readable p := by
  unfold patterns at h
  split at h
  · cases h
  · next own found =>
    split at h
    · cases h
      exact readable_of_ownPatterns found
    · cases h
      cases generic : ownPatterns? "generic".toList with
      | none => simpa using readable_of_ownPatterns found
      | some more =>
        simpa [or_imp, forall_and] using
          ⟨readable_of_ownPatterns generic, readable_of_ownPatterns found⟩

end Preset

end Wildpath
