import Wildpath.Proofs.PathText
import Wildpath.Proofs.Steps

/-!
# Patterns that spell out the root

A search for an anchored pattern first reads the names of its own root. A pattern that spells these
names out and goes on with a relative pattern takes them one by one, without a listing and without an
entry, and is then the search for the relative pattern at that root. So the two cannot be told apart:
the first draw gives the same report and leaves the same search behind.
-/

set_option autoImplicit false

namespace Wildpath

namespace Search

/-- Some steps lead from the first search to the second one, and nothing shows on the way. -/
inductive Quietly (answers : Answers) : Search → Search → Prop where
  | here (s : Search) : Quietly answers s s
  | step {s t u : Search} : s.step answers = (.quiet, t) → Quietly answers t u → Quietly answers s u

theorem next_of_quiet {world : World} {s t : Search} (h : s.step world.toAnswers = (.quiet, t)) :
    s.next world = t.next world := by
  rw [next]
  split <;> next stepped => cases h.symm.trans stepped <;> rfl

namespace Quietly

variable {answers : Answers} {world : World} {s t : Search}

theorem next_eq (h : Quietly world.toAnswers s t) : s.next world = t.next world := by
  induction h with
  | here => rfl
  | step stepped _ ih => exact (next_of_quiet stepped).trans ih

theorem drain_eq (h : Quietly world.toAnswers s t) : (s.drain world).1 = (t.drain world).1 := by
  rw [drain_next world s, drain_next world t, h.next_eq]

variable (answers) (options : Options) (seen : List Path) (rest : List Task)

/-- Names are taken by the segments that spell them out. -/
theorem named (e : Entry) (names : List Text) (segments : List Pattern) :
    Quietly answers
      ⟨options, .visit e names (names.map Pattern.literal ++ segments) :: rest, seen⟩
      ⟨options, .visit e [] segments :: rest, seen⟩ := by
  induction names with
  | nil => exact .here _
  | cons name names ih =>
    apply Quietly.step ?_ ih
    simp [Search.step, Task.perform, Task.visitName, Pattern.literal, Pattern.acceptsName_text_iff,
      proceed]

theorem anchored (e : Entry) (names : List Text) (segments : List Pattern) :
    Quietly answers ⟨options, .visit e ([] :: names)
      (.anchor [] :: names.map Pattern.literal ++ segments) :: rest, seen⟩
      ⟨options, .visit e [] segments :: rest, seen⟩ := by
  apply Quietly.step ?_ (named answers options seen rest e names segments)
  simp [Search.step, Task.perform, Task.visitName, proceed]

/-- The search that takes the names of its root and the one that starts behind them come to the same
search. -/
theorem meet (base : Path) (names : List Text) (segments : List Pattern) :
    ∃ t, Quietly answers ⟨options, [.start base ([] :: names)
        (.anchor [] :: names.map Pattern.literal ++ segments)], seen⟩ t ∧
      Quietly answers ⟨options, [.start base [] segments], seen⟩ t := by
  cases rooted : answers.rootEntry base with
  | none =>
    refine ⟨⟨options, [], seen⟩, .step ?_ (.here _), .step ?_ (.here _)⟩ <;>
      simp [Search.step, Task.perform, rooted, proceed]
  | some top =>
    refine ⟨⟨options, [.visit top [] segments], seen⟩,
      .step ?_ (anchored answers options seen [] top names segments), .step ?_ (.here _)⟩ <;>
      simp [Search.step, Task.perform, rooted, proceed]

end Quietly

/-- A pattern that spells out the absolute path of the root and goes on with a relative pattern gives
the search for that pattern at the absolute path of the root: in every world the first draw gives the
same report and leaves the same search, and draining gives the same entries, listings and failure. -/
theorem start_spelled {cwd : List Text} (placed : ∀ name ∈ cwd, isName name = true)
    {written base : Text} (spelled : base = ((Path.ofText written).absolute cwd).text)
    (plain : ∀ c ∈ base, Pattern.isPlain c = true ∧ c ≠ '\\') {pattern : Text}
    {segments : List Pattern} (parsed : Pattern.parse pattern = .ok segments)
    (relative : Pattern.isAnchored segments = false) (still : Pattern.parent ∉ segments)
    (options : Options) :
    ∃ s s', start cwd (Path.ofText written) (base ++ '/' :: pattern) options = .ok s ∧
      start cwd (Path.ofText base) pattern options = .ok s' ∧
      ∀ world : World, s.next world = s'.next world ∧ (s.drain world).1 = (s'.drain world).1 := by
  have proper := (Path.proper_ofText written).absolute placed
  have whole := Pattern.parse_join (Pattern.parse_text
    (Path.isAnchored_absolute cwd (Path.ofText written)) proper
    (Path.parent_notMem_absolute cwd _) (spelled ▸ plain)) parsed relative still
  rw [← spelled] at whole
  refine ⟨_, _, start_eq_ok_iff.mpr ⟨_, whole, rfl⟩, start_eq_ok_iff.mpr ⟨_, parsed, rfl⟩, ?_⟩
  intro world
  have root : Path.ofText base = (Path.ofText written).absolute cwd := by
    rw [spelled, Path.ofText_text proper]
  rw [base_of_still relative still, baseNames_relative relative, remaining_of_still relative still,
    root]
  obtain ⟨t, spelledOut, behind⟩ := Quietly.meet world.toAnswers options []
    ((Path.ofText written).absolute cwd) ((Path.ofText written).absolute cwd).parts segments
  exact ⟨spelledOut.next_eq.trans behind.next_eq.symm, spelledOut.drain_eq.trans behind.drain_eq.symm⟩

theorem start_spelled_sample :
    ∃ s s', start [['w']] (Path.ofText ".git/..//a.b".toList) "/w/a.b/**/.".toList .standard = .ok s ∧
      start [['w']] (Path.ofText "/w/a.b".toList) "**/.".toList .standard = .ok s' ∧
      s.next (Lister.plain.world none .sample []) = s'.next (Lister.plain.world none .sample []) := by
  have parsed : Pattern.parse "**/.".toList = .ok [.globstar] :=
    Pattern.parse_eq_ok_iff.mpr (by cbv)
  obtain ⟨s, s', opens, opens', same⟩ := @start_spelled [['w']] (by decide) ".git/..//a.b".toList
    "/w/a.b".toList (by decide) (by simp [Pattern.isPlain]) _ _ parsed rfl
    (by simp [Pattern.parent]) .standard
  exact ⟨s, s', opens, opens', (same _).1⟩

end Search
end Wildpath
