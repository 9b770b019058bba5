import Mathlib.Data.List.Permutation
import Mathlib.Data.Nat.Find
import Wildpath.Proofs.Emptying
import Wildpath.Proofs.Steps

/-!
# Strict searches

A strict search differs from one that is not at one step only: where a directory cannot be listed,
it fails and the other goes on as if nothing were in there. So the two go the same way, event for
event, until a listing fails for the first time, and if none ever does they give the same.
-/

set_option autoImplicit false

namespace Wildpath

namespace Task

variable {answers : Answers} {options : Options} {task : Task}

/-- A task that lists what it asks for is carried out alike, strict or not. -/
theorem perform_strict (listed : ∀ q ∈ task.asks? options, ∀ error,
    answers.children q.1 q.2 ≠ .error error) :
    task.perform answers { options with strict := true } = task.perform answers options := by
  cases task with
  | visit e names segments => cases names <;> cases segments <;> rfl
  | descend e segments =>
    cases segments with
    | nil => rfl
    | cons segment segments =>
      cases may : mayDescend options e with
      | false => simp [perform, mayDescend_strict, may]
      | true =>
        have listed := listed (e, segment.hint?) (by simp [asks?, may])
        simp only [perform, mayDescend_strict, may, if_true]
        cases answered : answers.children e segment.hint? with
        | ok all => rfl
        | error error => exact absurd answered (listed error)
  | offer children segments => cases children <;> rfl
  | _ => rfl

theorem perform_strict_failed {d : Entry} {hint : Option Text} {error : FileError}
    (asked : task.asks? options = some (d, hint)) (refused : answers.children d hint = .error error) :
    task.perform answers { options with strict := true } = .failed d hint error := by
  obtain ⟨may, segment, segments, rfl, rfl⟩ := asks?_eq_some asked
  simp only [perform, mayDescend_strict, may, refused, if_true]

end Task

namespace Search

/-- The search as a strict one. -/
def hardened (s : Search) : Search := { s with options := { s.options with strict := true } }

/-- The next step asks for a directory that cannot be listed. -/
def Fails (answers : Answers) (s : Search) (d : Entry) (hint : Option Text) (error : FileError) :
    Prop :=
  s.asks? = some (d, hint) ∧ answers.children d hint = .error error

/-- After so many steps the search asks for a directory that cannot be listed, and not before. -/
def FailsFirst (answers : Answers) (s : Search) (n : Nat) (d : Entry) (hint : Option Text)
    (error : FileError) : Prop :=
  (s.after answers n).Fails answers d hint error ∧
    ∀ k < n, ∀ d hint error, ¬ (s.after answers k).Fails answers d hint error

variable {answers : Answers} {s : Search}

theorem step_hardened (calm : ∀ d hint error, ¬ s.Fails answers d hint error) :
    s.hardened.step answers = ((s.step answers).1, (s.step answers).2.hardened) := by
  obtain ⟨options, pending, seen⟩ := s
  cases pending with
  | nil => rfl
  | cons task rest =>
    have same : task.perform answers { options with strict := true } =
        task.perform answers options :=
      Task.perform_strict fun q asked error refused => calm q.1 q.2 error ⟨asked, refused⟩
    simp only [step, hardened, same]
    cases task.perform answers options with
    | quiet tasks => rfl
    | found e tasks =>
      by_cases doubled : e.path ∈ seen
      · simp [doubled, proceed]
      · cases admitted : options.wanted.admits e <;> simp [doubled, admitted, pass]
    | listed directory hint tasks => rfl
    | failed directory hint error => rfl

theorem step_hardened_of_fails {d : Entry} {hint : Option Text} {error : FileError}
    (fails : s.Fails answers d hint error) :
    (s.hardened.step answers).1 = .failed ⟨d.path, hint⟩ ⟨d.path, error⟩ := by
  obtain ⟨asked, refused⟩ := fails
  obtain ⟨options, pending, seen⟩ := s
  cases pending with
  | nil => cases asked
  | cons task rest =>
    have failed : task.perform answers { options with strict := true } = .failed d hint error :=
      Task.perform_strict_failed asked refused
    simp only [step, hardened, failed]

/-- As long as no listing has failed, a strict search is where the other is and showed the same. -/
theorem after_hardened {n : Nat}
    (calm : ∀ k < n, ∀ d hint error, ¬ (s.after answers k).Fails answers d hint error) :
    s.hardened.after answers n = (s.after answers n).hardened ∧
      s.hardened.events answers n = s.events answers n := by
  induction n generalizing s with
  | zero => exact ⟨rfl, rfl⟩
  | succ n ih =>
    have first : s.hardened.step answers = ((s.step answers).1, (s.step answers).2.hardened) :=
      step_hardened (calm 0 n.succ_pos)
    obtain ⟨there, shown⟩ := ih fun k less => calm (k + 1) (Nat.succ_lt_succ less)
    rw [after, events, first]
    exact ⟨there, congrArg (_ :: ·) shown⟩

theorem drain_hardened_of_calm {world : World}
    (calm : ∀ n d hint error, ¬ (s.after world.toAnswers n).Fails world.toAnswers d hint error) :
    (s.hardened.drain world).1 = (s.drain world).1 := by
  obtain ⟨n, idle⟩ := exists_after_idle world s
  obtain ⟨there, shown⟩ := after_hardened fun k (_ : k < n) => calm k
  rw [drain_eq_foldr world s n, drain_eq_foldr world s.hardened n, there, shown,
    drain_of_idle world idle, drain_of_idle world (s := (s.after world.toAnswers n).hardened) idle]

theorem Fails.busy {d : Entry} {hint : Option Text} {error : FileError}
    (fails : s.Fails answers d hint error) : s.pending ≠ [] := by
  intro idle
  obtain ⟨asked, -⟩ := fails
  simp [asks?, idle] at asked

theorem FailsFirst.drain_hardened {world : World} {n : Nat} {d : Entry} {hint : Option Text}
    {error : FileError} (fails : s.FailsFirst world.toAnswers n d hint error) :
    (s.hardened.drain world).1 = ⟨(s.events world.toAnswers n).filterMap Event.reported?,
      (s.events world.toAnswers n).filterMap Event.listed? ++ [⟨d.path, hint⟩],
      some ⟨d.path, error⟩⟩ := by
  obtain ⟨now, before⟩ := fails
  obtain ⟨there, shown⟩ := after_hardened before
  rw [drain_eq_foldr world s.hardened n, there, shown, drain_step, step_hardened_of_fails now,
    foldr_before (goesOn_of_mem_events now.busy), Event.before, List.append_nil]

/-- A search that does not fail goes on after a listing that does. -/
theorem Fails.drain {world : World} {n : Nat} {d : Entry} {hint : Option Text} {error : FileError}
    (fails : (s.after world.toAnswers n).Fails world.toAnswers d hint error)
    (unfailed : (s.drain world).1.failure = none) :
    ∃ entries listed, (s.drain world).1 =
      ⟨(s.events world.toAnswers n).filterMap Event.reported? ++ entries,
        (s.events world.toAnswers n).filterMap Event.listed? ++ ⟨d.path, hint⟩ :: listed, none⟩ := by
  rw [drain_eq_foldr world s n, foldr_before (goesOn_of_mem_events fails.busy),
    drain_step world (s.after world.toAnswers n)] at unfailed ⊢
  have listed := listed?_step (s.after world.toAnswers n) world.toAnswers
  rw [fails.1] at listed
  cases event : ((s.after world.toAnswers n).step world.toAnswers).1 with
  | listed l =>
    rw [event] at listed unfailed
    cases listed
    exact ⟨_, _, congrArg _ unfailed⟩
  | failed l error =>
    rw [event] at unfailed
    cases unfailed
  | _ =>
    rw [event] at listed
    cases listed

theorem exists_failsFirst {n : Nat} {d : Entry} {hint : Option Text} {error : FileError}
    (fails : (s.after answers n).Fails answers d hint error) :
    ∃ n d hint error, s.FailsFirst answers n d hint error := by
  classical
  have some : ∃ n d hint error, (s.after answers n).Fails answers d hint error :=
    ⟨n, d, hint, error, fails⟩
  obtain ⟨d, hint, error, now⟩ := Nat.find_spec some
  exact ⟨Nat.find some, d, hint, error, now,
    fun k less d hint error earlier => Nat.find_min some less ⟨d, hint, error, earlier⟩⟩

theorem failed_hardened_iff {world : World} (unfailed : (s.drain world).1.failure = none) :
    (s.hardened.drain world).1.failure.isSome = true ↔
      ∃ n d hint error, (s.after world.toAnswers n).Fails world.toAnswers d hint error := by
  constructor
  · intro failed
    by_contra calm
    push Not at calm
    rw [drain_hardened_of_calm calm, unfailed] at failed
    cases failed
  · intro h
    obtain ⟨n, d, hint, error, fails⟩ := h
    obtain ⟨n, d, hint, error, first⟩ := exists_failsFirst fails
    rw [first.drain_hardened]
    rfl

theorem drain_lenient (world : World) (options : Options) (base : Path) (names : List Text)
    (segments : List Pattern) :
    ((⟨{ options with strict := false }, [.start base names segments], []⟩ : Search).drain
      world).1.failure = none := by
  rw [drain_opened world { options with strict := false } base names segments rfl
    (calm_signs (Or.inl rfl))]

/-- A search that is not strict never fails and gives what it gives, strict or not, where every
directory that cannot be listed is empty. That is another file system if its base is still there.
The strict search goes along with it, event for event, up to the first listing that fails, and ends
there with that error. It fails just if there is one, and otherwise the two are the same. -/
theorem drain_strict (world : World) (cwd : List Text) (root : Path) {pattern : Text}
    {segments : List Pattern} (parsed : Pattern.parse pattern = .ok segments) (options : Options) :
    ∃ lenient strict, start cwd root pattern { options with strict := false } = .ok lenient ∧
      start cwd root pattern { options with strict := true } = .ok strict ∧
      (lenient.drain world).1.failure = none ∧
      (∀ s ∈ [lenient, strict], (s.drain world.emptied).1 = (lenient.drain world).1) ∧
      (∀ (l : Lister) (filter : Option Filter) (fs : FileSystem), l.refused = [] →
        world = l.world filter fs cwd →
        fs.emptied.rootEntry cwd (base cwd root segments) =
          fs.rootEntry cwd (base cwd root segments) →
        ∀ s ∈ [lenient, strict],
          (s.drain (l.world filter fs.emptied cwd)).1 = (lenient.drain world).1) ∧
      (∀ n d hint error, lenient.FailsFirst world.toAnswers n d hint error →
        let events := lenient.events world.toAnswers n
        strict.events world.toAnswers n = events ∧
        (strict.drain world).1 = ⟨events.filterMap Event.reported?,
          events.filterMap Event.listed? ++ [⟨d.path, hint⟩], some ⟨d.path, error⟩⟩ ∧
        ∃ entries listed, (lenient.drain world).1 = ⟨events.filterMap Event.reported? ++ entries,
          events.filterMap Event.listed? ++ ⟨d.path, hint⟩ :: listed, none⟩) ∧
      ((strict.drain world).1.failure.isSome = true ↔
        ∃ n d hint error, (lenient.after world.toAnswers n).Fails world.toAnswers d hint error) ∧
      ((∀ n d hint error, ¬ (lenient.after world.toAnswers n).Fails world.toAnswers d hint error) →
        (∀ n, strict.events world.toAnswers n = lenient.events world.toAnswers n) ∧
        (strict.drain world).1 = (lenient.drain world).1) := by
  refine ⟨_, _, start_eq_ok_iff.mpr ⟨segments, parsed, rfl⟩,
    start_eq_ok_iff.mpr ⟨segments, parsed, rfl⟩, ?unfailed, ?emptied, ?permitted, ?first, ?fails,
    ?calm⟩
  case unfailed => exact drain_lenient world options _ _ _
  case emptied =>
    have relieved := fun strict => drain_relieved world.relieves_emptied options strict
      (base cwd root segments) (baseNames cwd root segments) (remaining segments) rfl
      fun _ _ => trivial
    exact List.forall_mem_cons.mpr ⟨relieved false, List.forall_mem_singleton.mpr (relieved true)⟩
  case permitted =>
    intro l filter fs obliging same still
    subst same
    have emptied := fun strict => drain_emptied obliging filter options strict still
      (baseNames cwd root segments) (remaining segments)
    exact List.forall_mem_cons.mpr ⟨emptied false, List.forall_mem_singleton.mpr (emptied true)⟩
  case first =>
    intro n d hint error fails
    obtain ⟨-, shown⟩ := after_hardened fails.2
    exact ⟨shown, fails.drain_hardened, fails.1.drain (drain_lenient world options _ _ _)⟩
  case fails => exact failed_hardened_iff (drain_lenient world options _ _ _)
  case calm =>
    intro calm
    exact ⟨fun n => (after_hardened fun k _ => calm k).2, drain_hardened_of_calm calm⟩

end Search

/-- In the root are a directory that cannot be listed and, after it, a file. -/
def World.guarded : World where
  rootEntry p := some ⟨p, p.name, true, 0⟩
  children directory _ :=
    if directory.depth = 0 then
      .ok [⟨directory.path.child ['b'], ['b'], true, 1⟩, ⟨directory.path.child ['x'], ['x'], false, 1⟩]
    else .error ⟨.denied, directory.path.text⟩
  excludes _ := false
  grounded := by
    refine ⟨fun e => 1 - e.depth, fun directory hint all listed child member _ => ?_⟩
    dsimp only at listed ⊢
    split at listed
    · next top =>
      cases listed
      have deep : child.depth = 1 := by
        rcases List.mem_pair.mp member with rfl | rfl <;> rfl
      omega
    · cases listed

/-- A directory that cannot be listed and has a file in it, and a file beside it. -/
def FileSystem.shuttered : FileSystem where
  nodes := [([['b']], ⟨.directory, true, false⟩), ([['b'], ['y']], ⟨.file [], false, false⟩),
    ([['x']], ⟨.file [], false, false⟩)]
  distinct := by decide
  named := by decide

theorem Search.drain_strict_guarded :
    ∃ lenient strict,
      start [] ⟨.relative, []⟩ "**".toList { Options.standard with strict := false } = .ok lenient ∧
      start [] ⟨.relative, []⟩ "**".toList { Options.standard with strict := true } = .ok strict ∧
      (lenient.drain .guarded).1.failure = none ∧
      (strict.drain .guarded).1 =
        ⟨[⟨⟨.relative, []⟩, [], true, 0⟩, ⟨⟨.relative, [['b']]⟩, ['b'], true, 1⟩],
          [⟨⟨.relative, []⟩, some ['*']⟩, ⟨⟨.relative, [['b']]⟩, some ['*']⟩],
          some ⟨⟨.relative, [['b']]⟩, ⟨.denied, ['b']⟩⟩⟩ ∧
      (∀ s ∈ [lenient, strict], (s.drain (Lister.plain.world none FileSystem.shuttered.emptied [])).1 =
        (lenient.drain (Lister.plain.world none .shuttered [])).1) ∧
      (lenient.drain (Lister.plain.world none .shuttered [])).1 =
        ⟨[⟨⟨.relative, []⟩, [], true, 0⟩, ⟨⟨.relative, [['b']]⟩, ['b'], true, 1⟩,
            ⟨⟨.relative, [['x']]⟩, ['x'], false, 1⟩],
          [⟨⟨.relative, []⟩, some ['*']⟩, ⟨⟨.relative, [['b']]⟩, some ['*']⟩], none⟩ := by
  have parsed : Pattern.parse "**".toList = .ok [.globstar] := Pattern.parse_eq_ok_iff.mpr (by cbv)
  obtain ⟨lenient, strict, opens, opens', unfailed, -, -, first, -⟩ :=
    drain_strict .guarded [] ⟨.relative, []⟩ parsed .standard
  obtain ⟨segments, parsed', rfl⟩ := start_eq_ok_iff.mp opens
  rw [parsed] at parsed'
  cases parsed'
  obtain ⟨_, _, begun, begun', -, -, permitted, -⟩ :=
    drain_strict (Lister.plain.world none .shuttered []) [] ⟨.relative, []⟩ parsed .standard
  cases opens.symm.trans begun
  cases opens'.symm.trans begun'
  refine ⟨_, strict, opens, opens', unfailed, ?_, ?_, ?_⟩
  case refine_2 => exact permitted .plain none .shuttered rfl rfl (by cbv)
  case refine_3 =>
    rw [drain_of_idle_after 24 (by cbv)]
    cbv
  have fails := first 7 ⟨⟨.relative, [['b']]⟩, ['b'], true, 1⟩ (some ['*']) ⟨.denied, ['b']⟩ <| by
    refine ⟨⟨rfl, rfl⟩, fun k less d hint error fails => ?_⟩
    obtain ⟨asked, refused⟩ := fails
    obtain rfl | rfl | rfl | rfl | rfl | rfl | rfl :
      k = 0 ∨ k = 1 ∨ k = 2 ∨ k = 3 ∨ k = 4 ∨ k = 5 ∨ k = 6 := by omega
    all_goals cases asked
    cases refused
  rw [fails.2.1]
  rfl

end Wildpath
