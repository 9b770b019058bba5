import Wildpath.Command.Run
import Wildpath.Proofs.Canonical
import Wildpath.Proofs.Loading

/-!
# What the stages of a command come to

Reading an option, a preset, a pattern, the ignore file, asking the host, listing a directory and
writing the output can each go wrong. For each stage there is an account of its errors, and for a whole
run one of what its stages make of it. Only reading the arguments ends a command through the usage.
-/

set_option autoImplicit false

namespace Wildpath

namespace Command

variable {fs : FileSystem} {cwd : List Text} {s : Settings}

/-- The directory is there, and not both kinds of entries are asked for. -/
structure Settings.Admitted (fs : FileSystem) (cwd : List Text) (s : Settings) : Prop where
  reached : fs.leadsToDirectory cwd (Path.ofText s.directory) = true
  oneKind : (s.directoriesOnly && s.othersOnly) = false

def Level.Sound (level : Level) : Prop := level = .unlimited ∨ ∃ n, level = .upTo n ∧ 1 ≤ n

def Settings.PresetKnown (s : Settings) : Prop :=
  ∀ name, s.preset = some name → name = [] ∨ ∃ own, Preset.patterns name = .ok own

theorem depthLimit_eq_escape_iff {level : Level} {e : Escape} :
    depthLimit level = .error (.escape e) ↔ level = .blank ∧ e = .blankLevel := by
  cases level with
  | upTo n => by_cases h : n < 1 <;> simp [depthLimit, h]
  | _ => simp [depthLimit, eq_comm]

theorem depthLimit_eq_ok_iff {level : Level} :
    (∃ limit, depthLimit level = .ok limit) ↔ level.Sound := by
  cases level with
  | upTo n =>
    by_cases h : n < 1
    · simp [depthLimit, Level.Sound, h]
    · have : 1 ≤ n := by omega
      simp [depthLimit, Level.Sound, h, this]
  | _ => simp [depthLimit, Level.Sound]

theorem failure_of_presetPatterns {preset : Option Text} {t : Trouble}
    (h : presetPatterns preset = .error t) : ∃ unknown, t = .failure (.preset unknown) := by
  unfold presetPatterns at h
  split at h
  · cases h
  · split at h
    · cases h
    · next name _ =>
      cases found : Preset.patterns name with
      | error unknown =>
        rw [found] at h
        cases h
        exact ⟨unknown, rfl⟩
      | ok own =>
        rw [found] at h
        cases h

theorem presetPatterns_eq_ok_iff :
    (∃ own, presetPatterns s.preset = .ok own) ↔ s.PresetKnown := by
  unfold presetPatterns Settings.PresetKnown
  cases s.preset with
  | none => simp
  | some name =>
    by_cases h : name = []
    · simp [h]
    · cases found : Preset.patterns name <;> simp [h, found]

theorem readable_of_presetPatterns {own : List Text} (h : presetPatterns s.preset = .ok own) :
    ∀ p ∈ own, Filter.Readable p := by
  unfold presetPatterns at h
  split at h
  · cases h
    simp
  · next name _ =>
    split at h
    · cases h
      simp
    · cases found : Preset.patterns name with
      | error => simp [found] at h
      | ok patterns =>
        simp only [found, Pattern.mapError_ok, Except.ok.injEq] at h
        subst h
        exact Preset.readable_of_patterns found

theorem excludePatterns_eq_ok_iff {values : List Value} {before texts : List Text} :
    excludePatterns values before = .ok texts ↔
      ∃ more, values = more.map .text ∧ texts = before ++ more := by
  fun_induction excludePatterns values before with
  | case1 before => simp [eq_comm]
  | case2 t rest before ih =>
    rw [ih]
    constructor
    · rintro ⟨more, rfl, rfl⟩
      exact ⟨t :: more, by simp⟩
    · rintro ⟨more, given, rfl⟩
      cases more with
      | nil => cases given
      | cons u more =>
        simp only [List.map_cons, List.cons.injEq, Value.text.injEq] at given
        obtain ⟨rfl, rfl⟩ := given
        exact ⟨more, by simp⟩
  | case3 after before f read =>
    simp only [reduceCtorEq, false_iff, not_exists]
    rintro (_ | _) <;> simp
  | case4 after before names read =>
    simp only [reduceCtorEq, false_iff, not_exists]
    rintro (_ | _) <;> simp

theorem excludePatterns_eq_escape_iff {values : List Value} {before : List Text} {e : Escape} :
    excludePatterns values before = .error (.escape e) ↔
      e = .blankExclude ∧ ∃ more after, values = more.map .text ++ .blank :: after ∧
        ∀ p ∈ before ++ more, Filter.Readable p := by
  fun_induction excludePatterns values before with
  | case1 before => simp
  | case2 t rest before ih =>
    rw [ih]
    refine and_congr_right fun _ => ?_
    constructor
    · rintro ⟨more, after, rfl, readable⟩
      exact ⟨t :: more, after, by simp, by simpa using readable⟩
    · rintro ⟨more, after, given, readable⟩
      cases more with
      | nil => cases given
      | cons u more =>
        simp only [List.map_cons, List.cons_append, List.cons.injEq, Value.text.injEq] at given
        obtain ⟨rfl, rfl⟩ := given
        exact ⟨more, after, rfl, by simpa using readable⟩
  | case3 after before f read =>
    simp only [Except.error.injEq, reduceCtorEq, false_iff, not_and]
    rintro - ⟨more, rest, given, readable⟩
    have := Filter.Names.ofPatterns_eq_ok_iff.mpr
      fun p hp => readable p (List.mem_append_left more hp)
    simp [read] at this
  | case4 after before names read =>
    have readable := Filter.Names.ofPatterns_eq_ok_iff.mp ⟨names, read⟩
    simp only [Except.error.injEq, Trouble.escape.injEq]
    exact ⟨fun same => ⟨same.symm, [], after, by simp, by simpa using readable⟩,
      fun h => h.1.symm⟩

theorem makeAll_ignoreFile_eq_load_iff {root : Path} {asked : Bool} {e : Ignore.LoadError} :
    Filter.Plan.makeAll fs cwd (if asked then [.ignoreFile root] else []) = .error (.load e) ↔
      asked = true ∧ Ignore.load fs cwd root = .error e := by
  cases asked with
  | false => simp [Filter.Plan.makeAll]
  | true =>
    cases loaded : Ignore.load fs cwd root <;>
      simp [Filter.Plan.makeAll, Filter.Plan.make, loaded, bind, Except.bind, pure, Except.pure]

/-- The plan of a command fails on its ignore file when its names are read. -/
theorem makeAll_names_eq_load_iff {names : List Text} {plans : List Filter.Plan}
    {e : Ignore.LoadError} :
    Filter.Plan.makeAll fs cwd ((if names = [] then [] else [.names names]) ++ plans) =
        .error (.load e) ↔
      (∀ p ∈ names, Filter.Readable p) ∧ Filter.Plan.makeAll fs cwd plans = .error (.load e) := by
  rw [← Filter.Names.ofPatterns_eq_ok_iff]
  by_cases none : names = []
  · subst none
    simp [Filter.Names.ofPatterns, pure, Except.pure, Functor.map, Except.map]
  · cases read : Filter.Names.ofPatterns names <;>
      cases made : Filter.Plan.makeAll fs cwd plans <;>
      simp [none, Filter.Plan.makeAll, Filter.Plan.make, read, made, bind, Except.bind, pure,
        Except.pure]

theorem make_union_eq_load_iff {plans : List Filter.Plan} {e : Ignore.LoadError} :
    (∃ plan, (if plans.isEmpty then none else some (Filter.Plan.union plans)) = some plan ∧
        plan.make fs cwd = .error (.load e)) ↔
      Filter.Plan.makeAll fs cwd plans = .error (.load e) := by
  cases plans with
  | nil => simp [Filter.Plan.makeAll]
  | cons plan rest =>
    cases made : Filter.Plan.makeAll fs cwd (plan :: rest) <;>
      simp [Filter.Plan.make, made, bind, Except.bind, pure, Except.pure]

theorem prunePlan_eq_escape_iff {root : Path} {e : Escape} :
    prunePlan s root = .error (.escape e) ↔
      s.PresetKnown ∧ excludePatterns s.exclude [] = .error (.escape e) := by
  rw [← presetPatterns_eq_ok_iff]
  unfold prunePlan
  cases preset : presetPatterns s.preset with
  | error t =>
    obtain ⟨unknown, rfl⟩ := failure_of_presetPatterns preset
    simp [bind, Except.bind]
  | ok own =>
    cases excludePatterns s.exclude [] <;> simp [bind, Except.bind, pure, Except.pure]

theorem make_prunePlan_eq_load_iff {root : Path} {e : Ignore.LoadError} :
    (∃ plan, prunePlan s root = .ok (some plan) ∧ plan.make fs cwd = .error (.load e)) ↔
      s.PresetKnown ∧ (∃ texts : List Text, s.exclude = texts.map .text ∧
        ∀ p ∈ texts, Filter.Readable p) ∧ s.ignoreFile = true ∧
        Ignore.load fs cwd root = .error e := by
  rw [← presetPatterns_eq_ok_iff]
  unfold prunePlan
  cases preset : presetPatterns s.preset with
  | error t => simp [bind, Except.bind]
  | ok own =>
    cases exclude : excludePatterns s.exclude [] with
    | error t =>
      refine iff_of_false (by simp [bind, Except.bind]) ?_
      rintro ⟨-, ⟨texts, given, -⟩, -⟩
      simp [excludePatterns_eq_ok_iff.mpr ⟨texts, given, rfl⟩] at exclude
    | ok texts =>
      have union := @make_union_eq_load_iff fs cwd
        ((if texts ++ own = [] then [] else [Filter.Plan.names (texts ++ own)])
          ++ (if s.ignoreFile then [.ignoreFile root] else [])) e
      rw [makeAll_names_eq_load_iff, makeAll_ignoreFile_eq_load_iff, List.forall_mem_append,
        and_iff_left (readable_of_presetPatterns preset)] at union
      have readable : (∃ texts : List Text, s.exclude = texts.map .text ∧
          ∀ p ∈ texts, Filter.Readable p) ↔ ∀ p ∈ texts, Filter.Readable p := by
        obtain ⟨texts, given, rfl⟩ := excludePatterns_eq_ok_iff.mp exclude
        simp [given, List.map_inj_right fun _ _ => Value.text.inj]
      rw [readable]
      simpa [bind, Except.bind, pure, Except.pure] using union

theorem start_eq_load_iff {wish : Options.Wish} {options : Options}
    (sound : Options.ofWish wish = .ok options) {root : Path} {pattern : Text}
    {plan : Option Filter.Plan} {lister : Lister} {e : Ignore.LoadError} :
    Cursor.start fs cwd ⟨root, pattern, wish, plan, lister⟩ = .error (.filter (.load e)) ↔
      ∃ made, plan = some made ∧ made.make fs cwd = .error (.load e) := by
  unfold Cursor.start
  simp only [sound]
  cases plan with
  | none =>
    cases opened : Search.start cwd root pattern options <;>
      simp [bind, Except.bind, pure, Except.pure, opened]
  | some plan =>
    cases made : plan.make fs cwd <;> cases opened : Search.start cwd root pattern options <;>
      simp [bind, Except.bind, pure, Except.pure, made, opened]

theorem ofWish_of_depthLimit {level : Level} {limit : Option Int}
    (h : depthLimit level = .ok limit) {directories others : Bool}
    (oneKind : (directories && others) = false) (hidden strict : Bool) :
    ∃ options, Options.ofWish ⟨hidden, directories, others, limit, strict⟩ = .ok options := by
  have positive : ∀ n, limit = some n → 1 ≤ n := by
    rintro n rfl
    cases level with
    | upTo m =>
      by_cases small : m < 1
      · simp [depthLimit, small] at h
      · simp only [depthLimit, small, if_false, Except.ok.injEq, Option.some.injEq] at h
        omega
    | _ => simp [depthLimit] at h
  unfold Options.ofWish
  simp only [oneKind, Bool.false_eq_true, if_false]
  cases limit with
  | none => exact ⟨_, rfl⟩
  | some n =>
    cases n with
    | ofNat depth => exact ⟨_, rfl⟩
    | negSucc depth => exact absurd (positive _ rfl) (by omega)

theorem asked_eq_error_iff {t : Trouble} : s.asked = .error t ↔ depthLimit s.level = .error t ∨
    s.level.Sound ∧ prunePlan s (Path.ofText s.directory) = .error t := by
  unfold Settings.asked
  rw [← depthLimit_eq_ok_iff]
  cases depthLimit s.level with
  | error => simp [bind, Except.bind]
  | ok limit =>
    cases planned : prunePlan s (Path.ofText s.directory) <;>
      simp [bind, Except.bind, pure, Except.pure, planned]

theorem asked_eq_ok_iff {r : Cursor.Request} : s.asked = .ok r ↔
    ∃ limit plan, depthLimit s.level = .ok limit ∧
      prunePlan s (Path.ofText s.directory) = .ok plan ∧
      r = ⟨Path.ofText s.directory, s.pattern,
        ⟨s.hidden, s.directoriesOnly, s.othersOnly, limit, s.strict⟩, plan, .plain⟩ := by
  unfold Settings.asked
  simp only [Pattern.bind_eq_ok_iff]
  constructor
  · intro h
    obtain ⟨limit, limited, plan, planned, h⟩ := h
    cases h
    exact ⟨limit, plan, limited, planned, rfl⟩
  · intro h
    obtain ⟨limit, plan, limited, planned, rfl⟩ := h
    exact ⟨limit, limited, plan, planned, rfl⟩

theorem depthLimit_ne_stop (level : Level) (stop : Stop) :
    depthLimit level ≠ .error (.stop stop) := by
  cases level with
  | upTo n => by_cases h : n < 1 <;> simp [depthLimit, h]
  | _ => simp [depthLimit]

theorem presetPatterns_ne_stop (preset : Option Text) (stop : Stop) :
    presetPatterns preset ≠ .error (.stop stop) := by
  intro h
  obtain ⟨unknown, same⟩ := failure_of_presetPatterns h
  cases same

theorem excludePatterns_ne_stop (values : List Value) (before : List Text) (stop : Stop) :
    excludePatterns values before ≠ .error (.stop stop) := by
  fun_induction excludePatterns values before <;> simp_all

theorem prunePlan_ne_stop (root : Path) (stop : Stop) : prunePlan s root ≠ .error (.stop stop) := by
  unfold prunePlan
  simp [Pattern.bind_eq_error_iff, presetPatterns_ne_stop, excludePatterns_ne_stop, pure,
    Except.pure]

end Command

namespace Host
open Command

variable {κ : Type} {h : Host κ} {cwd : List Text} {s : Settings}

theorem begin_eq_error_iff {search : Search} {raised : Raised κ} :
    h.begin cwd search = .error raised ↔
      ∃ root, search.awaited? = some root ∧ h.bars cwd root = some raised := by
  unfold begin rootEntry
  cases search.awaited? with
  | none => simp
  | some root => cases barred : h.bars cwd root <;> simp [barred, Except.map]

theorem begin_eq_ok_iff {search : Search} {u : Unit} : h.begin cwd search = .ok u ↔
    ∀ root, search.awaited? = some root → h.bars cwd root = none := by
  unfold begin rootEntry
  cases search.awaited? with
  | none => simp
  | some root => cases barred : h.bars cwd root <;> simp [barred, Except.map]

theorem request_of_barred {raised : Raised κ}
    (barred : h.bars cwd (Path.ofText s.directory) = some raised) :
    h.request cwd s = .error (.raised raised) := by
  simp [request, leadsToDirectory, barred, bind, Except.bind]

theorem request_of_admitted (unbarred : h.bars cwd (Path.ofText s.directory) = none)
    (admitted : s.Admitted h.fs cwd) : h.request cwd s = s.asked.mapError .trouble := by
  simp [request, leadsToDirectory, unbarred, admitted.reached, admitted.oneKind, bind, Except.bind]

theorem request_of_not_admitted (unbarred : h.bars cwd (Path.ofText s.directory) = none)
    (refused : ¬s.Admitted h.fs cwd) :
    ∃ f, h.request cwd s = .error (.trouble (.failure f)) := by
  have thrown {α : Type} (t : Halt κ) : (throw t : Except (Halt κ) α) = .error t := rfl
  unfold request leadsToDirectory
  cases reached : h.fs.leadsToDirectory cwd (Path.ofText s.directory) with
  | false =>
    refine ⟨.notDirectory s.directory, ?_⟩
    simp [unbarred, thrown, bind, Except.bind]
  | true =>
    cases kinds : s.directoriesOnly && s.othersOnly with
    | false => exact absurd ⟨reached, kinds⟩ refused
    | true =>
      refine ⟨.bothKinds, ?_⟩
      simp [unbarred, thrown, bind, Except.bind]

theorem request_eq_raised_iff {raised : Raised κ} : h.request cwd s = .error (.raised raised) ↔
    h.bars cwd (Path.ofText s.directory) = some raised := by
  cases barred : h.bars cwd (Path.ofText s.directory) with
  | some other => simp [request_of_barred barred]
  | none =>
    by_cases admitted : s.Admitted h.fs cwd
    · cases asked : s.asked <;> simp [request_of_admitted barred admitted, asked]
    · obtain ⟨f, refused⟩ := request_of_not_admitted barred admitted
      simp [refused]

theorem request_eq_ok_iff {r : Cursor.Request} : h.request cwd s = .ok r ↔
    h.bars cwd (Path.ofText s.directory) = none ∧ s.Admitted h.fs cwd ∧ s.asked = .ok r := by
  cases barred : h.bars cwd (Path.ofText s.directory) with
  | some other => simp [request_of_barred barred]
  | none =>
    by_cases admitted : s.Admitted h.fs cwd
    · simp [request_of_admitted barred admitted, Pattern.mapError_eq_ok_iff, admitted]
    · obtain ⟨f, refused⟩ := request_of_not_admitted barred admitted
      simp [refused, admitted]

theorem entries_eq_error_iff {t : Halt κ} : h.entries cwd s = .error t ↔
    h.request cwd s = .error t ∨ ∃ r, h.request cwd s = .ok r ∧
      ((∃ e, Cursor.start h.fs cwd r = .error e ∧ t = .trouble (openTrouble e)) ∨
      ∃ c, Cursor.start h.fs cwd r = .ok c ∧
        ((∃ raised, h.begin cwd c.search = .error raised ∧ t = .raised raised) ∨
        h.begin cwd c.search = .ok () ∧ ∃ e, (c.drain h.fs cwd).1.failure = some e ∧
          t = .trouble (.failure (.listing e)))) := by
  unfold entries gathered
  cases h.request cwd s with
  | error other => simp [bind, Except.bind]
  | ok r =>
    cases started : Cursor.start h.fs cwd r with
    | error e => simp [bind, Except.bind, started, eq_comm]
    | ok c =>
      cases begun : h.begin cwd c.search with
      | error raised => simp [bind, Except.bind, started, begun, eq_comm]
      | ok u =>
        cases failed : (c.drain h.fs cwd).1.failure <;>
          simp [bind, Except.bind, started, begun, failed, eq_comm]

theorem entries_eq_raised_iff {raised : Raised κ} : h.entries cwd s = .error (.raised raised) ↔
    h.bars cwd (Path.ofText s.directory) = some raised ∨ ∃ r c, h.request cwd s = .ok r ∧
      Cursor.start h.fs cwd r = .ok c ∧ h.begin cwd c.search = .error raised := by
  rw [entries_eq_error_iff, request_eq_raised_iff]
  refine or_congr_right ⟨?_, ?_⟩
  · rintro ⟨r, asked, ⟨e, -, other⟩ | ⟨c, started, ⟨_, begun, same⟩ | ⟨-, e, -, other⟩⟩⟩
    · cases other
    · cases same
      exact ⟨r, c, asked, started, begun⟩
    · cases other
  · rintro ⟨r, c, asked, started, begun⟩
    exact ⟨r, asked, .inr ⟨c, started, .inl ⟨raised, begun, rfl⟩⟩⟩

theorem entries_eq_escape_iff {e : Escape} : h.entries cwd s = .error (.trouble (.escape e)) ↔
    h.request cwd s = .error (.trouble (.escape e)) ∨ ∃ r le, h.request cwd s = .ok r ∧
      e = .ignoreFile le ∧ Cursor.start h.fs cwd r = .error (.filter (.load le)) := by
  have opening {t : Cursor.OpenError} : openTrouble t = .escape e ↔
      ∃ le, e = .ignoreFile le ∧ t = .filter (.load le) := by
    cases t with
    | options c => cases c <;> simp [openTrouble]
    | filter f => cases f <;> simp [openTrouble, eq_comm]
    | pattern f => simp [openTrouble]
  rw [entries_eq_error_iff]
  refine or_congr_right ⟨?_, ?_⟩
  · rintro ⟨r, asked, ⟨t, refused, same⟩ | ⟨c, -, ⟨_, -, other⟩ | ⟨-, _, -, other⟩⟩⟩
    · obtain ⟨le, rfl, rfl⟩ := opening.mp (Halt.trouble.inj same).symm
      exact ⟨r, le, asked, rfl, refused⟩
    · cases other
    · cases other
  · rintro ⟨r, le, asked, rfl, refused⟩
    exact ⟨r, asked, .inl ⟨_, refused, rfl⟩⟩

/-- The stages of a command that is admitted, in their order. -/
theorem entries_eq_escape_iff_of_admitted (unbarred : h.bars cwd (Path.ofText s.directory) = none)
    (admitted : s.Admitted h.fs cwd) {e : Escape} :
    h.entries cwd s = .error (.trouble (.escape e)) ↔ depthLimit s.level = .error (.escape e) ∨
      s.level.Sound ∧ (prunePlan s (Path.ofText s.directory) = .error (.escape e) ∨
        ∃ le, e = .ignoreFile le ∧ ∃ plan, prunePlan s (Path.ofText s.directory) = .ok (some plan) ∧
          plan.make h.fs cwd = .error (.load le)) := by
  rw [entries_eq_escape_iff, request_of_admitted unbarred admitted, ← depthLimit_eq_ok_iff]
  unfold Settings.asked
  cases limited : depthLimit s.level with
  | error t => simp [bind, Except.bind]
  | ok limit =>
    obtain ⟨options, wish⟩ :=
      ofWish_of_depthLimit limited admitted.oneKind s.hidden s.strict
    cases planned : prunePlan s (Path.ofText s.directory) with
    | error t => simp [bind, Except.bind, planned]
    | ok plan => simp [bind, Except.bind, pure, Except.pure, planned, start_eq_load_iff wish]

theorem listing_eq_error_iff {t : Halt κ} :
    h.listing cwd s = .error t ↔ h.entries cwd s = .error t := by
  unfold listing
  rw [Pattern.bind_eq_error_iff]
  simp [pure, Except.pure]

theorem request_ne_stop (stop : Stop) : h.request cwd s ≠ .error (.trouble (.stop stop)) := by
  cases barred : h.bars cwd (Path.ofText s.directory) with
  | some raised => simp [request_of_barred barred]
  | none =>
    by_cases admitted : s.Admitted h.fs cwd
    · rw [request_of_admitted barred admitted, ne_eq, Pattern.mapError_eq_error_iff]
      rintro ⟨t, refused, same⟩
      cases same
      rcases asked_eq_error_iff.mp refused with shut | ⟨-, shut⟩
      · exact depthLimit_ne_stop _ _ shut
      · exact prunePlan_ne_stop _ _ shut
    · obtain ⟨f, refused⟩ := request_of_not_admitted barred admitted
      simp [refused]

/-- Only reading the arguments stops a command. -/
theorem listing_ne_stop (stop : Stop) : h.listing cwd s ≠ .error (.trouble (.stop stop)) := by
  rw [ne_eq, listing_eq_error_iff, entries_eq_error_iff]
  rintro (asked | ⟨r, -, ⟨e, -, same⟩ | ⟨c, -, ⟨_, -, other⟩ | ⟨-, _, -, other⟩⟩⟩)
  · exact request_ne_stop stop asked
  · unfold openTrouble at same
    split at same <;> cases same
  · cases other
  · cases other

theorem search_eq_error_iff {argv : List Text} {t : Halt κ}
    (later : ∀ stop, t ≠ .trouble (.stop stop)) : h.search cwd argv = .error t ↔
      ∃ s, Settings.read argv = .ok s ∧ h.listing cwd s = .error t := by
  unfold search
  rw [Pattern.bind_eq_error_iff, Pattern.mapError_eq_error_iff]
  simp only [Pattern.mapError_eq_ok_iff]
  refine or_iff_right ?_
  rintro ⟨stop, -, same⟩
  exact later stop same.symm

theorem search_eq_stop_iff {argv : List Text} {stop : Stop} :
    h.search cwd argv = .error (.trouble (.stop stop)) ↔ Settings.read argv = .error stop := by
  unfold search
  rw [Pattern.bind_eq_error_iff, Pattern.mapError_eq_error_iff]
  simp [listing_ne_stop]

/-- What a delivery that is not cut off has done. -/
inductive Delivered (h : Host κ) (cwd : List Text) (output : Option Text) (text : Text) :
    Result → Prop where
  | printed (unnamed : output.getD [] = []) (whole : h.jams text = none) :
      Delivered h cwd output text ⟨0, text, [], h.fs⟩
  | written {c : Char} {name : Text} {after : FileSystem} (named : output = some (c :: name))
      (whole : h.breaks text = none)
      (wrote : h.fs.write cwd (Path.ofText (c :: name)) (Utf8.encode text) = .ok after) :
      Delivered h cwd output text ⟨0, [], [], after⟩
  /-- The file was not opened. -/
  | refused (message : Text) : Delivered h cwd output text (complain h.fs message)
  | brokenOff {c : Char} {name : Text} {b : Break κ} {after : FileSystem}
      (named : output = some (c :: name)) (broken : h.breaks text = some b)
      (wrote : h.fs.write cwd (Path.ofText (c :: name)) b.left = .ok after) (message : Text) :
      Delivered h cwd output text (complain after message)

/-- What keeps a delivery from coming to its end. -/
inductive Undelivered (h : Host κ) (cwd : List Text) (output : Option Text) (text : Text) :
    Crash κ → Prop where
  | printing {raised : Raised κ} {printed : Text} (unnamed : output.getD [] = [])
      (jammed : h.jams text = some (raised, printed)) :
      Undelivered h cwd output text (.unprinted raised printed)
  | opening {c : Char} {name : Text} {raised : Raised κ} (named : output = some (c :: name))
      (locked : h.locks cwd (Path.ofText (c :: name)) = some raised)
      (foreign : raised.ofSystem = false) : Undelivered h cwd output text (.unwritten raised h.fs)
  | unaskable {c : Char} {name : Text} (named : output = some (c :: name))
      (unlocked : h.locks cwd (Path.ofText (c :: name)) = none)
      (nul : (Path.ofText (c :: name)).Unaskable cwd) : Undelivered h cwd output text
        (.escape (.unreachableOutput ⟨.nulInPath, (Path.ofText (c :: name)).text⟩))
  | writing {c : Char} {name : Text} {b : Break κ} {after : FileSystem}
      (named : output = some (c :: name))
      (unlocked : h.locks cwd (Path.ofText (c :: name)) = none) (broken : h.breaks text = some b)
      (foreign : b.raised.ofSystem = false)
      (wrote : h.fs.write cwd (Path.ofText (c :: name)) b.left = .ok after) :
      Undelivered h cwd output text (.unwritten b.raised after)

section Delivery

variable {output : Option Text} {text : Text} {c : Char} {name : Text}

theorem deliver_of_unnamed (unnamed : output.getD [] = []) :
    h.deliver cwd output text = h.print text := by
  cases output with
  | none => rfl
  | some name =>
    obtain rfl : name = [] := unnamed
    rfl

theorem save_of_locked {raised : Raised κ}
    (locked : h.locks cwd (Path.ofText name) = some raised) :
    h.save cwd name text = giveUp name raised h.fs := by
  rw [save, locked]

theorem save_of_refused {e : FileError} (unlocked : h.locks cwd (Path.ofText name) = none)
    (refused : h.fs.write cwd (Path.ofText name) (h.stored text) = .error e) :
    h.save cwd name text = if e.refusal = .nulInPath then .error (.escape (.unreachableOutput e))
      else .ok (complain h.fs (unwritable name e.message)) := by
  rw [save, unlocked]
  dsimp only
  rw [refused]

theorem save_of_whole {after : FileSystem} (unlocked : h.locks cwd (Path.ofText name) = none)
    (whole : h.breaks text = none)
    (wrote : h.fs.write cwd (Path.ofText name) (Utf8.encode text) = .ok after) :
    h.save cwd name text = .ok ⟨0, [], [], after⟩ := by
  simp only [save, unlocked, stored, whole, wrote]

theorem save_of_broken {b : Break κ} {after : FileSystem}
    (unlocked : h.locks cwd (Path.ofText name) = none) (broken : h.breaks text = some b)
    (wrote : h.fs.write cwd (Path.ofText name) b.left = .ok after) :
    h.save cwd name text = giveUp name b.raised after := by
  simp only [save, unlocked, stored, broken, wrote]

/-- Every delivery is accounted for. -/
theorem deliver_cases (h : Host κ) (cwd : List Text) (output : Option Text) (text : Text) :
    (∃ r, h.deliver cwd output text = .ok r ∧ h.Delivered cwd output text r) ∨
      ∃ c, h.deliver cwd output text = .error c ∧ h.Undelivered cwd output text c := by
  match named : output with
  | none | some [] =>
    rw [deliver, print]
    cases jammed : h.jams text with
    | none => exact .inl ⟨_, rfl, .printed rfl jammed⟩
    | some _ => exact .inr ⟨_, rfl, .printing rfl jammed⟩
  | some (c :: name) =>
    rw [deliver]
    · cases locked : h.locks cwd (Path.ofText (c :: name)) with
      | some raised =>
        rw [save_of_locked locked, giveUp]
        cases foreign : raised.ofSystem with
        | true => exact .inl ⟨_, rfl, .refused _⟩
        | false => exact .inr ⟨_, rfl, .opening rfl locked foreign⟩
      | none =>
        cases wrote : h.fs.write cwd (Path.ofText (c :: name)) (h.stored text) with
        | error e =>
          rw [save_of_refused locked wrote]
          by_cases nul : e.refusal = .nulInPath
          · obtain ⟨dirty, rfl⟩ := FileSystem.write_eq_nulInPath_iff.mp ⟨wrote, nul⟩
            exact .inr ⟨_, if_pos rfl, .unaskable rfl locked dirty⟩
          · exact .inl ⟨_, if_neg nul, .refused _⟩
        | ok after =>
          cases broken : h.breaks text with
          | none =>
            rw [stored, broken] at wrote
            exact .inl ⟨_, save_of_whole locked broken wrote, .written rfl broken wrote⟩
          | some b =>
            rw [stored, broken] at wrote
            rw [save_of_broken locked broken wrote, giveUp]
            cases foreign : b.raised.ofSystem with
            | true => exact .inl ⟨_, rfl, .brokenOff rfl broken wrote _⟩
            | false => exact .inr ⟨_, rfl, .writing rfl locked broken foreign wrote⟩
    · simp

theorem delivered_of_deliver {r : Result} (done : h.deliver cwd output text = .ok r) :
    h.Delivered cwd output text r := by
  rcases h.deliver_cases cwd output text with ⟨_, same, delivered⟩ | ⟨_, same, -⟩
  · cases same.symm.trans done
    exact delivered
  · cases same.symm.trans done

/-- A delivery fails for one of these reasons. -/
theorem deliver_eq_error_iff {crash : Crash κ} :
    h.deliver cwd output text = .error crash ↔ h.Undelivered cwd output text crash := by
  constructor
  · intro failed
    rcases h.deliver_cases cwd output text with ⟨_, same, -⟩ | ⟨_, same, undelivered⟩
    · cases same.symm.trans failed
    · cases same.symm.trans failed
      exact undelivered
  · rintro (⟨unnamed, jammed⟩ | ⟨rfl, locked, foreign⟩ | ⟨rfl, unlocked, nul⟩ |
      ⟨rfl, unlocked, broken, foreign, wrote⟩)
    · rw [deliver_of_unnamed unnamed, print, jammed]
    · rw [deliver, save_of_locked locked, giveUp, foreign]
      · rfl
      · simp
    · obtain ⟨refused, -⟩ := FileSystem.write_eq_nulInPath_iff.mpr ⟨nul, rfl⟩
      rw [deliver, save_of_refused unlocked refused, if_pos rfl]
      simp
    · rw [deliver, save_of_broken unlocked broken wrote, giveUp, foreign]
      · rfl
      · simp

end Delivery

/-- What a run can come to, by what its arguments and its search come to. -/
inductive Course (h : Host κ) (cwd argv : List Text) : Except (Crash κ) Result → Prop where
  | stopped {stop : Stop} (read : Settings.read argv = .error stop) :
      Course h cwd argv (.ok (stop.result h.fs))
  | searched {s : Settings} {text : Text} (read : Settings.read argv = .ok s)
      (found : h.listing cwd s = .ok text) :
      Course h cwd argv (h.deliver cwd s.output (closed s text))
  | failed {s : Settings} {f : Failure} (read : Settings.read argv = .ok s)
      (found : h.listing cwd s = .error (.trouble (.failure f))) :
      Course h cwd argv (.ok (complain h.fs f.message))
  | escaped {s : Settings} {e : Escape} (read : Settings.read argv = .ok s)
      (found : h.listing cwd s = .error (.trouble (.escape e))) :
      Course h cwd argv (.error (.escape e))
  | barred {s : Settings} {raised : Raised κ} (read : Settings.read argv = .ok s)
      (found : h.listing cwd s = .error (.raised raised)) :
      Course h cwd argv (.error (.barred raised))

theorem course_run (h : Host κ) (cwd argv : List Text) : h.Course cwd argv (h.run cwd argv) := by
  unfold run
  cases read : Settings.read argv with
  | error stop => exact .stopped read
  | ok s =>
    cases found : h.listing cwd s with
    | ok text =>
      simp only [found]
      exact .searched read found
    | error t =>
      simp only [found]
      cases t with
      | raised raised => exact .barred read found
      | trouble t =>
        cases t with
        | stop stop => exact absurd found (listing_ne_stop stop)
        | failure f => exact .failed read found
        | escape e => exact .escaped read found

end Host
end Wildpath
