import Wildpath.Proofs.Success

/-!
# How a command ends

What goes wrong is told to the user, with a few exceptions: the two blanks that an attached marker
leaves, an ignore file that is no text or has an invalid line, an output path with the character NUL,
and what the host raises when it is asked for the directory or for the root of the search, or when it
writes and does not call the error one of the system. Those are the whole list, and each arises exactly
when the steps before it went well.
-/

set_option autoImplicit false

namespace Wildpath

namespace Host
open Command

variable {κ : Type} {h : Host κ} {cwd argv : List Text} {s : Settings}

/-- What keeps a search from its end without a word to the user, and when it comes to that. -/
inductive Unforeseen (h : Host κ) (cwd : List Text) (s : Settings) : Crash κ → Prop where
  | directory {raised : Raised κ} (barred : h.bars cwd (Path.ofText s.directory) = some raised) :
      Unforeseen h cwd s (.barred raised)
  | level (unbarred : h.bars cwd (Path.ofText s.directory) = none) (admitted : s.Admitted h.fs cwd)
      (blank : s.level = .blank) : Unforeseen h cwd s (.escape .blankLevel)
  | exclude {before : List Text} {after : List Value}
      (unbarred : h.bars cwd (Path.ofText s.directory) = none) (admitted : s.Admitted h.fs cwd)
      (sound : s.level.Sound) (known : s.PresetKnown)
      (given : s.exclude = before.map .text ++ .blank :: after)
      (readable : ∀ p ∈ before, Filter.Readable p) : Unforeseen h cwd s (.escape .blankExclude)
  | ignoreFile {texts : List Text} {e : Ignore.LoadError}
      (unbarred : h.bars cwd (Path.ofText s.directory) = none) (admitted : s.Admitted h.fs cwd)
      (sound : s.level.Sound) (known : s.PresetKnown) (given : s.exclude = texts.map .text)
      (readable : ∀ p ∈ texts, Filter.Readable p) (asked : s.ignoreFile = true)
      (broken : Ignore.Broken h.fs cwd (Path.ofText s.directory) e) :
      Unforeseen h cwd s (.escape (.ignoreFile e))
  | root {options : Options} {filter : Option Filter} {search : Search} {root : Path}
      {raised : Raised κ} (unbarred : h.bars cwd (Path.ofText s.directory) = none)
      (opens : s.Opens h.fs cwd options filter search) (awaited : search.awaited? = some root)
      (barred : h.bars cwd root = some raised) : Unforeseen h cwd s (.barred raised)

theorem listing_eq_raised_iff {raised : Raised κ} :
    h.listing cwd s = .error (.raised raised) ↔ h.Unforeseen cwd s (.barred raised) := by
  rw [listing_eq_error_iff, entries_eq_raised_iff]
  constructor
  · rintro (barred | ⟨r, c, asked, started, begun⟩)
    · exact .directory barred
    · obtain ⟨unbarred, options, filter, search, opens, rfl⟩ :=
        exists_start_iff.mp ⟨r, asked, started⟩
      obtain ⟨root, awaited, barred⟩ := begin_eq_error_iff.mp begun
      exact .root unbarred opens awaited barred
  · rintro (barred | _ | _ | _ | ⟨unbarred, opens, awaited, barred⟩)
    · exact .inl barred
    · obtain ⟨r, asked, started⟩ := exists_start_iff.mpr ⟨unbarred, _, _, _, opens, rfl⟩
      exact .inr ⟨r, _, asked, started, begin_eq_error_iff.mpr ⟨_, awaited, barred⟩⟩

theorem listing_eq_escape_iff {e : Escape} :
    h.listing cwd s = .error (.trouble (.escape e)) ↔ h.Unforeseen cwd s (.escape e) := by
  rw [listing_eq_error_iff]
  cases unbarred : h.bars cwd (Path.ofText s.directory) with
  | some raised =>
    refine iff_of_false (by simp [entries_eq_escape_iff, request_of_barred unbarred]) ?_
    rintro (_ | ⟨clear, -⟩ | ⟨clear, -⟩ | ⟨clear, -⟩) <;> simp [unbarred] at clear
  | none =>
    by_cases admitted : s.Admitted h.fs cwd
    · rw [entries_eq_escape_iff_of_admitted unbarred admitted, depthLimit_eq_escape_iff,
        prunePlan_eq_escape_iff, excludePatterns_eq_escape_iff]
      simp only [make_prunePlan_eq_load_iff, Ignore.load_eq_error_iff admitted.reached,
        List.nil_append]
      constructor
      · rintro (⟨blank, rfl⟩ | ⟨sound, ⟨known, rfl, before, after, given, readable⟩ |
          ⟨le, rfl, known, ⟨texts, given, readable⟩, asked, broken⟩⟩)
        · exact .level unbarred admitted blank
        · exact .exclude unbarred admitted sound known given readable
        · exact .ignoreFile unbarred admitted sound known given readable asked broken
      · rintro (_ | ⟨-, -, blank⟩ | ⟨-, -, sound, known, given, readable⟩ |
          ⟨-, -, sound, known, given, readable, asked, broken⟩)
        · exact .inl ⟨blank, rfl⟩
        · exact .inr ⟨sound, .inl ⟨known, rfl, _, _, given, readable⟩⟩
        · exact .inr ⟨sound, .inr ⟨_, rfl, known, ⟨_, given, readable⟩, asked, broken⟩⟩
    · obtain ⟨f, refused⟩ := request_of_not_admitted unbarred admitted
      refine iff_of_false (by simp [entries_eq_escape_iff, refused]) ?_
      rintro (_ | ⟨-, there, -⟩ | ⟨-, there, -⟩ | ⟨-, there, -⟩) <;> exact admitted there

theorem unforeseen_iff {crash : Crash κ} : h.Unforeseen cwd s crash ↔
    (∃ e, crash = .escape e ∧ h.listing cwd s = .error (.trouble (.escape e))) ∨
      ∃ raised, crash = .barred raised ∧ h.listing cwd s = .error (.raised raised) := by
  simp only [listing_eq_escape_iff, listing_eq_raised_iff]
  constructor
  · intro unforeseen
    cases crash with
    | escape e => exact .inl ⟨e, rfl, unforeseen⟩
    | barred raised => exact .inr ⟨raised, rfl, unforeseen⟩
    | unprinted => cases unforeseen
    | unwritten => cases unforeseen
  · rintro (⟨e, rfl, unforeseen⟩ | ⟨raised, rfl, unforeseen⟩) <;> exact unforeseen

/-- The ways in which a command may end: in silence, with a message to its user, or as reading the
arguments has it. -/
inductive Foreseen (h : Host κ) (cwd argv : List Text) : Result → Prop where
  | done {s : Settings} {text : Text} {r : Result} (read : Settings.read argv = .ok s)
      (found : h.listing cwd s = .ok text) (code : r.code = 0) (silent : r.stderr = []) :
      Foreseen h cwd argv r
  | told {s : Settings} {r : Result} (read : Settings.read argv = .ok s) (message : Text)
      (code : r.code = 1) (stderr : r.stderr = "tglob: ".toList ++ message ++ ['\n']) :
      Foreseen h cwd argv r
  | stopped {stop : Stop} (read : Settings.read argv = .error stop) :
      Foreseen h cwd argv (stop.result h.fs)

/-- A command ends as foreseen, except for what `Unforeseen` lists of its search and `Undelivered` of
its output, and it does so exactly then. Only reading the arguments ends it through the usage. -/
theorem run_foreseen (h : Host κ) (cwd argv : List Text) :
    (∀ stop, h.search cwd argv = .error (.trouble (.stop stop)) ↔
      Settings.read argv = .error stop) ∧
    (∀ e, h.search cwd argv = .error (.trouble (.escape e)) ↔
      ∃ s, Settings.read argv = .ok s ∧ h.Unforeseen cwd s (.escape e)) ∧
    (∀ raised, h.search cwd argv = .error (.raised raised) ↔
      ∃ s, Settings.read argv = .ok s ∧ h.Unforeseen cwd s (.barred raised)) ∧
    (∀ c, h.run cwd argv = .error c ↔ ∃ s, Settings.read argv = .ok s ∧
      (h.Unforeseen cwd s c ∨ ∃ text, h.listing cwd s = .ok text ∧
        h.Undelivered cwd s.output (closed s text) c)) ∧
    ∀ r, h.run cwd argv = .ok r → h.Foreseen cwd argv r := by
  refine ⟨fun _ => search_eq_stop_iff, fun e => ?_, fun raised => ?_, fun c => ?_, fun r ended => ?_⟩
  · simp only [← listing_eq_escape_iff]
    exact search_eq_error_iff fun stop => by simp
  · simp only [← listing_eq_raised_iff]
    exact search_eq_error_iff fun stop => by simp
  · simp only [unforeseen_iff, ← deliver_eq_error_iff]
    have course := h.course_run cwd argv
    generalize h.run cwd argv = ran at course
    cases course with
    | stopped read => simp [read]
    | searched read found => simp [read, found]
    | failed read found => simp [read, found]
    | escaped read found => simp [read, found, eq_comm]
    | barred read found => simp [read, found, eq_comm]
  · have course := h.course_run cwd argv
    rw [ended] at course
    generalize same : Except.ok r = ran at course
    cases course with
    | stopped read =>
      cases same
      exact .stopped read
    | searched read found =>
      cases delivered_of_deliver same.symm with
      | printed => exact .done read found rfl rfl
      | written => exact .done read found rfl rfl
      | refused message => exact .told read message rfl rfl
      | brokenOff _ _ _ message => exact .told read message rfl rfl
    | failed read found =>
      cases same
      exact .told read _ rfl rfl
    | escaped => cases same
    | barred => cases same

/-- A directory that the system does not let be asked for, such as one below a directory that may not be
searched or one whose name is too long, ends the command without a word. -/
theorem run_posix_of_refused {fs : FileSystem} {refuses : List Text → Path → Option SystemError}
    {byteOf : Char → Option UInt8} {e : SystemError} (read : Settings.read argv = .ok s)
    (refused : refuses cwd (Path.ofText s.directory) = some e) :
    (posix fs refuses byteOf).run cwd argv =
      .error (.barred (e.raised (Path.ofText s.directory))) := by
  have barred : (posix fs refuses byteOf).bars cwd (Path.ofText s.directory) =
      some (e.raised (Path.ofText s.directory)) := by
    simp only [posix, refused, Option.map_some]
  rw [run, read]
  simp only [listing_eq_raised_iff.mpr (.directory barred)]

end Host

/-- An ignore file that is no text ends the command without a word. -/
theorem Command.run_undecodable :
    run (FileSystem.empty.put [Ignore.fileName] ⟨.file [0xff], false, false⟩) []
      ["*".toList, "--gitignore".toList] =
      .error (.ignoreFile (.undecodable ⟨0, 1, 0xff, .invalidStart⟩)) := by
  cbv

end Wildpath
