import Wildpath.Command.Settings

/-!
# Command lines without some of their options

What a command line asks for is a row of deeds, with a pattern and a directory. Every such row can be
written as a command line of its own: each deed as one word, then the marker, the pattern and the
directory. So the same command can be given without its output file, or without all that it is told to
leave out, and the settings it is read into are the same but for that.
-/

set_option autoImplicit false

namespace Wildpath.Command

def Switch.spelling : Switch → Text
  | .help => "--help".toList
  | .hidden => "--all".toList
  | .directoriesOnly => "--dirs-only".toList
  | .othersOnly => "--files-only".toList
  | .ignoreFile => "--gitignore".toList
  | .strict => "--strict".toList
  | .nul => "--null".toList

def Setting.spelling : Setting → Text
  | .level => "--level".toList
  | .exclude => "--exclude".toList
  | .preset => "--preset".toList
  | .output => "--output".toList

/-- A value as it is attached to an option. -/
def Value.attached : Value → Text
  | .text t => t
  | .blank => ['-', '-']

def Deed.word : Deed → Text
  | .switch s => s.spelling
  | .setting s value => s.spelling ++ '=' :: value.attached

/-- No word gives the marker as the text of a value. -/
def Deed.Sayable : Deed → Prop
  | .switch _ => True
  | .setting _ value => value ≠ .text ['-', '-']

theorem ofAttached_attached {value : Value} (h : value ≠ .text ['-', '-']) :
    Value.ofAttached value.attached = value := by
  cases value with
  | blank => rfl
  | text t =>
    have : t ≠ ['-', '-'] := fun same => h (by rw [same])
    exact if_neg this

theorem cut_append {front : Text} (whole : '=' ∉ front) (attached : Text) :
    cut (front ++ '=' :: attached) = (front, some attached) := by
  have passed : ∀ c ∈ front, (decide (c ≠ '=')) = true := by
    intro c member
    have : c ≠ '=' := fun same => whole (same ▸ member)
    simpa using this
  unfold cut
  rw [List.dropWhile_append_of_pos passed, List.takeWhile_append_of_pos passed]
  simp

theorem spelled?_of_equals {word : Text} (equals : '=' ∈ word) : spelled? word = none := by
  have whole : ∀ entry ∈ spellings, '=' ∉ entry.1 := by decide
  simp only [spelled?, Option.map_eq_none_iff, List.find?_eq_none, decide_eq_true_eq]
  rintro entry member rfl
  exact whole entry member equals

/-- The word of a deed is one option, which does that deed and leaves the words after it. -/
theorem read_word {deed : Deed} (sayable : deed.Sayable) :
    ∃ key attached, Word.read deed.word = .ok (.key key true attached) ∧
      ∀ rest, takeKey key true attached rest = .ok ([deed], rest) := by
  cases deed with
  | switch s =>
    refine ⟨.switch s, none, ?_, fun rest => rfl⟩
    cases s <;> rfl
  | setting s value =>
    refine ⟨.setting s, some value.attached, ?_, fun rest => ?_⟩
    · have front : s.spelling.head? = some '-' ∧ '=' ∉ s.spelling ∧ isLong s.spelling = true ∧
          spelled? s.spelling = some (.setting s) := by cases s <;> decide
      obtain ⟨dashed, whole, long, known⟩ := front
      have more : s.spelling ++ '=' :: value.attached ≠ ['-'] := by
        intro same
        have member : '=' ∈ ['-'] := same ▸ List.mem_append_right _ List.mem_cons_self
        simp at member
      have unknown : spelled? (s.spelling ++ '=' :: value.attached) = none :=
        spelled?_of_equals (List.mem_append_right _ List.mem_cons_self)
      simp [Deed.word, Word.read, List.head?_append, dashed, unknown, more, cut_append whole,
        known, long]
    · simp [takeKey, Cluster.read, Cluster.deeds, ofAttached_attached sayable]

theorem word_ne_marker (deed : Deed) : deed.word ≠ ['-', '-'] := by
  cases deed with
  | switch s => cases s <;> decide
  | setting s value =>
    intro same
    have member : '=' ∈ ['-', '-'] := same ▸ List.mem_append_right _ List.mem_cons_self
    simp at member

theorem after_append (s : Settings) (deeds more : List Deed) :
    s.after (deeds ++ more) = s.after deeds >>= (·.after more) := by
  induction deeds generalizing s with
  | nil => rfl
  | cons deed deeds ih =>
    cases deed with
    | switch switch =>
      cases h : s.withSwitch switch <;> simp [Settings.after, h, ih, bind, Except.bind]
    | setting setting value =>
      cases h : s.withValue value setting <;> simp [Settings.after, h, ih, bind, Except.bind]

/-- Said deeds are done one by one, before what follows them is read. -/
theorem readWords_deeds {deeds : List Deed} (sayable : ∀ d ∈ deeds, d.Sayable) :
    ∃ words, (∀ tail later, readWords tail = .ok later →
        readWords (deeds.map Deed.word ++ tail) = .ok (words ++ later)) ∧
      ∀ (p : Progress) rest after, p.settings.after deeds = .ok after →
        p.readAll (words ++ rest) = ({ p with settings := after }).readAll rest := by
  induction deeds with
  | nil =>
    refine ⟨[], fun tail later h => h, fun p rest after done => ?_⟩
    cases done
    rfl
  | cons deed deeds ih =>
    obtain ⟨words, reads, does⟩ := ih fun d member => sayable d (List.mem_cons_of_mem _ member)
    obtain ⟨key, attached, first, takes⟩ := read_word (sayable deed List.mem_cons_self)
    refine ⟨.key key true attached :: words, fun tail later h => ?_, fun p rest after done => ?_⟩
    · have marked := word_ne_marker deed
      rw [List.map_cons, List.cons_append, readWords]
      · simp [first, reads tail later h, bind, Except.bind, pure, Except.pure]
      · exact marked
    · rw [← List.singleton_append, after_append] at done
      cases now : p.settings.after [deed] with
      | error stop => simp [now, bind, Except.bind] at done
      | ok between =>
        have later := does { p with settings := between } rest after
          (by simpa [now, bind, Except.bind] using done)
        rw [List.cons_append, Progress.readAll]
        split
        · next e refused => simp [takes] at refused
        · next taken left took =>
          obtain ⟨rfl, rfl⟩ : [deed] = taken ∧ words ++ rest = left := by simpa [takes] using took
          simp only [now]
          exact later

/-- The deeds, the pattern and the directory on one command line. -/
def saying (deeds : List Deed) (pattern directory : Text) : List Text :=
  deeds.map Deed.word ++ [['-', '-'], pattern, directory]

/-- After the marker stand the pattern and the directory. -/
theorem readAll_plain {s : Settings} {pattern directory : Text} (proper : directory ≠ ['-', '-']) :
    Progress.readAll ⟨s, false, []⟩ [.marker, .plain pattern, .plain directory] =
      .ok ⟨{ s with pattern, directory }, true, []⟩ := by
  have taken : takePlain [.marker, .plain pattern, .plain directory] =
      some (pattern, some directory, []) := by simp [takePlain, proper]
  rw [Progress.readAll]
  split
  · next pattern' directory' left took =>
    obtain ⟨rfl, rfl, rfl⟩ : pattern = pattern' ∧ some directory = directory' ∧ [] = left := by
      simpa [taken] using took
    simp [Progress.withPlain, Progress.readAll]
  · next took => simp [taken] at took
  · simp
  · simp

theorem read_of_readWords {argv : List Text} {words : List Word} (h : readWords argv = .ok words) :
    Settings.read argv = (do
      let p ← Progress.readAll ⟨.initial, false, []⟩ words
      if !p.taken then .error (.usage .missingPattern)
      else if p.surplus ≠ [] then .error (.usage (.unrecognized p.surplus))
      else .ok p.settings) := by
  rw [Settings.read, h]
  rfl

theorem read_saying {deeds : List Deed} {pattern directory : Text} {s : Settings}
    (sayable : ∀ d ∈ deeds, d.Sayable) (proper : directory ≠ ['-', '-'])
    (done : Settings.initial.after deeds = .ok s) :
    Settings.read (saying deeds pattern directory) = .ok { s with pattern, directory } := by
  obtain ⟨words, reads, does⟩ := readWords_deeds sayable
  have all := reads [['-', '-'], pattern, directory] [.marker, .plain pattern, .plain directory] rfl
  have last := does ⟨.initial, false, []⟩ [.marker, .plain pattern, .plain directory] s done
  rw [readAll_plain proper] at last
  rw [saying, read_of_readWords all, last]
  rfl

/-- Words of a command line: no plain word is a marker before the marker, and none is anything but
plain after it. -/
def Orderly : List Word → Prop
  | [] => True
  | .marker :: rest => ∀ word ∈ rest, ∃ t, word = .plain t
  | .plain t :: rest => t ≠ ['-', '-'] ∧ Orderly rest
  | _ :: rest => Orderly rest

theorem key_of_mem_candidates {word spelling : Text} {found : Word}
    (h : (spelling, found) ∈ candidates word) :
    ∃ key long attached, found = .key key long attached := by
  unfold candidates at h
  split at h
  · obtain ⟨entry, -, same⟩ := List.mem_map.mp h
    cases same
    exact ⟨_, _, _, rfl⟩
  · obtain ⟨entry, -, same⟩ := List.mem_map.mp h
    cases same
    exact ⟨_, _, _, rfl⟩
  · cases h

/-- A plain word stands for itself, and a word that is read is never the marker. -/
theorem plain_or_else_of_read {word : Text} {found : Word} (h : Word.read word = .ok found) :
    found = .plain word ∨ found = .unknown word ∨
      ∃ key long attached, found = .key key long attached := by
  have unsettled : Word.read.unsettled word = .ok found → found = .plain word ∨
      found = .unknown word ∨ ∃ key long attached, found = .key key long attached := by
    unfold Word.read.unsettled
    intro h
    split at h
    · split at h <;> cases h <;> simp
    · next spelling _ only =>
      cases h
      have member : (spelling, found) ∈ candidates word := by simp [only]
      exact .inr (.inr (key_of_mem_candidates member))
    · cases h
  unfold Word.read at h
  split at h
  · cases h
    exact .inl rfl
  · split at h
    · cases h
      exact .inr (.inr ⟨_, _, _, rfl⟩)
    · split at h
      · cases h
        exact .inl rfl
      · split at h
        · split at h
          · cases h
            exact .inr (.inr ⟨_, _, _, rfl⟩)
          · exact unsettled h
        · exact unsettled h

theorem orderly_of_readWords {argv : List Text} {words : List Word}
    (h : readWords argv = .ok words) : Orderly words := by
  fun_induction readWords argv generalizing words with
  | case1 =>
    cases h
    trivial
  | case2 rest =>
    cases h
    simp [Orderly]
  | case3 word rest notMarker ih =>
    cases first : Word.read word with
    | error e => simp [first, bind, Except.bind] at h
    | ok found =>
      cases later : readWords rest with
      | error e => simp [first, later, bind, Except.bind] at h
      | ok words =>
        simp only [first, later, bind, Except.bind, pure, Except.pure, Except.ok.injEq] at h
        subst h
        rcases plain_or_else_of_read first with rfl | rfl | ⟨_, _, _, rfl⟩
        · exact ⟨fun same => notMarker same, ih later⟩
        · simpa only [Orderly] using ih later
        · simpa only [Orderly] using ih later

theorem ofAttached_ne (t : Text) : Value.ofAttached t ≠ .text ['-', '-'] := by
  unfold Value.ofAttached
  split
  · simp
  · next other => simpa using other

theorem sayable_of_readCluster {key : Key} {long : Bool} {attached : Text} {c : Cluster}
    (h : Cluster.read key long attached = .ok c) {setting : Setting} {value : Value}
    (own : c.setting = some (setting, some value)) : (Deed.setting setting value).Sayable := by
  fun_induction Cluster.read key long attached generalizing c with
  | case1 t long s =>
    cases h
    cases own
    exact ofAttached_ne t
  | case2 => cases h
  | case3 => cases h
  | case4 => cases h
  | case5 long s c short next =>
    cases h
    cases next <;> cases own
  | case6 long s d rest short next found more ih =>
    cases read : Cluster.read next false rest with
    | error e => simp [read, Except.map] at h
    | ok inner =>
      simp only [read, Except.map, Except.ok.injEq] at h
      subst h
      exact ih read own

theorem sayable_of_deeds {c : Cluster} {rest after : List Word} {deeds : List Deed}
    (own : ∀ setting value, c.setting = some (setting, some value) →
      (Deed.setting setting value).Sayable)
    (orderly : Orderly rest) (h : c.deeds rest = .ok (deeds, after)) :
    (∀ d ∈ deeds, d.Sayable) ∧ Orderly after := by
  have switches : ∀ d ∈ c.switches.map Deed.switch, d.Sayable := by
    intro d member
    obtain ⟨s, -, rfl⟩ := List.mem_map.mp member
    trivial
  unfold Cluster.deeds at h
  split at h
  · cases h
    exact ⟨switches, orderly⟩
  · next setting value _ given =>
    cases h
    refine ⟨fun d member => ?_, orderly⟩
    rcases List.mem_append.mp member with member | member
    · exact switches d member
    · rw [List.mem_singleton.mp member]
      exact own _ _ given
  · next setting value rest given =>
    cases h
    refine ⟨fun d member => ?_, orderly.2⟩
    rcases List.mem_append.mp member with member | member
    · exact switches d member
    · rw [List.mem_singleton.mp member]
      simpa [Deed.Sayable] using orderly.1
  · cases h

theorem sayable_of_takeKey {key : Key} {long : Bool} {attached : Option Text}
    {rest after : List Word} {deeds : List Deed} (orderly : Orderly rest)
    (h : takeKey key long attached rest = .ok (deeds, after)) :
    (∀ d ∈ deeds, d.Sayable) ∧ Orderly after := by
  unfold takeKey at h
  split at h
  · refine sayable_of_deeds (fun setting value own => ?_) orderly h
    cases key <;> cases own
  · split at h
    · cases h
    · next read =>
      exact sayable_of_deeds (fun setting value own => sayable_of_readCluster read own) orderly h

def Settings.placed (s : Settings) (pattern directory : Text) : Settings :=
  { s with pattern, directory }

theorem after_cons (s : Settings) (deed : Deed) (deeds : List Deed) :
    s.after (deed :: deeds) = s.after [deed] >>= (·.after deeds) :=
  after_append s [deed] deeds

/-- A level is read apart from everything else. -/
theorem after_level {forget : Settings → Settings}
    (apart : ∀ s level, forget { s with level } = { forget s with level }) (s : Settings)
    (value : Value) : (forget s).after [.setting .level value] =
      (s.after [.setting .level value]).map forget := by
  cases value with
  | blank => exact congrArg Except.ok (apart s .blank).symm
  | text t =>
    simp only [Settings.after, Settings.withValue]
    cases Text.integer? t with
    | none => rfl
    | some n => exact congrArg Except.ok (apart s (.upTo n)).symm

/-- A deed says nothing about the pattern and the directory. -/
theorem after_placed_one (s : Settings) (deed : Deed) (pattern directory : Text) :
    (s.placed pattern directory).after [deed] =
      (s.after [deed]).map (·.placed pattern directory) := by
  cases deed with
  | switch switch => cases switch <;> rfl
  | setting setting value =>
    cases setting with
    | level => exact @after_level (·.placed pattern directory) (fun _ _ => rfl) s value
    | _ => rfl

theorem after_placed (s : Settings) (deeds : List Deed) (pattern directory : Text) :
    (s.placed pattern directory).after deeds =
      (s.after deeds).map (·.placed pattern directory) := by
  induction deeds generalizing s with
  | nil => rfl
  | cons deed deeds ih =>
    rw [after_cons (s.placed pattern directory), after_cons s, after_placed_one]
    cases s.after [deed] with
    | error stop => rfl
    | ok t => exact ih t

/-- Deeds about what is forgotten in the end may be left out from the start. -/
theorem after_forgetting {forget : Settings → Settings} {about : Deed → Bool}
    (others : ∀ s deed, about deed = false → (forget s).after [deed] = (s.after [deed]).map forget)
    (own : ∀ s t deed, about deed = true → s.after [deed] = .ok t → forget t = forget s)
    {s t : Settings} {deeds : List Deed} (h : s.after deeds = .ok t) :
    (forget s).after (deeds.filter (!about ·)) = .ok (forget t) := by
  induction deeds generalizing s with
  | nil =>
    cases h
    rfl
  | cons deed deeds ih =>
    rw [after_cons] at h
    cases first : s.after [deed] with
    | error stop => simp [first, bind, Except.bind] at h
    | ok between =>
      have later := ih (by simpa [first, bind, Except.bind] using h)
      cases gone : about deed with
      | true =>
        rw [List.filter_cons_of_neg (by simp [gone]), ← own s between deed gone first]
        exact later
      | false =>
        rw [List.filter_cons_of_pos (by simp [gone]), after_cons, others s deed gone, first]
        exact later

/-- The settings are those of a row of deeds, with a pattern and a directory. -/
def Settings.Said (s : Settings) : Prop :=
  ∃ deeds pattern directory done, (∀ d ∈ deeds, d.Sayable) ∧ directory ≠ ['-', '-'] ∧
    Settings.initial.after deeds = .ok done ∧ s = done.placed pattern directory

theorem Settings.Said.after {s t : Settings} {more : List Deed} (said : s.Said)
    (sayable : ∀ d ∈ more, d.Sayable) (h : s.after more = .ok t) : t.Said := by
  obtain ⟨deeds, pattern, directory, done, before, proper, first, rfl⟩ := said
  rw [after_placed] at h
  cases later : done.after more with
  | error stop => simp [later, Except.map] at h
  | ok all =>
    simp only [later, Except.map, Except.ok.injEq] at h
    refine ⟨deeds ++ more, pattern, directory, all, fun d member => ?_, proper, ?_, h.symm⟩
    · exact (List.mem_append.mp member).elim (before d) (sayable d)
    · rw [after_append, first]
      exact later

theorem Settings.Said.withPlain {p : Progress} (said : p.settings.Said) {pattern : Text}
    {directory : Option Text} (proper : directory ≠ some ['-', '-']) :
    (p.withPlain pattern directory).settings.Said := by
  obtain ⟨deeds, _, before, done, sayable, properBefore, first, same⟩ := said
  refine ⟨deeds, pattern, directory.getD before, done, sayable, ?_, first, ?_⟩
  · cases directory with
    | none => exact properBefore
    | some d => simpa using proper
  · simp [Progress.withPlain, same, Settings.placed]

/-- The words left are orderly, or the pattern and the marker are past and only plain words follow. -/
def Progress.Lined (p : Progress) (words : List Word) : Prop :=
  Orderly words ∨ p.taken = true ∧ ∀ word ∈ words, ∃ t, word = .plain t

theorem lined_of_takePlain {p : Progress} {words after : List Word} {pattern : Text}
    {directory : Option Text} (orderly : Orderly words)
    (h : takePlain words = some (pattern, directory, after)) :
    directory ≠ some ['-', '-'] ∧ (p.withPlain pattern directory).Lined after := by
  have dropped (d : Text) : (if d = ['-', '-'] then none else some d) ≠ some ['-', '-'] := by
    split
    · simp
    · next other => simpa using other
  unfold takePlain at h
  split at h
  · cases h
    exact ⟨dropped _, .inr ⟨rfl, fun word member => orderly word (by simp [member])⟩⟩
  · cases h
    exact ⟨by simp, .inr ⟨rfl, fun word member => orderly word (by simp [member])⟩⟩
  · cases h
    exact ⟨dropped _, .inr ⟨rfl, fun word member => orderly.2 word (by simp [member])⟩⟩
  · cases h
    exact ⟨by simp, .inr ⟨rfl, fun word member => orderly.2 word (by simp [member])⟩⟩
  · cases h
    exact ⟨by simpa using orderly.2.1, .inr ⟨rfl, orderly.2.2⟩⟩
  · cases h
    exact ⟨by simpa using orderly.2.1, .inl orderly.2.2⟩
  · cases h
    exact ⟨by simp, .inl orderly.2⟩
  · cases h

theorem Progress.Lined.withSurplus {p : Progress} {word : Word} {rest : List Word}
    (lined : p.Lined (word :: rest)) (late : p.taken = true ∨ takePlain (word :: rest) = none)
    (text : Text) : (p.withSurplus text).Lined rest := by
  rcases lined with orderly | ⟨taken, plain⟩
  · cases word with
    | plain t => exact .inl orderly.2
    | key => exact .inl (by simpa only [Orderly] using orderly)
    | unknown => exact .inl (by simpa only [Orderly] using orderly)
    | marker =>
      rcases late with taken | nothing
      · exact .inr ⟨taken, orderly⟩
      · -- A plain word after the marker would have been taken.
        cases rest with
        | nil => exact .inl trivial
        | cons next more =>
          obtain ⟨t, rfl⟩ := orderly next List.mem_cons_self
          unfold takePlain at nothing
          split at nothing <;> simp_all
  · exact .inr ⟨taken, fun word member => plain word (List.mem_cons_of_mem _ member)⟩

theorem said_of_readAll {p q : Progress} {words : List Word} (said : p.settings.Said)
    (lined : p.Lined words) (h : p.readAll words = .ok q) : q.settings.Said := by
  fun_induction Progress.readAll p words generalizing q with
  | case1 =>
    cases h
    exact said
  | case2 => cases h
  | case3 => cases h
  | case4 p key long attached rest deeds after took shorter settings done ih =>
    have orderly : Orderly rest := by
      rcases lined with orderly | ⟨-, plain⟩
      · simpa only [Orderly] using orderly
      · obtain ⟨t, same⟩ := plain _ List.mem_cons_self
        cases same
    obtain ⟨sayable, later⟩ := sayable_of_takeKey orderly took
    exact ih (said.after sayable done) (.inl later) h
  | case5 p word rest ih => exact ih said (lined.withSurplus (.inr rfl) word) h
  | case6 p word rest _ _ pattern directory after took shorter taken ih =>
    exact ih said (lined.withSurplus (.inl taken) _) h
  | case7 p word rest _ _ pattern directory after took shorter early ih =>
    have orderly : Orderly (word :: rest) := lined.resolve_right fun late => early late.1
    obtain ⟨proper, later⟩ := lined_of_takePlain (p := p) orderly took
    exact ih (said.withPlain proper) later h
  | case8 p word rest _ _ nothing ih => exact ih said (lined.withSurplus (.inr nothing) _) h

theorem said_of_read {argv : List Text} {s : Settings} (h : Settings.read argv = .ok s) :
    s.Said := by
  have fresh : Settings.initial.Said := ⟨[], [], ['.'], .initial, by simp, by decide, rfl, rfl⟩
  cases read : readWords argv with
  | error e =>
    rw [Settings.read, read] at h
    cases h
  | ok words =>
    rw [read_of_readWords read] at h
    cases all : Progress.readAll ⟨.initial, false, []⟩ words with
    | error e => simp [all, bind, Except.bind] at h
    | ok p =>
      have said := said_of_readAll fresh (.inl (orderly_of_readWords read)) all
      simp only [all, bind, Except.bind] at h
      split at h
      · cases h
      · split at h <;> cases h
        exact said

/-- The settings of a command line, with something forgotten, are those of another command line. -/
theorem exists_read_forgetting {forget : Settings → Settings} {about : Deed → Bool}
    (others : ∀ s deed, about deed = false → (forget s).after [deed] = (s.after [deed]).map forget)
    (own : ∀ s t deed, about deed = true → s.after [deed] = .ok t → forget t = forget s)
    (initial : forget .initial = .initial)
    (placed : ∀ s pattern directory,
      forget (s.placed pattern directory) = (forget s).placed pattern directory)
    {argv : List Text} {s : Settings} (h : Settings.read argv = .ok s) :
    ∃ argv', Settings.read argv' = .ok (forget s) := by
  obtain ⟨deeds, pattern, directory, done, sayable, proper, first, rfl⟩ := said_of_read h
  have fewer := after_forgetting others own first
  rw [initial] at fewer
  refine ⟨saying (deeds.filter (!about ·)) pattern directory, ?_⟩
  rw [placed]
  exact read_saying (fun d member => sayable d (List.mem_filter.mp member).1) proper fewer

section Output

def Settings.withoutOutput (s : Settings) : Settings := { s with output := none }

def Deed.isOutput : Deed → Bool
  | .setting .output _ => true
  | _ => false

/-- Every deed but the naming of an output file says nothing about that file. -/
theorem after_withoutOutput (s : Settings) {deed : Deed} (other : deed.isOutput = false) :
    s.withoutOutput.after [deed] = (s.after [deed]).map (·.withoutOutput) := by
  cases deed with
  | switch switch => cases switch <;> rfl
  | setting setting value =>
    cases setting with
    | level => exact after_level (fun _ _ => rfl) s value
    | output => cases other
    | _ => rfl

theorem withoutOutput_of_output {s t : Settings} {deed : Deed} (output : deed.isOutput = true)
    (h : s.after [deed] = .ok t) : t.withoutOutput = s.withoutOutput := by
  cases deed with
  | switch switch => cases output
  | setting setting value =>
    cases setting with
    | output =>
      cases h
      rfl
    | _ => cases output

/-- A command line with an output file can be given without it, all else being the same. -/
theorem exists_read_withoutOutput {argv : List Text} {s : Settings}
    (h : Settings.read argv = .ok s) :
    ∃ argv', Settings.read argv' = .ok s.withoutOutput :=
  exists_read_forgetting (fun s _ => after_withoutOutput s) (fun _ _ _ => withoutOutput_of_output)
    rfl (fun _ _ _ => rfl) h

end Output

section Unpruned

/-- The settings with nothing to leave out. -/
def Settings.unpruned (s : Settings) : Settings :=
  { s with exclude := [], preset := none, ignoreFile := false }

def Deed.prunes : Deed → Bool
  | .switch .ignoreFile => true
  | .setting .exclude _ => true
  | .setting .preset _ => true
  | _ => false

theorem after_unpruned (s : Settings) {deed : Deed} (other : deed.prunes = false) :
    s.unpruned.after [deed] = (s.after [deed]).map (·.unpruned) := by
  cases deed with
  | switch switch =>
    cases switch with
    | ignoreFile => cases other
    | _ => rfl
  | setting setting value =>
    cases setting with
    | level => exact after_level (fun _ _ => rfl) s value
    | output => rfl
    | _ => cases other

theorem unpruned_of_prunes {s t : Settings} {deed : Deed} (prunes : deed.prunes = true)
    (h : s.after [deed] = .ok t) : t.unpruned = s.unpruned := by
  cases deed with
  | switch switch =>
    cases switch with
    | ignoreFile =>
      cases h
      rfl
    | _ => cases prunes
  | setting setting value =>
    cases setting with
    | level => cases prunes
    | output => cases prunes
    | _ =>
      cases h
      rfl

/-- A command line that leaves entries out can be given without that, all else being the same. -/
theorem exists_read_unpruned {argv : List Text} {s : Settings} (h : Settings.read argv = .ok s) :
    ∃ argv', Settings.read argv' = .ok s.unpruned :=
  exists_read_forgetting (fun s _ => after_unpruned s) (fun _ _ _ => unpruned_of_prunes) rfl
    (fun _ _ _ => rfl) h

end Unpruned

end Wildpath.Command
