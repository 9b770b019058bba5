import Wildpath.Proofs.Arguments
import Wildpath.Proofs.NameFilter
import Wildpath.Proofs.Pruning
import Wildpath.Proofs.Success

/-!
# What a command leaves out

A command may be told to leave entries out by patterns, by a preset and by the ignore file of its
directory, in any combination. However many of them there are, and whatever filter is made of them, it
finds what it finds without them, less every entry that one of them leaves out, alone or together with
a directory above it.
-/

set_option autoImplicit false

namespace Wildpath

/-- A search knows of a filter only what it leaves out. -/
theorem Lister.world_congr {l : Lister} {fs : FileSystem} {cwd : List Text} {f g : Option Filter}
    (same : ∀ e, f.any (· cwd e) = g.any (· cwd e)) : l.world f fs cwd = l.world g fs cwd := by
  have answers : l.answers f fs cwd = l.answers g fs cwd := by
    simp only [Lister.answers, same]
  simp only [Lister.world, answers]

namespace Filter

variable {fs : FileSystem} {cwd : List Text} {plans : List Plan}

theorem exists_makeAll_iff : (∃ filters, Plan.makeAll fs cwd plans = .ok filters) ↔
    ∀ plan ∈ plans, ∃ filter, plan.make fs cwd = .ok filter := by
  induction plans with
  | nil => simp [Plan.makeAll]
  | cons plan plans ih =>
    rw [List.forall_mem_cons, ← ih, Plan.makeAll]
    cases plan.make fs cwd <;> cases Plan.makeAll fs cwd plans <;>
      simp [bind, Except.bind, pure, Except.pure]

/-- The filters of several plans leave out what one of them does. -/
theorem any_makeAll_iff {filters : List Filter} (h : Plan.makeAll fs cwd plans = .ok filters)
    (e : Entry) : (filters.any fun f => f cwd e) = true ↔
      ∃ plan ∈ plans, ∃ f, plan.make fs cwd = .ok (some f) ∧ f cwd e = true := by
  induction plans generalizing filters with
  | nil =>
    cases h
    simp
  | cons plan plans ih =>
    rw [Plan.makeAll] at h
    obtain ⟨filter, own, h⟩ := Pattern.bind_eq_ok_iff.mp h
    obtain ⟨others, later, h⟩ := Pattern.bind_eq_ok_iff.mp h
    cases h
    rw [List.any_append, Bool.or_eq_true, ih later, List.exists_mem_cons_iff, own]
    cases filter <;> simp

end Filter

namespace Command

variable {fs : FileSystem} {cwd : List Text} {s : Settings}

/-- What leaves an entry out on its own account: a pattern that was given, one of the preset or a
generic one beside it, or the ignore file of the directory. -/
inductive Pruned (fs : FileSystem) (cwd : List Text) (s : Settings) (e : Entry) : Prop where
  | pattern {p : Text} {pieces : List Pattern} (given : .text p ∈ s.exclude)
      (parsed : Pattern.parse p = .ok [.component pieces])
      (accepts : Pattern.acceptsName true pieces e.name = true) : Pruned fs cwd s e
  | preset {name p : Text} {own : List Text} {pieces : List Pattern} (given : s.preset = some name)
      (named : name ≠ []) (known : Preset.ownPatterns? name = some own ∨
        Preset.ownPatterns? "generic".toList = some own) (member : p ∈ own)
      (parsed : Pattern.parse p = .ok [.component pieces])
      (accepts : Pattern.acceptsName true pieces e.name = true) : Pruned fs cwd s e
  | ignoreFile {rules : List Ignore.Rule} (asked : s.ignoreFile = true)
      (loaded : Ignore.load fs cwd (Path.ofText s.directory) = .ok (some rules))
      (ignored : Filter.byRules (Path.ofText s.directory) rules cwd e = true) : Pruned fs cwd s e

/-- The plans that the settings come to. -/
def Settings.plans (s : Settings) (names : List Text) : List Filter.Plan :=
  (if names = [] then [] else [Filter.Plan.names names])
    ++ (if s.ignoreFile then [.ignoreFile (Path.ofText s.directory)] else [])

theorem mem_plans_iff {names : List Text} {plan : Filter.Plan} : plan ∈ s.plans names ↔
    names ≠ [] ∧ plan = .names names ∨
      s.ignoreFile = true ∧ plan = .ignoreFile (Path.ofText s.directory) := by
  unfold Settings.plans
  by_cases none : names = [] <;> cases s.ignoreFile <;> simp [none]

theorem prunePlan_eq_ok_iff {plan : Option Filter.Plan} :
    prunePlan s (Path.ofText s.directory) = .ok plan ↔ ∃ texts own,
      s.exclude = texts.map .text ∧ presetPatterns s.preset = .ok own ∧
        plan = if (s.plans (texts ++ own)).isEmpty then none
          else some (.union (s.plans (texts ++ own))) := by
  unfold prunePlan
  simp only [Pattern.bind_eq_ok_iff, excludePatterns_eq_ok_iff, List.nil_append]
  constructor
  · intro h
    obtain ⟨own, preset, texts, ⟨_, given, rfl⟩, h⟩ := h
    cases h
    exact ⟨texts, own, given, preset, rfl⟩
  · intro h
    obtain ⟨texts, own, given, preset, rfl⟩ := h
    exact ⟨own, preset, texts, ⟨texts, given, rfl⟩, rfl⟩

/-- Of a row of plans that is not empty the union is made. -/
theorem made_iff {plans : List Filter.Plan} {filter : Option Filter} :
    Filter.Made fs cwd (if plans.isEmpty then none else some (.union plans)) filter ↔
      plans = [] ∧ filter = none ∨ plans ≠ [] ∧ ∃ filters,
        Filter.Plan.makeAll fs cwd plans = .ok filters ∧ filter = some (.union filters) := by
  cases plans with
  | nil => simp [Filter.Made]
  | cons plan plans =>
    simp only [List.isEmpty_cons, Bool.false_eq_true, if_false, Filter.Made, Filter.Plan.make,
      Pattern.bind_eq_ok_iff]
    simp [pure, Except.pure, eq_comm]

theorem any_made_iff {plans : List Filter.Plan} {filter : Option Filter}
    (made : Filter.Made fs cwd (if plans.isEmpty then none else some (.union plans)) filter)
    (e : Entry) : (filter.any fun f => f cwd e) = true ↔
      ∃ plan ∈ plans, ∃ f, plan.make fs cwd = .ok (some f) ∧ f cwd e = true := by
  rcases made_iff.mp made with ⟨rfl, rfl⟩ | ⟨-, filters, all, rfl⟩
  · simp
  · exact Filter.any_makeAll_iff all e

theorem exists_made_iff {plans : List Filter.Plan} :
    (∃ filter, Filter.Made fs cwd (if plans.isEmpty then none else some (.union plans)) filter) ↔
      ∀ plan ∈ plans, ∃ filter, plan.make fs cwd = .ok filter := by
  rw [← Filter.exists_makeAll_iff]
  simp only [made_iff]
  by_cases none : plans = []
  · simp [none, Filter.Plan.makeAll]
  · simp [none]

theorem make_names_iff {names : List Text} {f : Filter} :
    (Filter.Plan.names names).make fs cwd = .ok (some f) ↔
      ∃ lots, Filter.Names.ofPatterns names = .ok lots ∧ f = Filter.byName lots := by
  cases read : Filter.Names.ofPatterns names <;> simp [Filter.Plan.make, read, eq_comm]

theorem exists_make_names_iff {names : List Text} :
    (∃ filter, (Filter.Plan.names names).make fs cwd = .ok filter) ↔
      ∃ lots, Filter.Names.ofPatterns names = .ok lots := by
  cases read : Filter.Names.ofPatterns names <;> simp [Filter.Plan.make, read]

theorem make_ignoreFile_iff {root : Path} {f : Filter} :
    (Filter.Plan.ignoreFile root).make fs cwd = .ok (some f) ↔
      ∃ rules, Ignore.load fs cwd root = .ok (some rules) ∧ f = Filter.byRules root rules := by
  cases loaded : Ignore.load fs cwd root <;> simp [Filter.Plan.make, loaded, eq_comm]

theorem exists_make_ignoreFile_iff {root : Path} :
    (∃ filter, (Filter.Plan.ignoreFile root).make fs cwd = .ok filter) ↔
      ∃ rules, Ignore.load fs cwd root = .ok rules := by
  cases loaded : Ignore.load fs cwd root <;> simp [Filter.Plan.make, loaded]

theorem mem_patterns_iff {name : Text} {all : List Text} (h : Preset.patterns name = .ok all)
    {p : Text} : p ∈ all ↔ ∃ own, (Preset.ownPatterns? name = some own ∨
      Preset.ownPatterns? "generic".toList = some own) ∧ p ∈ own := by
  unfold Preset.patterns at h
  split at h
  · cases h
  · next own known =>
    split at h
    · next generic =>
      cases h
      simp [← generic, known]
    · cases h
      simp only [known, Option.some.injEq, List.mem_append]
      cases Preset.ownPatterns? "generic".toList with
      | none => simp
      | some more => simp [or_and_right, exists_or, or_comm]

theorem mem_presetPatterns_iff {own : List Text} (h : presetPatterns s.preset = .ok own) {p : Text} :
    p ∈ own ↔ ∃ name, s.preset = some name ∧ name ≠ [] ∧ ∃ patterns,
      (Preset.ownPatterns? name = some patterns ∨
        Preset.ownPatterns? "generic".toList = some patterns) ∧ p ∈ patterns := by
  unfold presetPatterns at h
  split at h
  · next none =>
    cases h
    simp [none]
  · next name given =>
    split at h
    · next blank =>
      cases h
      simp [given, blank]
    · next named =>
      have read := mem_patterns_iff (Pattern.mapError_eq_ok_iff.mp h) (p := p)
      simp [read, given, named]

/-- A filter that was made of the settings leaves out what one of its sources does. -/
theorem any_prunes_iff {filter : Option Filter} (prunes : s.Prunes fs cwd filter) (e : Entry) :
    (filter.any fun f => f cwd e) = true ↔ Pruned fs cwd s e := by
  obtain ⟨_, planned, made⟩ := prunes
  obtain ⟨texts, own, given, preset, rfl⟩ := prunePlan_eq_ok_iff.mp planned
  rw [any_made_iff made]
  constructor
  · intro h
    obtain ⟨plan, member, f, makes, excludes⟩ := h
    rcases mem_plans_iff.mp member with ⟨-, rfl⟩ | ⟨asked, rfl⟩
    · obtain ⟨lots, read, rfl⟩ := make_names_iff.mp makes
      obtain ⟨p, there, pieces, parsed, accepts⟩ :=
        (Filter.excludes_ofPatterns_iff read).mp excludes
      rcases List.mem_append.mp there with there | there
      · have given : .text p ∈ s.exclude := given ▸ List.mem_map_of_mem there
        exact .pattern given parsed accepts
      · obtain ⟨name, given, named, own, known, member⟩ := (mem_presetPatterns_iff preset).mp there
        exact .preset given named known member parsed accepts
    · obtain ⟨rules, loaded, rfl⟩ := make_ignoreFile_iff.mp makes
      exact .ignoreFile asked loaded excludes
  · -- all that was asked for could be made
    have all := exists_made_iff.mp ⟨filter, made⟩
    have named {p : Text} {pieces : List Pattern} (there : p ∈ texts ++ own)
        (parsed : Pattern.parse p = .ok [.component pieces])
        (accepts : Pattern.acceptsName true pieces e.name = true) :
        ∃ plan ∈ s.plans (texts ++ own), ∃ f, plan.make fs cwd = .ok (some f) ∧ f cwd e = true := by
      have member : .names (texts ++ own) ∈ s.plans (texts ++ own) :=
        mem_plans_iff.mpr (.inl ⟨List.ne_nil_of_mem there, rfl⟩)
      obtain ⟨lots, read⟩ := exists_make_names_iff.mp (all _ member)
      have excludes : Filter.byName lots cwd e = true :=
        (Filter.excludes_ofPatterns_iff read).mpr ⟨p, there, pieces, parsed, accepts⟩
      exact ⟨_, member, _, make_names_iff.mpr ⟨lots, read, rfl⟩, excludes⟩
    intro h
    cases h with
    | pattern given' parsed accepts =>
      rw [given] at given'
      obtain ⟨p, there, same⟩ := List.mem_map.mp given'
      cases same
      exact named (List.mem_append_left _ there) parsed accepts
    | preset given named' known member parsed accepts =>
      have there := (mem_presetPatterns_iff preset).mpr ⟨_, given, named', _, known, member⟩
      exact named (List.mem_append_right _ there) parsed accepts
    | ignoreFile asked loaded ignored =>
      exact ⟨_, mem_plans_iff.mpr (.inr ⟨asked, rfl⟩), _,
        make_ignoreFile_iff.mpr ⟨_, loaded, rfl⟩, ignored⟩

theorem forall_plans_iff {names : List Text} :
    (∀ plan ∈ s.plans names, ∃ filter, plan.make fs cwd = .ok filter) ↔
      (∀ p ∈ names, Filter.Readable p) ∧
        (s.ignoreFile = true → ∃ rules, Ignore.load fs cwd (Path.ofText s.directory) = .ok rules) := by
  rw [← Filter.Names.ofPatterns_eq_ok_iff, ← @exists_make_names_iff fs cwd,
    ← exists_make_ignoreFile_iff]
  constructor
  · intro all
    constructor
    · by_cases none : names = []
      · exact exists_make_names_iff.mpr ⟨⟨[], []⟩, by rw [none]; rfl⟩
      · exact all _ (mem_plans_iff.mpr (.inl ⟨none, rfl⟩))
    · exact fun asked => all _ (mem_plans_iff.mpr (.inr ⟨asked, rfl⟩))
  · intro h plan member
    obtain ⟨named, ignored⟩ := h
    rcases mem_plans_iff.mp member with ⟨-, rfl⟩ | ⟨asked, rfl⟩
    · exact named
    · exact ignored asked

theorem map_text_iff {values : List Value} :
    (∃ texts : List Text, values = texts.map .text ∧ ∀ p ∈ texts, Filter.Readable p) ↔
      ∀ value ∈ values, ∃ p, value = .text p ∧ Filter.Readable p := by
  constructor
  · intro h value member
    obtain ⟨texts, rfl, readable⟩ := h
    obtain ⟨p, there, rfl⟩ := List.mem_map.mp member
    exact ⟨p, rfl, readable p there⟩
  · intro all
    induction values with
    | nil => exact ⟨[], rfl, by simp⟩
    | cons value values ih =>
      obtain ⟨⟨p, rfl, own⟩, others⟩ := List.forall_mem_cons.mp all
      obtain ⟨texts, rfl, readable⟩ := ih others
      exact ⟨p :: texts, rfl, List.forall_mem_cons.mpr ⟨own, readable⟩⟩

/-- There is a filter if every source of it can be read, however often each is given. -/
theorem exists_prunes_iff : (∃ filter, s.Prunes fs cwd filter) ↔
    (∀ value ∈ s.exclude, ∃ p, value = .text p ∧ Filter.Readable p) ∧ s.PresetKnown ∧
      (s.ignoreFile = true → ∃ rules, Ignore.load fs cwd (Path.ofText s.directory) = .ok rules) := by
  rw [← map_text_iff, ← presetPatterns_eq_ok_iff]
  unfold Settings.Prunes
  constructor
  · intro h
    obtain ⟨filter, _, planned, made⟩ := h
    obtain ⟨texts, own, given, preset, rfl⟩ := prunePlan_eq_ok_iff.mp planned
    obtain ⟨readable, loaded⟩ := forall_plans_iff.mp (exists_made_iff.mp ⟨filter, made⟩)
    exact ⟨⟨texts, given, (List.forall_mem_append.mp readable).1⟩, ⟨own, preset⟩, loaded⟩
  · intro h
    obtain ⟨⟨texts, given, readable⟩, ⟨own, preset⟩, loaded⟩ := h
    have all := List.forall_mem_append.mpr ⟨readable, readable_of_presetPatterns preset⟩
    obtain ⟨filter, made⟩ := exists_made_iff.mpr (forall_plans_iff.mpr ⟨all, loaded⟩)
    exact ⟨filter, _, prunePlan_eq_ok_iff.mpr ⟨texts, own, given, preset, rfl⟩, made⟩

theorem Settings.Opens.unpruned {options : Options} {filter : Option Filter} {search : Search}
    (opens : s.Opens fs cwd options filter search) : s.unpruned.Opens fs cwd options none search where
  admitted := ⟨opens.admitted.reached, opens.admitted.oneKind⟩
  asks := opens.asks
  prunes := ⟨none, rfl, rfl⟩
  starts := opens.starts

theorem Settings.Opens.pruned {options : Options} {filter : Option Filter} {search : Search}
    (opens : s.unpruned.Opens fs cwd options none search) (prunes : s.Prunes fs cwd filter) :
    s.Opens fs cwd options filter search where
  admitted := ⟨opens.admitted.reached, opens.admitted.oneKind⟩
  asks := opens.asks
  prunes := prunes
  starts := opens.starts

theorem Settings.Asks.strict_eq {options : Options} (asks : s.Asks options) :
    options.strict = s.strict := by
  obtain ⟨limit, -, sound⟩ := asks
  unfold Options.ofWish at sound
  dsimp only at sound
  split at sound
  · cases sound
  · cases limit with
    | none =>
      cases sound
      rfl
    | some n =>
      cases n with
      | ofNat depth =>
        cases sound
        rfl
      | negSucc depth => cases sound

section Run

variable {options : Options} {filter : Option Filter} {search : Search}

/-- A lenient run finds what it finds without a filter, less what the filter takes away. -/
theorem Settings.Opens.drain_pruned (opens : s.Opens fs cwd options filter search)
    (lenient : s.strict = false) :
    (search.drain (Lister.plain.world filter fs cwd)).1.failure = none ∧
      (search.drain (Lister.plain.world filter fs cwd)).1.entries =
        (search.drain (Lister.plain.world none fs cwd)).1.entries.filter fun e =>
          e.line.all fun x => !filter.any fun f => f cwd x := by
  obtain ⟨segments, parsed, -⟩ := Search.start_eq_ok_iff.mp opens.starts
  have calm := opens.asks.strict_eq.trans lenient
  have one := (Search.drain_filtered Lister.plain fs parsed opens.starts (.inl calm)).1
    fun cwd e => filter.any fun f => f cwd e
  have same : Lister.plain.world filter fs cwd =
      Lister.plain.world (some fun cwd e => filter.any fun f => f cwd e) fs cwd :=
    Lister.world_congr fun _ => rfl
  rw [same, one]
  exact ⟨rfl, rfl⟩

end Run

/-- Settings that differ in their sources only, but leave out the same, find the same. -/
theorem entries_of_alike {found : List Entry} (done : entries fs cwd s = .ok found) {s' : Settings}
    (same : s'.unpruned = s.unpruned) (prunes : ∃ filter, s'.Prunes fs cwd filter)
    (alike : ∀ e, Pruned fs cwd s' e ↔ Pruned fs cwd s e) : entries fs cwd s' = .ok found := by
  obtain ⟨options, filter, search, opens, ended, rfl⟩ := entries_eq_ok_iff.mp done
  obtain ⟨filter', prunes'⟩ := prunes
  have world : Lister.plain.world filter' fs cwd = Lister.plain.world filter fs cwd := by
    apply Lister.world_congr
    intro e
    rw [Bool.eq_iff_iff, any_prunes_iff prunes', any_prunes_iff opens.prunes, alike]
  have opens' : s'.Opens fs cwd options filter' search :=
    .pruned (same ▸ opens.unpruned) prunes'
  exact entries_eq_ok_iff.mpr ⟨options, filter', search, opens', by rw [world, ended], by rw [world]⟩

/-- The second settings are the first ones with more to leave out. -/
structure Settings.Adds (s s' : Settings) : Prop where
  same : s'.unpruned = s.unpruned
  exclude : ∀ value ∈ s.exclude, value ∈ s'.exclude
  preset : ∀ name, s.preset = some name → name ≠ [] → s'.preset = some name
  ignoreFile : s.ignoreFile = true → s'.ignoreFile = true

theorem directory_eq_of_unpruned {s' : Settings} (same : s'.unpruned = s.unpruned) :
    s'.directory = s.directory := by
  have directory := congrArg Settings.directory same
  exact directory

theorem Settings.Adds.pruned {s' : Settings} (adds : s.Adds s') {e : Entry}
    (h : Pruned fs cwd s e) : Pruned fs cwd s' e := by
  have directory := directory_eq_of_unpruned adds.same
  cases h with
  | pattern given parsed accepts => exact .pattern (adds.exclude _ given) parsed accepts
  | preset given named known member parsed accepts =>
    exact .preset (adds.preset _ given named) named known member parsed accepts
  | ignoreFile asked loaded ignored =>
    rw [← directory] at loaded ignored
    exact .ignoreFile (adds.ignoreFile asked) loaded ignored

/-- Where every source of the one is a source of the other, and can be read there, it can be read. -/
theorem Settings.Adds.exists_prunes {s' : Settings} (adds : s'.Adds s)
    (h : ∃ filter, s.Prunes fs cwd filter) : ∃ filter, s'.Prunes fs cwd filter := by
  obtain ⟨readable, known, loaded⟩ := exists_prunes_iff.mp h
  refine exists_prunes_iff.mpr ⟨fun value member => readable value (adds.exclude value member),
    fun name given => ?_, fun asked => ?_⟩
  · by_cases blank : name = []
    · exact .inl blank
    · exact known name (adds.preset name given blank)
  · rw [← directory_eq_of_unpruned adds.same]
    exact loaded (adds.ignoreFile asked)

/-- What is found, as it is written: each path before the last one is closed. -/
def Settings.written (s : Settings) (found : List Entry) : Text :=
  Text.joined [s.separator] (found.map (·.path.text))

theorem entries_of_search {argv : List Text} {text : Text} (read : Settings.read argv = .ok s)
    (done : search fs cwd argv = .ok text) :
    ∃ found, entries fs cwd s = .ok found ∧ text = s.written found := by
  obtain ⟨s', read', listed⟩ := search_eq_ok_iff.mp done
  cases read.symm.trans read'
  exact listing_eq_ok_iff.mp listed

theorem search_of_entries {argv : List Text} {found : List Entry}
    (read : Settings.read argv = .ok s) (done : entries fs cwd s = .ok found) :
    search fs cwd argv = .ok (s.written found) :=
  search_eq_ok_iff.mpr ⟨s, read, listing_eq_ok_iff.mpr ⟨found, done, rfl⟩⟩

theorem written_eq_of_unpruned {s' : Settings} (same : s'.unpruned = s.unpruned)
    (found : List Entry) : s'.written found = s.written found := by
  have nul : s'.nul = s.nul := by
    have nul := congrArg Settings.nul same
    exact nul
  rw [Settings.written, Settings.written, Settings.separator, Settings.separator, nul]

theorem prunes_of_entries {found : List Entry} (done : entries fs cwd s = .ok found) :
    ∃ filter, s.Prunes fs cwd filter := by
  obtain ⟨options, filter, search, opens, -⟩ := entries_eq_ok_iff.mp done
  exact ⟨filter, opens.prunes⟩

theorem entries_pruned {found : List Entry} (lenient : s.strict = false)
    (done : entries fs cwd s = .ok found) : ∃ all keep, entries fs cwd s.unpruned = .ok all ∧
      (∀ e : Entry, keep e = true ↔ ∀ x ∈ e.line, ¬ Pruned fs cwd s x) ∧ found = all.filter keep := by
  obtain ⟨options, filter, search, opens, -, rfl⟩ := entries_eq_ok_iff.mp done
  obtain ⟨ended, -⟩ := opens.unpruned.drain_pruned lenient
  refine ⟨_, fun e => e.line.all fun x => !filter.any fun f => f cwd x,
    entries_eq_ok_iff.mpr ⟨options, none, search, opens.unpruned, ended, rfl⟩, fun e => ?_,
    (opens.drain_pruned lenient).2⟩
  simp only [List.all_eq_true, Bool.not_eq_true', Bool.eq_false_iff, ne_eq,
    any_prunes_iff opens.prunes]

/-- A lenient command finds, in their order, the entries that the same command finds when it leaves
nothing out, but for those that are left out by one of the sources it was given, on their own account
or with a directory above them, up to the one below the root of the search. There is such a command.
The patterns may be given in any order and repeatedly, and whatever is given in addition adds no entry. -/
theorem search_pruned {argv : List Text} {text : Text} (read : Settings.read argv = .ok s)
    (done : search fs cwd argv = .ok text) :
    (s.strict = false → ∃ all found keep, entries fs cwd s = .ok found ∧ text = s.written found ∧
      entries fs cwd s.unpruned = .ok all ∧
      (∀ e : Entry, keep e = true ↔ ∀ x ∈ e.line, ¬ Pruned fs cwd s x) ∧ found = all.filter keep ∧
      (∃ argv', Settings.read argv' = .ok s.unpruned) ∧
      ∀ argv', Settings.read argv' = .ok s.unpruned →
        search fs cwd argv' = .ok (s.written all)) ∧
    (∀ argv' s', Settings.read argv' = .ok s' → s'.unpruned = s.unpruned → s'.preset = s.preset →
      s'.ignoreFile = s.ignoreFile → (∀ value, value ∈ s'.exclude ↔ value ∈ s.exclude) →
      search fs cwd argv' = .ok text) ∧
    (s.strict = false → ∀ argv' s' text', Settings.read argv' = .ok s' → s.Adds s' →
      search fs cwd argv' = .ok text' → ∃ found found', text = s.written found ∧
        entries fs cwd s = .ok found ∧ text' = s'.written found' ∧
        entries fs cwd s' = .ok found' ∧ found'.Sublist found) := by
  obtain ⟨found, done', rfl⟩ := entries_of_search read done
  refine ⟨?less, ?order, ?more⟩
  case less =>
    intro lenient
    obtain ⟨all, keep, whole, kept, same⟩ := entries_pruned lenient done'
    exact ⟨all, found, keep, done', rfl, whole, kept, same, exists_read_unpruned read,
      fun argv' read' => search_of_entries (s := s.unpruned) read' whole⟩
  case order =>
    intro argv' s' read' same preset ignoreFile exclude
    have there : s.Adds s' := ⟨same, fun value => (exclude value).mpr,
      fun _ given _ => preset.trans given, fun asked => ignoreFile.trans asked⟩
    have back : s'.Adds s := ⟨same.symm, fun value => (exclude value).mp,
      fun _ given _ => preset.symm.trans given, fun asked => ignoreFile.symm.trans asked⟩
    have found' := entries_of_alike done' same (back.exists_prunes (prunes_of_entries done'))
      fun e => ⟨back.pruned, there.pruned⟩
    rw [search_of_entries read' found', written_eq_of_unpruned same]
  case more =>
    intro lenient argv' s' text' read' adds done''
    obtain ⟨found', listed', rfl⟩ := entries_of_search read' done''
    obtain ⟨all, keep, whole, kept, same⟩ := entries_pruned lenient done'
    have lenient' : s'.strict = false := by
      have strict := congrArg Settings.strict adds.same
      exact strict.trans lenient
    obtain ⟨all', keep', whole', kept', same'⟩ := entries_pruned lenient' listed'
    rw [adds.same, whole] at whole'
    cases whole'
    refine ⟨found, found', rfl, done', rfl, listed', ?_⟩
    rw [same, same']
    apply List.monotone_filter_right
    intro e spared
    exact (kept e).mpr fun x above pruned => (kept' e).mp spared x above (adds.pruned pruned)

theorem search_pruned_sample :
    ∃ text, search .sample []
        ["**".toList, "-Ib".toList, "-I.?".toList, "--preset=rust".toList, "--gitignore".toList] =
          .ok text ∧
      search .sample [] ["-I.?".toList, "-I.?".toList, "**".toList, "--preset=rust".toList,
        "-Ib".toList, "--gitignore".toList] = .ok text ∧
      ∃ whole, search .sample [] ["**".toList] = .ok whole := by
  have read : Settings.read
      ["**".toList, "-Ib".toList, "-I.?".toList, "--preset=rust".toList, "--gitignore".toList] =
        .ok { Settings.initial with
          pattern := "**".toList, exclude := [.text "b".toList, .text ".?".toList],
          preset := some "rust".toList, ignoreFile := true } := by cbv
  generalize given : ({ Settings.initial with
    pattern := "**".toList, exclude := [.text "b".toList, .text ".?".toList],
    preset := some "rust".toList, ignoreFile := true } : Settings) = s at read
  have prunes : ∃ filter, s.Prunes .sample [] filter := by
    apply exists_prunes_iff.mpr
    rw [← given]
    refine ⟨?_, ?_, fun _ => ⟨none, by cbv⟩⟩
    · simp only [List.forall_mem_cons]
      exact ⟨⟨_, rfl, _, by cbv⟩, ⟨_, rfl, _, by cbv⟩, by simp⟩
    · intro name same
      obtain rfl : "rust".toList = name := Option.some.inj same
      exact .inr ⟨[".git", ".hg", ".svn", ".DS_Store", "target"].map String.toList, by rfl⟩
  obtain ⟨filter, prunes⟩ := prunes
  have parsed : Pattern.parse "**".toList = .ok [.globstar] :=
    Pattern.parse_eq_ok_iff.mpr (by cbv)
  have opens : s.Opens .sample [] ⟨false, .everything, none, false⟩ filter _ :=
    ⟨⟨by rw [← given]; cbv, by rw [← given]; rfl⟩, ⟨none, by rw [← given]; rfl, by rw [← given]; rfl⟩,
      prunes, Search.start_eq_ok_iff.mpr ⟨_, by rw [← given]; exact parsed, rfl⟩⟩
  have lenient : s.strict = false := by rw [← given]; rfl
  have done := search_of_entries read (entries_eq_ok_iff.mpr
    ⟨_, _, _, opens, (opens.drain_pruned lenient).1, rfl⟩)
  obtain ⟨less, order, -⟩ := search_pruned read done
  obtain ⟨all, -, -, -, -, -, -, -, -, whole⟩ := less lenient
  exact ⟨_, done, order _ { s with exclude := [.text ".?".toList, .text ".?".toList, .text "b".toList] }
      (by rw [← given]; cbv) rfl rfl rfl (by rw [← given]; simp; tauto),
    _, whole _ (by rw [← given]; cbv)⟩

end Command
end Wildpath
