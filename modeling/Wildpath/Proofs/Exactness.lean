import Wildpath.Proofs.Descent
import Wildpath.Proofs.Narrowing

/-!
# A search finds what matches, and nothing else

In a readable file system the entries of a search without limits and filters are those at its base
and below it, through real directories, whose names match the segments. Each is reported once.
-/

set_option autoImplicit false

namespace Wildpath

open Pattern (Matches)

/-- The world lists what is there, whatever the hint, and leaves nothing out. -/
structure World.Shows (world : World) (fs : FileSystem) (cwd : List Text) : Prop where
  roots : ∀ p, world.rootEntry p = fs.rootEntry cwd p
  lists : ∀ e hint, world.children e hint = fs.children cwd e none
  keeps : ∀ e, world.excludes e = false

section Shown
variable {fs : FileSystem} {cwd : List Text} {world : World} {options : Options}
variable (shows : world.Shows fs cwd)
include shows

theorem World.Shows.steady : world.Steady where
  unhinted directory hint := by rw [shows.lists directory hint, shows.lists directory none]
  placed directory all listed child member := by
    rw [shows.lists] at listed
    obtain ⟨loc, kept, rfl⟩ := FileSystem.children_eq_map listed
    obtain ⟨entry, -, rfl⟩ := List.mem_map.mp member
    exact ⟨rfl, rfl⟩
  distinct directory all listed := by
    rw [shows.lists] at listed
    exact FileSystem.nodup_children listed

variable (readable : fs.Readable)
include readable

/-- Names lead a search down where they lead through the directories of the file system. -/
theorem World.Shows.leads_iff (unbounded : options.maxDepth = none) {e x : Entry} {loc : Location}
    (stands : fs.Stands cwd e loc) {names : List Text} :
    world.Leads options e names x ↔ fs.Leads loc names ∧ x = fs.entryBelow loc e names := by
  constructor
  · intro leads
    induction leads generalizing loc with
    | here e => exact ⟨.here loc, (FileSystem.entryBelow_nil stands.kind).symm⟩
    | @through e child x all names may listed member _ _ ih =>
      have isDir : e.isDirectory = true := (Bool.and_eq_true_iff.mp may).1
      rw [shows.lists, readable.children stands isDir] at listed
      cases listed
      obtain ⟨⟨name, node⟩, entry, rfl⟩ := List.mem_map.mp member
      obtain ⟨leads, same⟩ := ih (stands.child isDir entry)
      have there : (fs.node? (loc ++ [name])).isSome = true := by
        rw [FileSystem.mem_entries_iff_node?.mp entry]
        rfl
      rw [← FileSystem.entryBelow_cons] at same
      exact ⟨.through (stands.kind ▸ isDir) there leads, same⟩
  · intro h
    obtain ⟨leads, same⟩ := h
    induction leads generalizing e with
    | here loc =>
      rw [same, FileSystem.entryBelow_nil stands.kind]
      exact .here e
    | @through loc name names dir there _ ih =>
      obtain ⟨node, there⟩ := Option.isSome_iff_exists.mp there
      have entry := FileSystem.mem_entries_iff_node?.mpr there
      have isDir : e.isDirectory = true := stands.kind.trans dir
      have may : Task.mayDescend options e = true := by simp [Task.mayDescend, isDir, unbounded]
      have listed := readable.children stands isDir
      rw [← shows.lists e none] at listed
      rw [FileSystem.entryBelow_cons] at same
      exact .through may listed (List.mem_map_of_mem entry) (shows.keeps _)
        (ih (stands.child isDir entry) same)

namespace Task

theorem calm_trace_readable {e : Entry} {loc : Location} (stands : fs.Stands cwd e loc)
    (names : List Text) (segments : List Pattern) :
    Sign.Calm (trace world options (.visit e names segments)) := by
  refine forall_trace (P := fun e => ∃ loc, fs.Stands cwd e loc) ?found ?listed ?failed ?child
    ⟨loc, stands⟩ names segments
  case found => exact fun _ _ => rfl
  case listed => exact fun _ _ _ _ => rfl
  case failed =>
    rintro e hint error ⟨loc, stands⟩ may refused -
    have isDir : e.isDirectory = true := (Bool.and_eq_true_iff.mp may).1
    rw [shows.lists e hint, readable.children stands isDir] at refused
    cases refused
  case child =>
    rintro e hint children c ⟨loc, stands⟩ isDir listed member -
    rw [shows.lists e hint, readable.children stands isDir] at listed
    cases listed
    obtain ⟨⟨name, node⟩, entry, rfl⟩ := List.mem_map.mp member
    exact ⟨loc ++ [name], stands.child isDir entry⟩

/-- Below an entry the search finds what the names below lead to, if they match. -/
theorem found_mem_trace_iff (unbounded : options.maxDepth = none) {e : Entry} {loc : Location}
    (stands : fs.Stands cwd e loc) (names : List Text) (segments : List Pattern) (x : Entry) :
    .found x ∈ trace world options (.visit e names segments) ↔
      ∃ below, (fs.Leads loc below ∧ x = fs.entryBelow loc e below) ∧
        Matches segments (waypoints (options.hidden || e.depth == 0) names ++
          waypoints options.hidden below) := by
  rw [found_mem_steady_iff shows.steady]
  simp only [shows.leads_iff readable unbounded stands]

end Task
end Shown

namespace Cursor

variable {fs : FileSystem} {cwd : List Text}

theorem shows_unhinted : ((Lister.plain.listing fs cwd).unhinted.world none).Shows fs cwd where
  roots p := rfl
  lists e hint := by
    change Lister.plain.children fs cwd e none = _
    simp only [Lister.children, Lister.plain, List.contains_nil, Bool.false_eq_true, if_false]
    cases fs.children cwd e none <;> rfl
  keeps e := rfl

def Request.plain (root : Path) (pattern : Text) (hidden strict : Bool) : Request :=
  ⟨root, pattern, ⟨hidden, false, false, none, strict⟩, none, .plain⟩

/-- What the search for a pattern is to find: the entries at the base and below it, through real
directories, whose names match the segments that are left. For an anchored pattern the names of the
base come first, free of the rule for hidden names. -/
def Sought (fs : FileSystem) (cwd : List Text) (root : Path) (segments : List Pattern)
    (hidden : Bool) (e : Entry) : Prop :=
  ∃ top loc names, fs.rootEntry cwd (Search.base cwd root segments) = some top ∧
    fs.resolve cwd (Search.base cwd root segments) = .ok loc ∧
    fs.Leads loc names ∧ e = fs.entryBelow loc top names ∧
    Matches (Search.remaining segments)
      (waypoints true (Search.baseNames cwd root segments) ++ waypoints hidden names)

def opened (cwd : List Text) (root : Path) (segments : List Pattern) (hidden strict : Bool) :
    Search :=
  ⟨⟨hidden, .everything, none, strict⟩, [.start (Search.base cwd root segments)
    (Search.baseNames cwd root segments) (Search.remaining segments)], []⟩

theorem start_plain (root : Path) {pattern : Text} {segments : List Pattern}
    (parsed : Pattern.parse pattern = .ok segments) (hidden strict : Bool) :
    Search.start cwd root pattern ⟨hidden, .everything, none, strict⟩ =
        .ok (opened cwd root segments hidden strict) ∧
      start fs cwd (.plain root pattern hidden strict) =
        .ok ⟨opened cwd root segments hidden strict, .plain, none⟩ := by
  have search : Search.start cwd root pattern ⟨hidden, .everything, none, strict⟩ =
      .ok (opened cwd root segments hidden strict) :=
    Search.start_eq_ok_iff.mpr ⟨segments, parsed, rfl⟩
  refine ⟨search, ?_⟩
  calc start fs cwd (.plain root pattern hidden strict)
    _ = (Search.start cwd root pattern ⟨hidden, .everything, none, strict⟩).mapError
        OpenError.pattern >>= fun search => .ok ⟨search, .plain, none⟩ := rfl
    _ = .ok ⟨opened cwd root segments hidden strict, .plain, none⟩ := by
      rw [search]
      rfl

section Shown
variable {world : World} (shows : world.Shows fs cwd)
include shows

theorem signs_opened (root : Path) (segments : List Pattern) (hidden strict : Bool) :
    ((opened cwd root segments hidden strict).outlook world).signs =
      match fs.rootEntry cwd (Search.base cwd root segments) with
      | none => []
      | some top => Task.trace world ⟨hidden, .everything, none, strict⟩
          (.visit top (Search.baseNames cwd root segments) (Search.remaining segments)) := by
  have opens := congrArg Search.Outlook.signs (Search.outlook_opened world
    ⟨hidden, .everything, none, strict⟩ (Search.base cwd root segments)
    (Search.baseNames cwd root segments) (Search.remaining segments))
  rw [shows.roots] at opens
  exact opens

variable (readable : fs.Readable)
include readable

theorem calm_opened (root : Path) (segments : List Pattern) (hidden strict : Bool) :
    Sign.Calm ((opened cwd root segments hidden strict).outlook world).signs := by
  rw [signs_opened shows]
  cases rooted : fs.rootEntry cwd (Search.base cwd root segments) with
  | none => simp [Sign.Calm]
  | some top =>
    obtain ⟨loc, -, stands, -⟩ := FileSystem.stands_rootEntry rooted
    exact Task.calm_trace_readable shows readable stands _ _

theorem found_opened_iff (root : Path) (segments : List Pattern) (hidden strict : Bool)
    (e : Entry) : Sign.found e ∈ ((opened cwd root segments hidden strict).outlook world).signs ↔
      Sought fs cwd root segments hidden e := by
  rw [signs_opened shows]
  unfold Sought
  cases rooted : fs.rootEntry cwd (Search.base cwd root segments) with
  | none => simp
  | some top =>
    obtain ⟨loc, resolved, stands, shallow⟩ := FileSystem.stands_rootEntry rooted
    have free : (hidden || top.depth == 0) = true := by simp [shallow]
    have found := @Task.found_mem_trace_iff fs cwd world ⟨hidden, .everything, none, strict⟩
      shows readable rfl top loc stands (Search.baseNames cwd root segments)
      (Search.remaining segments) e
    simp only [free] at found
    refine found.trans ?_
    constructor
    · rintro ⟨names, ⟨leads, same⟩, h⟩
      exact ⟨top, loc, names, rfl, resolved, leads, same, h⟩
    · rintro ⟨top', loc', names, rooted', resolved', leads, same, h⟩
      rw [resolved] at resolved'
      cases rooted'
      cases resolved'
      exact ⟨names, ⟨leads, same⟩, h⟩

end Shown

theorem eq_of_sought {root : Path} {segments : List Pattern} {hidden : Bool} {a b : Entry}
    (ha : Sought fs cwd root segments hidden a) (hb : Sought fs cwd root segments hidden b)
    (same : a.path = b.path) : a = b := by
  obtain ⟨top, loc, names, rooted, resolved, -, rfl, -⟩ := ha
  obtain ⟨top', loc', names', rooted', resolved', -, rfl, -⟩ := hb
  rw [rooted] at rooted'
  rw [resolved] at resolved'
  cases rooted'
  cases resolved'
  have : names = names' := by simpa [FileSystem.entryBelow] using same
  rw [this]

/-- In a readable file system draining a plain search gives what is sought, each entry once. -/
theorem drain_exact (readable : fs.Readable) (root : Path) {pattern : Text}
    {segments : List Pattern} (parsed : Pattern.parse pattern = .ok segments)
    (hidden strict : Bool) :
    ∃ c, start fs cwd (.plain root pattern hidden strict) = .ok c ∧
      (c.drain fs cwd).1.failure = none ∧
      ((c.drain fs cwd).1.entries.map (·.path)).Nodup ∧
      ∀ e, e ∈ (c.drain fs cwd).1.entries ↔ Sought fs cwd root segments hidden e := by
  obtain ⟨started, opens⟩ := @start_plain fs cwd root pattern segments parsed hidden strict
  have drained : (drain ⟨opened cwd root segments hidden strict, .plain, none⟩ fs cwd).1 =
      ((opened cwd root segments hidden strict).outlook
        ((Lister.plain.listing fs cwd).unhinted.world none)).rest := by
    have same := Search.outlook_eq_unhinted (Lister.plain.narrowing fs cwd) none started
    rw [← same]
    exact Search.drain_eq_rest (Lister.plain.world none fs cwd) _
  rw [Search.Outlook.rest_of_calm
    (calm_opened (@shows_unhinted fs cwd) readable root segments hidden strict)] at drained
  have everything : ∀ l : List Entry, l.filter Wanted.everything.admits = l :=
    fun l => List.filter_eq_self.mpr fun _ _ => rfl
  have entries : (drain ⟨opened cwd root segments hidden strict, .plain, none⟩ fs cwd).1.entries =
      Search.fresh [] (((opened cwd root segments hidden strict).outlook
        ((Lister.plain.listing fs cwd).unhinted.world none)).signs.filterMap Sign.found?) := by
    rw [drained]
    exact everything _
  have sought := found_opened_iff (@shows_unhinted fs cwd) readable root segments hidden strict
  refine ⟨_, opens, by rw [drained], ?_, fun e => ?_⟩
  · rw [entries]
    exact Search.nodup_fresh _ _
  · rw [entries, Search.mem_fresh_iff, Sign.mem_found_iff, sought]
    intro a ha b hb same
    rw [Sign.mem_found_iff, sought] at ha hb
    exact eq_of_sought ha hb same

theorem drain_exact_sample :
    ∃ c, start .sample [] (.plain ⟨.relative, []⟩ "**/x".toList false true) = .ok c ∧
      (c.drain .sample []).1.failure = none ∧
      ⟨⟨.relative, [['a'], ['b'], ['x']]⟩, ['x'], false, 3⟩ ∈ (c.drain .sample []).1.entries := by
  have parsed : Pattern.parse "**/x".toList = .ok [.globstar, .component [.text ['x']]] :=
    Pattern.parse_eq_ok_iff.mpr (by cbv)
  obtain ⟨c, opens, calm, -, exact⟩ :=
    drain_exact FileSystem.readable_sample ⟨.relative, []⟩ parsed false true
  refine ⟨c, opens, calm, (exact _).mpr ?_⟩
  have rooted : FileSystem.sample.rootEntry [] ⟨.relative, []⟩ =
      some ⟨⟨.relative, []⟩, [], true, 0⟩ := by
    rw [FileSystem.rootEntry, FileSystem.resolve_sample]
    decide
  refine ⟨_, [], [['a'], ['b'], ['x']], rooted, FileSystem.resolve_sample, ?leads, by decide, ?names⟩
  case leads =>
    refine .through (by decide) (by decide) ?_
    refine .through (by decide) (by decide) ?_
    exact .through (by decide) (by decide) (.here _)
  case names =>
    exact @Matches.globstar [⟨['a'], false⟩, ⟨['b'], false⟩] _ _ (by decide)
      (.component (by decide) .nil)

end Cursor
end Wildpath
