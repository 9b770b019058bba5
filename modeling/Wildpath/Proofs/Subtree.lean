import Wildpath.Proofs.Canonical
import Wildpath.Proofs.Exactness
import Wildpath.Proofs.Seats

/-!
# Searching from a directory further down

An anchored pattern is held against absolute paths. A search reads the names of its root in one
visit, and the names below it one by one, as it lists directories. Where the line between them is
drawn makes no difference: a search that starts further down finds what the search from above finds
there, in the same order, and only counts the levels from another root.
-/

set_option autoImplicit false

namespace Wildpath

namespace Pattern

/-- What is left of the segments after a row of names. -/
def afterAll : List Waypoint → List Pattern → List (List Pattern)
  | [], segments => [segments]
  | w :: way, segments => (after w segments).flatMap (afterAll way)

theorem afterAll_append (way way' : List Waypoint) (segments : List Pattern) :
    afterAll (way ++ way') segments = (afterAll way segments).flatMap (afterAll way') := by
  induction way generalizing segments with
  | nil => simp [afterAll]
  | cons w way ih =>
    simp only [List.cons_append, afterAll, List.flatMap_assoc]
    exact List.flatMap_congr fun left _ => ih left

end Pattern

/-- The entry as it is seen from a root that lies higher up. -/
def Entry.sunk (levels : Nat) (e : Entry) : Entry := { e with depth := e.depth + levels }

def Sign.sunk (levels : Nat) : Sign → Sign
  | .found e => .found (e.sunk levels)
  | .listed e hint => .listed (e.sunk levels) hint
  | .failed e hint error => .failed (e.sunk levels) hint error

theorem Sign.filterMap_found_sunk (levels : Nat) (signs : List Sign) :
    (signs.map (Sign.sunk levels)).filterMap Sign.found? =
      (signs.filterMap Sign.found?).map (Entry.sunk levels) := by
  rw [List.filterMap_map, List.map_filterMap]
  apply List.filterMap_congr
  intro sign _
  cases sign <;> rfl

/-- The world takes no account of how deep an entry lies. -/
structure World.Level (world : World) : Prop where
  lists : ∀ levels e hint, world.children (e.sunk levels) hint =
    (world.children e hint).map (List.map (Entry.sunk levels))
  excludes : ∀ levels e, world.excludes (Entry.sunk levels e) = world.excludes e

namespace Task

variable {world : World} {options : Options}

theorem trace_visit_afterAll (entry : Entry) (names : List Text) (segments : List Pattern) :
    trace world options (.visit entry names segments) =
      (Pattern.afterAll (waypoints (options.hidden || entry.depth == 0) names) segments).flatMap
        fun left => trace world options (.visit entry [] left) := by
  induction names generalizing segments with
  | nil => simp [waypoints, Pattern.afterAll]
  | cons name names ih =>
    rw [trace_visit_after]
    simp only [ih, waypoints, List.map_cons, Pattern.afterAll, List.flatMap_assoc]

/-- Where a key tells the items apart and only one of them gives something, that is all. -/
theorem flatMap_eq_of_key {α β γ : Type} {f : α → List β} {key : α → γ} {l : List α} {a : α}
    (told : (l.map key).Nodup) (member : a ∈ l)
    (others : ∀ b ∈ l, key b ≠ key a → f b = []) : l.flatMap f = f a := by
  induction l with
  | nil => cases member
  | cons b l ih =>
    obtain ⟨absent, told⟩ := List.nodup_cons.mp told
    obtain ⟨first, later⟩ := List.forall_mem_cons.mp others
    rcases List.mem_cons.mp member with rfl | member
    · have rest : l.flatMap f = [] := by
        apply List.flatMap_eq_nil_iff.mpr
        intro c given
        apply later c given
        intro same
        exact absent (List.mem_map.mpr ⟨c, given, same⟩)
      rw [List.flatMap_cons, rest, List.append_nil]
    · have apart : key b ≠ key a := by
        intro same
        exact absent (List.mem_map.mpr ⟨a, member, same.symm⟩)
      rw [List.flatMap_cons, first apart, List.nil_append, ih told member later]

section Steady
variable (steady : world.Steady)
include steady

/-- What a search finds below a directory at one of the children, or below that child, it finds when
it visits that child. -/
theorem filter_found_descend {e child x : Entry} {names : List Text}
    (given : child ∈ world.offered options e)
    (path : x.path = { e.path with parts := e.path.parts ++ child.name :: names })
    (segments : List Pattern) :
    ((trace world options (.descend e segments)).filterMap Sign.found?).filter
        (x.path.Reaches ·.path) =
      ((trace world options (.visit child [child.name] segments)).filterMap Sign.found?).filter
        (x.path.Reaches ·.path) := by
  have told : ((world.offered options e).map (·.name)).Nodup :=
    List.pairwise_map.mpr (World.pairwise_offered fun _ => steady.pairwise_names)
  rw [found_descend steady, List.filter_flatMap]
  apply flatMap_eq_of_key told given
  intro other given' ne
  apply List.filter_eq_nil_iff.mpr
  intro d found reaches
  obtain ⟨below, leads⟩ := leads_of_found steady found
  have reaches := of_decide_eq_true reaches
  rw [path, leads.path_eq_of_offered steady given', Path.reaches_append_iff,
    List.cons_prefix_cons] at reaches
  exact ne reaches.1.symm

/-- Of what a search finds from an entry on, that at an entry further down is what it finds from
there on, with the segments that the names between them leave. -/
theorem filter_found_below {e x : Entry} {names : List Text} (leads : world.Leads options e names x)
    (segments : List Pattern) :
    ((trace world options (.visit e [] segments)).filterMap Sign.found?).filter
        (x.path.Reaches ·.path) =
      (Pattern.afterAll (waypoints options.hidden names) segments).flatMap fun left =>
        (trace world options (.visit x [] left)).filterMap Sign.found? := by
  induction leads generalizing segments with
  | here e =>
    simp only [waypoints, List.map_nil, Pattern.afterAll, List.flatMap_singleton]
    apply List.filter_eq_self.mpr
    intro d found
    obtain ⟨below, leads⟩ := leads_of_found steady found
    have reaches : e.path.Reaches { e.path with parts := e.path.parts ++ below } :=
      ⟨rfl, List.prefix_append _ _⟩
    rw [leads.path_eq steady]
    exact decide_eq_true reaches
  | @through e child x all names may listed member kept leads ih =>
    have path := leads.path_eq_of_child steady listed member
    have above : ¬ x.path.Reaches e.path := by
      intro reaches
      have long := reaches.2.length_le
      rw [path, List.length_append, List.length_cons] at long
      omega
    have own : ((if segments.all Pattern.isGlobstar then [Sign.found e] else []).filterMap
        Sign.found?).filter (x.path.Reaches ·.path) = [] := by
      split <;> simp [Sign.found?, above]
    have given := World.mem_offered_iff.mpr ⟨all, may, listed, member, kept⟩
    have deeper : (child.depth == 0) = false := by
      rw [(steady.placed e all listed child member).2]
      rfl
    rw [trace_visit_nil, List.filterMap_append, List.filter_append, own, List.nil_append,
      filter_found_descend steady given path, trace_visit_after, deeper, Bool.or_false,
      List.filterMap_flatMap, List.filter_flatMap]
    simp only [ih, waypoints, List.map_cons, Pattern.afterAll, List.flatMap_assoc]

/-- Whether the names between two entries are read on the way down or in one visit of the lower one,
the same entries are found at the lower one and below it. -/
theorem filter_found_visit (hidden : options.hidden = true) {e x : Entry} {below : List Text}
    (leads : world.Leads options e below x) (names : List Text) (segments : List Pattern) :
    ((trace world options (.visit e names segments)).filterMap Sign.found?).filter
        (x.path.Reaches ·.path) =
      (trace world options (.visit x (names ++ below) segments)).filterMap Sign.found? := by
  rw [trace_visit_afterAll, trace_visit_afterAll, List.filterMap_flatMap, List.filter_flatMap,
    List.filterMap_flatMap]
  simp only [filter_found_below steady leads, hidden, Bool.true_or, waypoints, List.map_append,
    Pattern.afterAll_append, List.flatMap_assoc]

end Steady

/-- Without a limit and a rule for hidden names a search goes the same way from any depth. -/
theorem trace_sunk (level : world.Level) (hidden : options.hidden = true)
    (unlimited : options.maxDepth = none) (levels : Nat) (entry : Entry) (names : List Text)
    (segments : List Pattern) :
    trace world options (.visit (entry.sunk levels) names segments) =
      (trace world options (.visit entry names segments)).map (Sign.sunk levels) := by
  induction entry, names, segments using names_induction world with
  | exhausted entry segments inside =>
    have may : mayDescend options (entry.sunk levels) = mayDescend options entry := by
      simp [mayDescend, unlimited, Entry.sunk]
    rw [trace_visit_nil, trace_visit_nil, List.map_append]
    congr 1
    · split <;> rfl
    · rcases trace_descend_cases world options entry segments with ⟨rfl | shut, -⟩ |
        ⟨segment, later, error, rfl, goes, refused, -⟩ |
        ⟨segment, later, all, rfl, goes, listed, -⟩
      · simp
      · rw [trace_descend_shut (may.trans shut), trace_descend_shut shut, List.map_nil]
      · have refused' := level.lists levels entry segment.hint?
        rw [refused] at refused'
        rw [trace_descend_error (may.trans goes) refused', trace_descend_error goes refused]
        split <;> rfl
      · have isDir : entry.isDirectory = true := (Bool.and_eq_true_iff.mp goes).1
        have listed' := level.lists levels entry segment.hint?
        rw [listed] at listed'
        rw [trace_descend_ok (may.trans goes) listed', trace_descend_ok goes listed, trace_offer,
          trace_offer, List.map_cons, List.filter_map, List.flatMap_map, List.map_flatMap]
        simp only [Function.comp_def, level.excludes]
        congr 1
        apply List.flatMap_congr
        intro child member
        exact inside _ all isDir listed child (List.mem_filter.mp member).1
  | named entry name names segments shorter =>
    rw [trace_visit_after, trace_visit_after, hidden, List.map_flatMap]
    exact List.flatMap_congr fun left _ => shorter left

end Task

namespace Path

/-- The path spelled on with names. -/
def down (p : Path) (names : List Text) : Path := { p with parts := p.parts ++ names }

theorem parent_notMem_foldl_pushPart {before parts : List Text} (clean : parentName ∉ before) :
    parentName ∉ parts.foldl (pushPart true) before := by
  induction parts generalizing before with
  | nil => exact clean
  | cons part parts ih =>
    apply ih
    unfold pushPart
    split
    · split
      · simp
      · next last before =>
        have apart := List.ne_and_not_mem_of_not_mem_cons clean
        rw [if_neg apart.1.symm]
        exact apart.2
    · next other =>
      intro member
      rcases List.mem_cons.mp member with same | member
      · exact other same.symm
      · exact clean member

theorem foldl_pushPart {anchored : Bool} {parts : List Text} (clean : parentName ∉ parts)
    (before : List Text) :
    parts.foldl (pushPart anchored) before = parts.reverse ++ before := by
  induction parts generalizing before with
  | nil => rfl
  | cons part parts ih =>
    have apart := List.ne_and_not_mem_of_not_mem_cons clean
    have push : pushPart anchored before part = part :: before := if_neg apart.1.symm
    rw [List.foldl_cons, push, ih apart.2, List.reverse_cons, List.append_assoc,
      List.singleton_append]

theorem isAnchored_anchored (cwd : List Text) (p : Path) : (p.anchored cwd).isAnchored = true := by
  unfold anchored
  split
  · assumption
  · rfl

theorem isAnchored_absolute (cwd : List Text) (p : Path) : (p.absolute cwd).isAnchored = true :=
  isAnchored_anchored cwd p

theorem parent_notMem_absolute (cwd : List Text) (p : Path) :
    parentName ∉ (p.absolute cwd).parts := by
  simp only [absolute, normal, isAnchored_anchored, List.mem_reverse]
  exact parent_notMem_foldl_pushPart (by simp)

theorem absolute_of_clean {p : Path} (cwd : List Text) (anchored : p.isAnchored = true)
    (clean : parentName ∉ p.parts) : p.absolute cwd = p := by
  have whole : p.anchored cwd = p := if_pos anchored
  rw [absolute, whole, normal, foldl_pushPart clean, List.append_nil, List.reverse_reverse]

theorem absolute_down (cwd : List Text) (root : Path) {names : List Text}
    (proper : ∀ name ∈ names, isName name = true) :
    ((root.absolute cwd).down names).absolute cwd = (root.absolute cwd).down names := by
  apply absolute_of_clean
  · exact isAnchored_absolute cwd root
  · intro member
    rcases List.mem_append.mp member with member | member
    · exact parent_notMem_absolute cwd root member
    · exact absurd (proper _ member) (by decide)

end Path

namespace FileSystem

variable {fs : FileSystem} {cwd : List Text}

theorem Leads.isName {loc : Location} {names : List Text} (h : fs.Leads loc names) :
    ∀ name ∈ names, isName name = true := by
  induction h with
  | here => simp
  | @through loc name names _ there _ ih =>
    obtain ⟨node, there⟩ := Option.isSome_iff_exists.mp there
    exact List.forall_mem_cons.mpr ⟨isName_of_mem_entries (mem_entries_iff_node?.mpr there), ih⟩

theorem Leads.stands {e : Entry} {loc : Location} {names : List Text} (h : fs.Leads loc names)
    (stands : fs.Stands cwd e loc) : fs.Stands cwd (fs.entryBelow loc e names) (loc ++ names) := by
  induction h generalizing e with
  | here loc => rwa [entryBelow_nil stands.kind, List.append_nil]
  | @through loc name names dir there _ ih =>
    obtain ⟨node, there⟩ := Option.isSome_iff_exists.mp there
    have member := mem_entries_iff_node?.mpr there
    have child := ih (stands.child (stands.kind.trans dir) member)
    rwa [← entryBelow_cons, List.append_assoc] at child

/-- A search that starts at a directory further down starts at the entry that stands there. -/
theorem rootEntry_down {p : Path} {top : Entry} {loc : Location} {names : List Text}
    (rooted : fs.rootEntry cwd p = some top) (resolved : fs.resolve cwd p = .ok loc)
    (leads : fs.Leads loc names) (directory : fs.isDirectory (loc ++ names) = true) :
    ∃ bottom, fs.rootEntry cwd (p.down names) = some bottom ∧
      fs.entryBelow loc top names = bottom.sunk names.length := by
  obtain ⟨loc', resolved', stands, -⟩ := stands_rootEntry rooted
  rw [resolved] at resolved'
  cases resolved'
  have below := (leads.stands stands).resolved directory
  obtain ⟨path, named, shallow⟩ := rootEntry_eq rooted
  simp only [entryBelow, path] at below
  have rooted' : fs.rootEntry cwd (p.down names) =
      some ⟨p.down names, (p.down names).name, fs.isDirectory (loc ++ names), 0⟩ := by
    simp only [rootEntry, Path.down, below]
  refine ⟨_, rooted', ?_⟩
  simp [entryBelow, Entry.sunk, path, named, shallow, Path.name, Path.down, List.getLast?_append]

theorem children_sunk (levels : Nat) (e : Entry) (hint : Option Text) :
    fs.children cwd (e.sunk levels) hint =
      (fs.children cwd e hint).map (List.map (Entry.sunk levels)) := by
  have deeper : ∀ name node, childEntry (e.sunk levels) name node =
      (childEntry e name node).sunk levels := by
    intro name node
    simp only [childEntry, Entry.sunk, Nat.add_right_comm]
  have path : (e.sunk levels).path = e.path := rfl
  simp only [children, path, deeper]
  split
  · rfl
  · split
    · rfl
    · split
      · rfl
      · split
        · rfl
        · simp [Except.map, Function.comp_def]

end FileSystem

namespace Search

variable {fs : FileSystem} {cwd : List Text}

theorem level_unhinted : ((Lister.plain.listing fs cwd).unhinted.world none).Level where
  lists levels e hint := by
    rw [Cursor.shows_unhinted.lists, Cursor.shows_unhinted.lists, FileSystem.children_sunk]
  excludes _ _ := rfl

theorem drain_readable (readable : fs.Readable) {root : Path} {pattern : Text}
    {segments : List Pattern} (parsed : Pattern.parse pattern = .ok segments) {options : Options}
    {s : Search} (opens : start cwd root pattern options = .ok s) {top : Entry}
    (rooted : fs.rootEntry cwd (base cwd root segments) = some top) :
    (s.drain (Lister.plain.world none fs cwd)).1.failure = none ∧
      (s.drain (Lister.plain.world none fs cwd)).1.entries =
        (fresh [] ((Task.trace ((Lister.plain.listing fs cwd).unhinted.world none) options
          (.visit top (baseNames cwd root segments) (remaining segments))).filterMap
            Sign.found?)).filter options.wanted.admits := by
  have drained := @drain_eq_unhinted fs cwd .plain none root pattern options s opens
  obtain ⟨segments', parsed', rfl⟩ := start_eq_ok_iff.mp opens
  rw [parsed] at parsed'
  cases parsed'
  obtain ⟨loc, -, stands, -⟩ := FileSystem.stands_rootEntry rooted
  have calm := @Task.calm_trace_readable fs cwd _ options Cursor.shows_unhinted readable top loc
    stands (baseNames cwd root segments) (remaining segments)
  rw [outlook_opened, Cursor.shows_unhinted.roots, rooted, Outlook.rest_of_calm calm] at drained
  rw [drained]
  exact ⟨rfl, rfl⟩

theorem filter_admits_sunk (wanted : Wanted) (levels : Nat) (l : List Entry) :
    (l.map (Entry.sunk levels)).filter wanted.admits =
      (l.filter wanted.admits).map (Entry.sunk levels) := by
  have same : wanted.admits ∘ Entry.sunk levels = wanted.admits := by
    funext e
    cases wanted <;> rfl
  rw [List.filter_map, same]

/-- What a search for an anchored pattern finds at a directory and below it is what the search from
that directory finds. -/
theorem filter_found_down (readable : fs.Readable) {root : Path} {loc : Location}
    {names : List Text} (resolved : fs.resolve cwd (root.absolute cwd) = .ok loc)
    (leads : fs.Leads loc names) (directory : fs.isDirectory (loc ++ names) = true)
    {segments : List Pattern} (anchored : Pattern.isAnchored segments = true) (options : Options)
    (hidden : options.hidden = true) (unlimited : options.maxDepth = none) :
    ∃ top bottom, fs.rootEntry cwd (base cwd root segments) = some top ∧
      fs.rootEntry cwd (base cwd ((root.absolute cwd).down names) segments) = some bottom ∧
      ((Task.trace ((Lister.plain.listing fs cwd).unhinted.world none) options
          (.visit top (baseNames cwd root segments) (remaining segments))).filterMap
            Sign.found?).filter (((root.absolute cwd).down names).Reaches ·.path) =
        ((Task.trace ((Lister.plain.listing fs cwd).unhinted.world none) options
          (.visit bottom (baseNames cwd ((root.absolute cwd).down names) segments)
            (remaining segments))).filterMap Sign.found?).map (Entry.sunk names.length) := by
  have still := Path.absolute_down cwd root leads.isName
  have rootBase : base cwd root segments = root.absolute cwd := if_pos anchored
  have downBase : base cwd ((root.absolute cwd).down names) segments =
      (root.absolute cwd).down names := (if_pos anchored).trans still
  have downNames : baseNames cwd ((root.absolute cwd).down names) segments =
      baseNames cwd root segments ++ names := by
    rw [baseNames, if_pos anchored, baseNames, if_pos anchored, Path.splitAbsolute, still]
    rfl
  obtain ⟨top, rooted⟩ : ∃ top, fs.rootEntry cwd (root.absolute cwd) = some top := by
    simp [FileSystem.rootEntry, resolved]
  obtain ⟨bottom, rooted', sunk⟩ := FileSystem.rootEntry_down rooted resolved leads directory
  obtain ⟨loc', resolved', stands, -⟩ := FileSystem.stands_rootEntry rooted
  rw [resolved] at resolved'
  cases resolved'
  have path : (fs.entryBelow loc top names).path = (root.absolute cwd).down names := by
    rw [FileSystem.entryBelow, (FileSystem.rootEntry_eq rooted).1]
    rfl
  have below := (Cursor.shows_unhinted.leads_iff readable unlimited stands).mpr ⟨leads, rfl⟩
  have found := Task.filter_found_visit Cursor.shows_unhinted.steady hidden below
    (baseNames cwd root segments) (remaining segments)
  rw [path, sunk, Task.trace_sunk level_unhinted hidden unlimited, Sign.filterMap_found_sunk,
    ← downNames] at found
  exact ⟨top, bottom, by rwa [rootBase], by rwa [downBase], found⟩

/-- Where hidden names are not left out and nothing is limited, a search for an anchored pattern
from a directory further down gives what the search from above gives there, in the same order. An
entry is only counted as deep as it lies below the root of its own search. -/
theorem drain_down (readable : fs.Readable) {root : Path} {loc : Location} {names : List Text}
    (resolved : fs.resolve cwd (root.absolute cwd) = .ok loc) (leads : fs.Leads loc names)
    (directory : fs.isDirectory (loc ++ names) = true) {pattern : Text} {segments : List Pattern}
    (parsed : Pattern.parse pattern = .ok segments)
    (anchored : Pattern.isAnchored segments = true) (options : Options)
    (hidden : options.hidden = true) (unlimited : options.maxDepth = none) :
    ∃ whole part, start cwd root pattern options = .ok whole ∧
      start cwd ((root.absolute cwd).down names) pattern options = .ok part ∧
      (whole.drain (Lister.plain.world none fs cwd)).1.failure = none ∧
      (part.drain (Lister.plain.world none fs cwd)).1.failure = none ∧
      (part.drain (Lister.plain.world none fs cwd)).1.entries.map (Entry.sunk names.length) =
        (whole.drain (Lister.plain.world none fs cwd)).1.entries.filter
          (((root.absolute cwd).down names).Reaches ·.path) := by
  obtain ⟨whole, opens⟩ : ∃ whole, start cwd root pattern options = .ok whole :=
    ⟨_, start_eq_ok_iff.mpr ⟨_, parsed, rfl⟩⟩
  obtain ⟨part, opens'⟩ :
      ∃ part, start cwd ((root.absolute cwd).down names) pattern options = .ok part :=
    ⟨_, start_eq_ok_iff.mpr ⟨_, parsed, rfl⟩⟩
  obtain ⟨top, bottom, rooted, rooted', found⟩ :=
    filter_found_down readable resolved leads directory anchored options hidden unlimited
  obtain ⟨calm, entries⟩ := drain_readable readable parsed opens rooted
  obtain ⟨calm', entries'⟩ := drain_readable readable parsed opens' rooted'
  refine ⟨whole, part, opens, opens', calm, calm', ?_⟩
  have told : ∀ all : List Entry, ∀ a ∈ all, ∀ b ∈ all, a.path = b.path →
      decide (((root.absolute cwd).down names).Reaches a.path) =
        decide (((root.absolute cwd).down names).Reaches b.path) := by
    intro all a _ b _ same
    rw [same]
  rw [entries, entries', List.filter_comm, filter_fresh (told _), found,
    fresh_map (Entry.sunk names.length) fun _ => rfl, filter_admits_sunk]

theorem drain_down_sample :
    ∃ whole part, start [] ⟨.relative, []⟩ "/**/b/**".toList .standard = .ok whole ∧
      start [] ⟨.top, [['a'], ['b']]⟩ "/**/b/**".toList .standard = .ok part ∧
      (part.drain (Lister.plain.world none .sample [])).1.entries.map (Entry.sunk 2) =
        (whole.drain (Lister.plain.world none .sample [])).1.entries.filter
          (Path.Reaches ⟨.top, [['a'], ['b']]⟩ ·.path) := by
  have parsed : Pattern.parse "/**/b/**".toList = .ok [.anchor [], .globstar,
      .component [.text ['b']], .globstar] :=
    Pattern.parse_eq_ok_iff.mpr (by cbv)
  have resolved : FileSystem.sample.resolve [] (Path.absolute [] ⟨.relative, []⟩) = .ok [] :=
    FileSystem.resolve_sample
  have leads : FileSystem.sample.Leads [] [['a'], ['b']] :=
    .through (by decide) (by decide) (.through (by decide) (by decide) (.here _))
  obtain ⟨whole, part, opens, opens', -, -, given⟩ := drain_down FileSystem.readable_sample
    resolved leads (by decide) parsed rfl .standard rfl rfl
  exact ⟨whole, part, opens, opens', given⟩

end Search
end Wildpath
