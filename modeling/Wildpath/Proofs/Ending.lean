import Mathlib.Data.List.MinMax
import Mathlib.Order.Nat
import Wildpath.Proofs.Steps
import Wildpath.Proofs.Subtree

/-!
# Every search comes to its end

A search asks for directories by their paths, and links may lead a path anywhere, back up too. Only
the root is followed through links. Below it a listing gives no link as a directory, so every
directory that is listed lies below the base with real directories on the way, and the search gets no
deeper than those reach. Between two listings the names and segments that are left get fewer.
-/

set_option autoImplicit false

namespace Wildpath

namespace FileSystem

variable {fs : FileSystem} {cwd : List Text}

/-- How many names lead from a location down to the deepest directory below it. -/
def height (fs : FileSystem) (loc : Location) : Nat :=
  (fs.nodes.map fun entry =>
    if entry.2.isDirectory && loc.isPrefixOf entry.1 then entry.1.length - loc.length else 0).foldr
      max 0

theorem length_le_height {loc : Location} {names : List Text}
    (directory : fs.isDirectory (loc ++ names) = true) : names.length ≤ fs.height loc := by
  cases found : fs.node? (loc ++ names) with
  | none => simp [isDirectory, found] at directory
  | some node =>
    rw [isDirectory_of_node? found] at directory
    rcases mem_nodes_or_top found with member | ⟨top, -⟩
    · refine @List.le_max_of_le ℕ _ _ _ _ _ (List.mem_map_of_mem member) ?_
      simp [directory]
    · simp [(List.append_eq_nil_iff.mp top).2]

/-- The entry lies at the base of a search or below it, with real directories on the way. -/
def Under (fs : FileSystem) (cwd : List Text) (base : Path) (e : Entry) : Prop :=
  ∃ top loc names, fs.rootEntry cwd base = some top ∧ fs.resolve cwd base = .ok loc ∧
    fs.Leads loc names ∧ e = fs.entryBelow loc top names

theorem Leads.isDirectory_take {loc : Location} {names : List Text} (h : fs.Leads loc names)
    (directory : fs.isDirectory (loc ++ names) = true) :
    ∀ n, fs.isDirectory (loc ++ names.take n) = true := by
  induction h with
  | here loc => simpa using directory
  | @through loc name names first _ _ ih =>
    intro n
    cases n with
    | zero => simpa using first
    | succ n => simpa using ih (by simpa using directory) n

end FileSystem

namespace Task

/-- The task is about entries below the base only. -/
def Under (fs : FileSystem) (cwd : List Text) (base : Path) : Task → Prop
  | .start root _ _ => root = base
  | .visit e _ _ => fs.Under cwd base e
  | .descend e _ => fs.Under cwd base e
  | .offer children _ => ∀ child ∈ children, fs.Under cwd base child

variable {l : Lister} {fs : FileSystem} {cwd : List Text} {filter : Option Filter} {base : Path}
  {options : Options}

/-- Of the names and the segments that a visit holds against each other, every visit of the same
entry that follows it has fewer. -/
theorem visit_cases {answers : Answers} {e : Entry} {names : List Text} {segments : List Pattern}
    {new : Task} (member : new ∈ ((visit e names segments).perform answers options).tasks) :
    (∃ names' segments', new = .visit e names' segments' ∧
        names'.length + segments'.length < names.length + segments.length) ∨
      names = [] ∧ new = .descend e segments := by
  cases names with
  | nil =>
    right
    refine ⟨rfl, ?_⟩
    simp only [perform] at member
    split at member <;> exact List.mem_singleton.mp member
  | cons name names =>
    cases segments with
    | nil => cases member
    | cons segment segments =>
      left
      rcases mem_visitName member with rfl | rfl | rfl
      · exact ⟨_, _, rfl, by simp⟩
      · exact ⟨_, _, rfl, by simp⟩
      · refine ⟨_, _, rfl, ?_⟩
        simp only [List.length_cons]
        omega

theorem under_child {e child : Entry} {hint : Option Text} {all : List Entry}
    (under : fs.Under cwd base e) (isDir : e.isDirectory = true)
    (listed : l.children fs cwd e hint = .ok all) (member : child ∈ all) :
    fs.Under cwd base child := by
  obtain ⟨top, loc, names, rooted, resolved, leads, rfl⟩ := under
  obtain ⟨loc', resolved', stands, -⟩ := FileSystem.stands_rootEntry rooted
  rw [resolved] at resolved'
  cases resolved'
  obtain ⟨there, found, name, node, entry, rfl⟩ := Lister.mem_children listed member
  rw [(leads.stands stands).resolved isDir] at found
  cases found
  have present := FileSystem.mem_entries_iff_node?.mp entry
  have further : fs.Leads (loc ++ names) [name] :=
    .through isDir (by rw [present]; rfl) (.here _)
  exact ⟨top, loc, names ++ [name], rooted, resolved,
    FileSystem.Leads.append_iff.mpr ⟨leads, further⟩, FileSystem.childEntry_entryBelow present⟩

theorem under_iff {task : Task} :
    task.Under fs cwd base ↔ task.Concerns base (fs.Under cwd base) (fs.Under cwd base) := by
  cases task <;> rfl

end Task

namespace Search

variable {l : Lister} {fs : FileSystem} {cwd : List Text} {filter : Option Filter} {base : Path}

def Under (fs : FileSystem) (cwd : List Text) (base : Path) (s : Search) : Prop :=
  ∀ task ∈ s.pending, task.Under fs cwd base

theorem under_iff {s : Search} :
    s.Under fs cwd base ↔ s.Concerns base (fs.Under cwd base) (fs.Under cwd base) :=
  forall₂_congr fun _ _ => Task.under_iff

theorem carries_under (l : Lister) (filter : Option Filter) :
    (l.answers filter fs cwd).Carries base (fs.Under cwd base) (fs.Under cwd base) where
  top e rooted := by
    obtain ⟨loc, resolved, stands, -⟩ := FileSystem.stands_rootEntry rooted
    exact ⟨e, loc, [], rooted, resolved, .here loc, (FileSystem.entryBelow_nil stands.kind).symm⟩
  child e hint all under isDir listed child member := Task.under_child under isDir listed member
  kept child under _ := under

theorem Under.after {s : Search} (under : s.Under fs cwd base) (l : Lister)
    (filter : Option Filter) (n : Nat) : (s.after (l.answers filter fs cwd) n).Under fs cwd base :=
  under_iff.mpr ((under_iff.mp under).after (carries_under l filter) n)

theorem Under.asked {s : Search} (under : s.Under fs cwd base) {d : Entry} {hint : Option Text}
    (asked : s.asks? = some (d, hint)) : fs.Under cwd base d ∧ d.isDirectory = true := by
  unfold asks? at asked
  obtain ⟨task, first, asked⟩ := Option.bind_eq_some_iff.mp asked
  obtain ⟨may, segment, segments, rfl, -⟩ := Task.asks?_eq_some asked
  exact ⟨under _ (List.mem_of_mem_head? first), (Bool.and_eq_true_iff.mp may).1⟩

/-- Every search in a file system comes to its end, wherever links lead and whatever the pattern. Each
directory that is listed has a path that goes on from the base by names of real directories only, so
it lies no deeper than directories reach there. While none is listed, what is left of the names and
the segments gets fewer. -/
theorem after_ends (l : Lister) (fs : FileSystem) (filter : Option Filter) (cwd : List Text)
    (root : Path) {pattern : Text} {segments : List Pattern}
    (parsed : Pattern.parse pattern = .ok segments) (options : Options) :
    ∃ s, start cwd root pattern options = .ok s ∧
      (∃ n, (s.after (l.answers filter fs cwd) n).pending = []) ∧
      (∀ n d hint, (s.after (l.answers filter fs cwd) n).asks? = some (d, hint) →
        ∃ loc names, fs.resolve cwd (Search.base cwd root segments) = .ok loc ∧
          d.path = (Search.base cwd root segments).down names ∧
          fs.resolve cwd d.path = .ok (loc ++ names) ∧
          (∀ n, fs.isDirectory (loc ++ names.take n) = true) ∧
          d.depth = names.length ∧ d.depth ≤ fs.height loc) ∧
      ∀ e names left, ∀ new ∈ ((Task.visit e names left).perform
          (l.answers filter fs cwd) options).tasks,
        (∃ names' left', new = .visit e names' left' ∧
          names'.length + left'.length < names.length + left.length) ∨
        names = [] ∧ new = .descend e left := by
  refine ⟨_, start_eq_ok_iff.mpr ⟨segments, parsed, rfl⟩,
    exists_after_idle (l.world filter fs cwd) _, ?_, fun e names left new => Task.visit_cases⟩
  intro n d hint asked
  have opened : Under fs cwd (Search.base cwd root segments)
      ⟨options, [.start (Search.base cwd root segments) (baseNames cwd root segments)
        (remaining segments)], []⟩ := by
    intro task member
    rw [List.mem_singleton.mp member]
    rfl
  obtain ⟨⟨top, loc, names, rooted, resolved, leads, rfl⟩, isDir⟩ :=
    (opened.after l filter n).asked asked
  obtain ⟨loc', resolved', stands, shallow⟩ := FileSystem.stands_rootEntry rooted
  rw [resolved] at resolved'
  cases resolved'
  obtain ⟨onTop, -, -⟩ := FileSystem.rootEntry_eq rooted
  have depth : (fs.entryBelow loc top names).depth = names.length := by
    rw [FileSystem.entryBelow, shallow, Nat.zero_add]
  refine ⟨loc, names, resolved, ?_, (leads.stands stands).resolved isDir,
    leads.isDirectory_take isDir, depth, ?_⟩
  · rw [← onTop]
    rfl
  · rw [depth]
    exact FileSystem.length_le_height isDir

end Search

/-- A directory with a link back to the top, a link to the directory, and a link to itself. -/
def FileSystem.tangled : FileSystem where
  nodes := [([['a']], .emptyDirectory), ([['a'], ['u']], ⟨.link ['.', '.'], false, false⟩),
    ([['a'], ['b']], .emptyDirectory), ([['l']], ⟨.link ['a'], false, false⟩),
    ([['o']], ⟨.link ['o'], false, false⟩)]
  distinct := by decide
  named := by decide

theorem Search.after_ends_tangled :
    ∃ s, start [] ⟨.relative, [['l'], ['u'], ['l']]⟩ "**/**/?/**".toList .standard = .ok s ∧
      (∃ n, (s.after (Lister.plain.answers none .tangled []) n).pending = []) ∧
      ∀ n d hint, (s.after (Lister.plain.answers none .tangled []) n).asks? = some (d, hint) →
        ∃ loc, FileSystem.tangled.resolve [] ⟨.relative, [['l'], ['u'], ['l']]⟩ = .ok loc ∧
          d.depth ≤ FileSystem.tangled.height loc := by
  have parsed : Pattern.parse "**/**/?/**".toList = .ok [.globstar, .globstar,
      .component [.anyChar], .globstar] :=
    Pattern.parse_eq_ok_iff.mpr (by cbv)
  obtain ⟨s, opens, ends, listed, -⟩ := after_ends .plain .tangled none []
    ⟨.relative, [['l'], ['u'], ['l']]⟩ parsed .standard
  refine ⟨s, opens, ends, fun n d hint asked => ?_⟩
  obtain ⟨loc, names, resolved, -, -, -, -, bounded⟩ := listed n d hint asked
  exact ⟨loc, resolved, bounded⟩

end Wildpath
