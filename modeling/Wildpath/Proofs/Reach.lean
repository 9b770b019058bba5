import Wildpath.FileSystem.Below

/-!
# What lies below an entry

Names lead from a location to a node if every node on the way is a directory itself; no link is
followed. Where everything can be read, listing directory after directory finds just these nodes,
and the path of an entry found so leads to its location.
-/

set_option autoImplicit false

namespace Wildpath.FileSystem

/-- Every directory can be listed and every node tells its type. -/
structure Readable (fs : FileSystem) : Prop where
  listable : ∀ entry ∈ fs.nodes, entry.2.isDirectory = true → entry.2.denied = false
  telling : ∀ entry ∈ fs.nodes, entry.2.veiled = false

inductive Leads (fs : FileSystem) : Location → List Text → Prop where
  | here (loc : Location) : Leads fs loc []
  | through {loc : Location} {name : Text} {names : List Text} : fs.isDirectory loc = true →
    (fs.node? (loc ++ [name])).isSome = true → Leads fs (loc ++ [name]) names →
    Leads fs loc (name :: names)

/-- The entry that names lead to from an entry at a location. -/
def entryBelow (fs : FileSystem) (loc : Location) (e : Entry) (names : List Text) : Entry :=
  ⟨{ e.path with parts := e.path.parts ++ names }, names.getLast?.getD e.name,
    fs.isDirectory (loc ++ names), e.depth + names.length⟩

/-- The entry tells of its location whether it is a directory, and the path of a directory leads to
it. -/
structure Stands (fs : FileSystem) (cwd : List Text) (e : Entry) (loc : Location) : Prop where
  kind : e.isDirectory = fs.isDirectory loc
  resolved : e.isDirectory = true → fs.resolve cwd e.path = .ok loc

variable {fs : FileSystem} {cwd : List Text}

theorem mem_nodes_or_top {loc : Location} {node : Node} (h : fs.node? loc = some node) :
    (loc, node) ∈ fs.nodes ∨ loc = [] ∧ node = .emptyDirectory := by
  unfold node? at h
  split at h
  · next other node' found =>
    cases h
    have same := List.find?_some found
    have member := List.mem_of_find?_eq_some found
    obtain rfl : other = loc := by simpa using same
    exact Or.inl member
  · split at h
    · next top =>
      cases h
      exact Or.inr ⟨top, rfl⟩
    · cases h

theorem mem_entries_iff_node? {loc : Location} {name : Text} {node : Node} :
    (name, node) ∈ fs.entries loc ↔ fs.node? (loc ++ [name]) = some node := by
  rw [mem_entries_iff]
  constructor
  · exact node?_of_mem
  · intro h
    rcases mem_nodes_or_top h with member | ⟨top, -⟩
    · exact member
    · exact absurd top (by simp)

/-- The entries of a directory have different names. -/
theorem nodup_entries (fs : FileSystem) (directory : Location) :
    ((fs.entries directory).map (·.1)).Nodup := by
  have apart : (fs.nodes.filterMap fun entry =>
      (nameBelow? directory entry.1).map (·, entry.2)).Pairwise fun a b => a.1 ≠ b.1 := by
    apply (List.pairwise_map.mp fs.distinct).filterMap
    intro a a' ne b hb b' hb' same
    obtain ⟨name, below, rfl⟩ := Option.map_eq_some_iff.mp hb
    obtain ⟨name', below', rfl⟩ := Option.map_eq_some_iff.mp hb'
    obtain rfl : name = name' := same
    have here := nameBelow?_eq_some_iff.mp below
    have there := nameBelow?_eq_some_iff.mp below'
    exact ne (here.trans there.symm)
  exact ((List.mergeSort_perm _ _).map _).nodup_iff.mpr (List.pairwise_map.mpr apart)

theorem children_eq_map {directory : Entry} {hint : Option Text} {list : List Entry}
    (h : fs.children cwd directory hint = .ok list) : ∃ loc kept,
      list = ((fs.entries loc).filter kept).map fun e => childEntry directory e.1 e.2 := by
  unfold children at h
  split at h
  · cases h
  · split at h
    · cases h
    · split at h
      · cases h
      · split at h
        · cases h
        · cases h
          exact ⟨_, _, rfl⟩

theorem nodup_children {directory : Entry} {hint : Option Text} {list : List Entry}
    (h : fs.children cwd directory hint = .ok list) : (list.map (·.name)).Nodup := by
  obtain ⟨loc, kept, rfl⟩ := children_eq_map h
  rw [List.map_map]
  exact (List.filter_sublist.map _).nodup (fs.nodup_entries loc)

theorem isDirectory_of_node? {loc : Location} {node : Node} (h : fs.node? loc = some node) :
    fs.isDirectory loc = node.isDirectory := by
  simp [isDirectory, h]

theorem entryBelow_nil {loc : Location} {e : Entry} (h : e.isDirectory = fs.isDirectory loc) :
    fs.entryBelow loc e [] = e := by
  simp [entryBelow, ← h]

theorem entryBelow_cons {loc : Location} {e : Entry} {name : Text} {node : Node}
    (names : List Text) :
    fs.entryBelow loc e (name :: names) =
      fs.entryBelow (loc ++ [name]) (childEntry e name node) names := by
  simp only [entryBelow, childEntry, Path.child, List.append_assoc, List.singleton_append,
    List.length_cons, List.getLast?_cons, Option.getD_some, Entry.mk.injEq, true_and]
  omega

theorem Leads.append_iff {loc : Location} {front back : List Text} :
    fs.Leads loc (front ++ back) ↔ fs.Leads loc front ∧ fs.Leads (loc ++ front) back := by
  induction front generalizing loc with
  | nil =>
    rw [List.nil_append, List.append_nil]
    exact (and_iff_right (.here loc)).symm
  | cons name front ih =>
    have shift : loc ++ name :: front = (loc ++ [name]) ++ front := by simp
    rw [shift, List.cons_append]
    constructor
    · intro h
      cases h with
      | through directory there h =>
        obtain ⟨first, second⟩ := ih.mp h
        exact ⟨.through directory there first, second⟩
    · intro h
      obtain ⟨first, second⟩ := h
      cases first with
      | through directory there first => exact .through directory there (ih.mpr ⟨first, second⟩)

/-- Nothing lies below what is not a directory. -/
theorem Leads.eq_nil {loc : Location} {names : List Text} (h : fs.Leads loc names)
    (other : fs.isDirectory loc = false) : names = [] := by
  cases h with
  | here => rfl
  | through directory =>
    rw [directory] at other
    cases other

theorem childEntry_entryBelow {loc : Location} {e : Entry} {names : List Text} {name : Text}
    {node : Node} (there : fs.node? (loc ++ names ++ [name]) = some node) :
    childEntry (fs.entryBelow loc e names) name node = fs.entryBelow loc e (names ++ [name]) := by
  have kind := isDirectory_of_node? there
  rw [List.append_assoc] at kind
  simp only [childEntry, entryBelow, Path.child, kind, List.append_assoc, List.getLast?_concat,
    Option.getD_some, List.length_append, List.length_singleton, Nat.add_assoc]

theorem Stands.child {e : Entry} {loc : Location} (stands : fs.Stands cwd e loc)
    (isDir : e.isDirectory = true) {name : Text} {node : Node}
    (member : (name, node) ∈ fs.entries loc) :
    fs.Stands cwd (childEntry e name node) (loc ++ [name]) where
  kind := (isDirectory_of_node? (mem_entries_iff_node?.mp member)).symm
  resolved childDir := by
    have dir : fs.isDirectory loc = true := stands.kind ▸ isDir
    exact resolve_child (stands.resolved isDir) dir member childDir

theorem stands_rootEntry {p : Path} {e : Entry} (h : fs.rootEntry cwd p = some e) :
    ∃ loc, fs.resolve cwd p = .ok loc ∧ fs.Stands cwd e loc ∧ e.depth = 0 := by
  unfold rootEntry at h
  split at h
  · next loc resolved =>
    cases h
    exact ⟨loc, resolved, ⟨rfl, fun _ => resolved⟩, rfl⟩
  · cases h

theorem Readable.children (readable : fs.Readable) {e : Entry} {loc : Location}
    (stands : fs.Stands cwd e loc) (isDir : e.isDirectory = true) :
    fs.children cwd e none =
      .ok ((fs.entries loc).map fun entry => childEntry e entry.1 entry.2) := by
  have dir : fs.isDirectory loc = true := stands.kind ▸ isDir
  cases found : fs.node? loc with
  | none => simp [isDirectory, found] at dir
  | some node =>
    have nodeDir : node.isDirectory = true := by rwa [isDirectory_of_node? found] at dir
    have listable : node.denied = false := by
      rcases mem_nodes_or_top found with member | ⟨-, rfl⟩
      · exact readable.listable _ member nodeDir
      · rfl
    have all : (fs.entries loc).filter (fun entry => !entry.2.veiled) = fs.entries loc := by
      refine List.filter_eq_self.mpr fun entry member => ?_
      have : entry.2.veiled = false := readable.telling _ (mem_entries_iff.mp member)
      simp [this]
    have admitted : fs.children cwd e none =
        .ok (((fs.entries loc).filter fun entry => !entry.2.veiled).map fun entry =>
          childEntry e entry.1 entry.2) := by
      simp only [FileSystem.children, stands.resolved isDir, found, nodeDir, listable, Bool.not_true,
        Bool.false_eq_true, if_false, Option.all_none, Bool.true_and]
    rw [admitted, all]

/-- A directory with a file, a hidden file and a subdirectory, and a link to the directory. -/
def sample : FileSystem where
  nodes := [([['a']], .emptyDirectory), ([['a'], ['x']], ⟨.file [], false, false⟩),
    ([['a'], ['.', 'h']], ⟨.file [], false, false⟩), ([['a'], ['b']], .emptyDirectory),
    ([['a'], ['b'], ['x']], ⟨.file [], false, false⟩), ([['l']], ⟨.link ['a'], false, false⟩)]
  distinct := by decide
  named := by decide

theorem readable_sample : sample.Readable := ⟨by decide, by decide⟩

theorem resolve_sample : sample.resolve [] ⟨.relative, []⟩ = .ok [] := by
  simp [resolve, place, walk, Path.anchored, Path.isAnchored]

end Wildpath.FileSystem
