import Wildpath.FileSystem.Listing

/-!
# Below a directory

The entries of a directory are the nodes one name below it, and a path that leads to a directory,
with the name of a subdirectory added, leads to the subdirectory. So listing a directory only gives
subdirectories whose locations are longer, and locations are bounded.
-/

set_option autoImplicit false

namespace Wildpath.FileSystem

theorem nameBelow?_eq_some_iff {directory loc : Location} {name : Text} :
    nameBelow? directory loc = some name ↔ loc = directory ++ [name] := by
  fun_induction nameBelow? directory loc with
  | case1 => simp [eq_comm]
  | case2 a directory loc ih => simpa using ih
  | case3 a directory b loc h => simp [Ne.symm h]
  | case4 directory loc h₁ h₂ =>
    refine iff_of_false (by simp) ?_
    rintro rfl
    cases directory with
    | nil => exact h₁ name rfl rfl
    | cons a directory => exact h₂ a directory a (directory ++ [name]) rfl rfl

theorem mem_entries_iff {fs : FileSystem} {directory : Location} {name : Text} {node : Node} :
    (name, node) ∈ fs.entries directory ↔ (directory ++ [name], node) ∈ fs.nodes := by
  simp only [entries, List.mem_mergeSort, List.mem_filterMap]
  constructor
  · rintro ⟨⟨loc, node'⟩, member, h⟩
    obtain ⟨name', below, same⟩ := Option.map_eq_some_iff.mp h
    cases same
    have : loc = directory ++ [name] := nameBelow?_eq_some_iff.mp below
    rwa [this] at member
  · intro member
    exact ⟨_, member, by simp [nameBelow?_eq_some_iff.mpr rfl]⟩

theorem find?_of_mem {nodes : List (Location × Node)} (distinct : (nodes.map (·.1)).Nodup)
    {loc : Location} {node : Node} (member : (loc, node) ∈ nodes) :
    nodes.find? (·.1 == loc) = some (loc, node) := by
  induction nodes with
  | nil => cases member
  | cons entry rest ih =>
    obtain ⟨absent, distinct⟩ := List.nodup_cons.mp distinct
    cases member with
    | head => simp
    | tail _ member =>
      have : entry.1 ≠ loc := by
        rintro rfl
        exact absent (List.mem_map.mpr ⟨_, member, rfl⟩)
      simp [this, ih distinct member]

theorem node?_of_mem {fs : FileSystem} {loc : Location} {node : Node}
    (member : (loc, node) ∈ fs.nodes) : fs.node? loc = some node := by
  simp [node?, find?_of_mem fs.distinct member]

theorem isName_of_mem_entries {fs : FileSystem} {directory : Location} {name : Text}
    {node : Node} (member : (name, node) ∈ fs.entries directory) : isName name = true :=
  fs.named _ (mem_entries_iff.mp member) name (by simp)

theorem walk_append {fs : FileSystem} {links : Nat} {start loc : Location} {names : List Text}
    {name : Text} {node : Node} (h : fs.walk links start names = .ok (.occupied loc))
    (isDir : fs.isDirectory loc = true) (found : fs.node? (loc ++ [name]) = some node)
    (notLink : node.isDirectory = true) (proper : name ≠ parentName) :
    fs.walk links start (names ++ [name]) = .ok (.occupied (loc ++ [name])) := by
  fun_induction walk fs links start names with
  | case1 links start =>
    cases h
    obtain ⟨content, denied, veiled⟩ := node
    cases content with
    | directory => simp [walk, isDir, proper, found]
    | file => simp [Node.isDirectory] at notLink
    | link => simp [Node.isDirectory] at notLink
  | case2 => cases h
  | case3 links start rest dir ih =>
    rw [List.cons_append, walk]
    simp only [Bool.not_eq_true] at dir
    simp [dir, ih h]
  | case4 => cases h
  | case5 => cases h
  | case6 => cases h
  | case7 start name' rest dir notParent target denied veiled hn links t ih =>
    rw [List.cons_append, walk]
    simp only [Bool.not_eq_true] at dir
    have := ih h
    simp only [List.append_assoc] at this
    simpa [dir, notParent, hn] using this
  | case8 links start name' rest dir notParent other notLink' hn ih =>
    rw [List.cons_append, walk]
    simp only [Bool.not_eq_true] at dir
    obtain ⟨content, denied, veiled⟩ := other
    cases content with
    | directory => simpa [dir, notParent, hn] using ih h
    | file => simpa [dir, notParent, hn] using ih h
    | link target => exact absurd rfl (notLink' target denied veiled)

theorem anchored_child (cwd : List Text) (p : Path) (name : Text) :
    ((p.child name).anchored cwd).parts = (p.anchored cwd).parts ++ [name] := by
  by_cases h : p.anchor = .relative <;> simp [Path.anchored, Path.isAnchored, Path.child, h]

theorem resolve_eq_ok_iff {fs : FileSystem} {cwd : List Text} {p : Path} {loc : Location} :
    fs.resolve cwd p = .ok loc ↔
      ((p.anchored cwd).parts.any (·.contains '\x00')) = false ∧
        fs.walk maxLinks [] (p.anchored cwd).parts = .ok (.occupied loc) := by
  simp only [resolve, place]
  cases hn : (p.anchored cwd).parts.any (·.contains '\x00') with
  | true => simp
  | false =>
    simp only [Bool.false_eq_true, if_false, true_and]
    split <;> simp_all

theorem resolve_child {fs : FileSystem} {cwd : List Text} {p : Path} {loc : Location}
    {name : Text} {node : Node} (h : fs.resolve cwd p = .ok loc)
    (isDir : fs.isDirectory loc = true) (member : (name, node) ∈ fs.entries loc)
    (notLink : node.isDirectory = true) :
    fs.resolve cwd (p.child name) = .ok (loc ++ [name]) := by
  obtain ⟨clean, walked⟩ := resolve_eq_ok_iff.mp h
  have proper := isName_of_mem_entries member
  simp only [isName, Bool.and_eq_true, bne_iff_ne, Bool.not_eq_true'] at proper
  refine resolve_eq_ok_iff.mpr ⟨?_, ?_⟩
  · rw [anchored_child, List.any_append, clean]
    simpa using proper.2
  · rw [anchored_child]
    exact walk_append walked isDir (node?_of_mem (mem_entries_iff.mp member)) notLink proper.1.1.2

/-- What a listing that succeeds says about the directory and each child. -/
theorem children_eq_ok {fs : FileSystem} {cwd : List Text} {directory : Entry}
    {hint : Option Text} {list : List Entry} (h : fs.children cwd directory hint = .ok list) :
    ∃ loc, fs.resolve cwd directory.path = .ok loc ∧ fs.isDirectory loc = true ∧
      ∀ child ∈ list, ∃ name node, (name, node) ∈ fs.entries loc ∧
        child = childEntry directory name node := by
  simp only [children] at h
  split at h
  · cases h
  · next loc resolved =>
    split at h
    · cases h
    · next node found =>
      split at h
      · cases h
      · next isDir =>
        split at h
        · cases h
        · cases h
          refine ⟨loc, resolved, ?_, fun child member => ?_⟩
          · simpa [isDirectory, found] using isDir
          · obtain ⟨⟨name, node⟩, kept, rfl⟩ := List.mem_map.mp member
            exact ⟨name, node, (List.mem_filter.mp kept).1, rfl⟩

/-- No location is longer. -/
def depth (fs : FileSystem) : Nat := (fs.nodes.map (·.1.length)).foldr max 0

theorem length_le_depth {fs : FileSystem} {loc : Location} {node : Node}
    (member : (loc, node) ∈ fs.nodes) : loc.length ≤ fs.depth := by
  suffices ∀ nodes : List (Location × Node), (loc, node) ∈ nodes →
      loc.length ≤ (nodes.map (·.1.length)).foldr max 0 from this fs.nodes member
  intro nodes member
  induction nodes with
  | nil => cases member
  | cons entry rest ih =>
    simp only [List.map_cons, List.foldr_cons]
    cases member with
    | head => exact Nat.le_max_left _ _
    | tail _ member => exact Nat.le_trans (ih member) (Nat.le_max_right _ _)

/-- How many names may still follow below the location that a path leads to. -/
def room (fs : FileSystem) (cwd : List Text) (p : Path) : Nat :=
  match fs.resolve cwd p with
  | .ok loc => fs.depth + 1 - loc.length
  | .error _ => 0

theorem room_child_lt {fs : FileSystem} {cwd : List Text} {directory : Entry}
    {hint : Option Text} {list : List Entry} (h : fs.children cwd directory hint = .ok list)
    {child : Entry} (member : child ∈ list) (isDir : child.isDirectory = true) :
    fs.room cwd child.path < fs.room cwd directory.path := by
  obtain ⟨loc, resolved, dir, all⟩ := children_eq_ok h
  obtain ⟨name, node, entry, rfl⟩ := all child member
  have below := resolve_child resolved dir entry isDir
  have bound := length_le_depth (mem_entries_iff.mp entry)
  simp only [List.length_append, List.length_singleton] at bound
  simp only [room, resolved, childEntry, below, List.length_append, List.length_singleton]
  omega

end Wildpath.FileSystem
