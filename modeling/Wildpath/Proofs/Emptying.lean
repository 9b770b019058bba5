import Wildpath.Proofs.Descent
import Wildpath.Proofs.Seats

/-!
# Directories that count as empty

A search that passes over the directories it cannot list sees each of them as empty. So it gives
what it gives, strict or not, in the world that lists nothing in them. As far as the permissions of
a file system are concerned, that world is another file system: the one that can list every
directory and has nothing below those that it could not list before.
-/

set_option autoImplicit false

namespace Wildpath

def Answers.emptied (answers : Answers) : Answers where
  rootEntry := answers.rootEntry
  children directory hint :=
    match answers.children directory hint with
    | .ok all => .ok all
    | .error _ => .ok []
  excludes := answers.excludes

theorem Answers.Grounded.emptied {answers : Answers} (grounded : answers.Grounded) :
    answers.emptied.Grounded := by
  obtain ⟨rank, ranked⟩ := grounded
  refine ⟨rank, fun directory hint all listed child member => ?_⟩
  simp only [Answers.emptied] at listed
  split at listed
  · next answered =>
    cases listed
    exact ranked directory hint _ answered child member
  · cases listed
    cases member

/-- The world in which every directory that cannot be listed can be, and is empty. -/
def World.emptied (world : World) : World := ⟨world.toAnswers.emptied, world.grounded.emptied⟩

/-- Among the entries that hold `P`, the second world lists what the first one does, and nothing
where the first one cannot list. -/
structure World.Relieves (world other : World) (P : Entry → Prop) : Prop where
  listed : ∀ e hint, P e → e.isDirectory = true →
    other.children e hint = world.emptied.children e hint
  filtered : other.excludes = world.excludes
  child : ∀ e hint all, P e → e.isDirectory = true → world.children e hint = .ok all →
    ∀ child ∈ all, P child

theorem World.relieves_emptied (world : World) : world.Relieves world.emptied fun _ => True where
  listed _ _ _ _ := rfl
  filtered := rfl
  child _ _ _ _ _ _ _ _ := trivial

variable {world other : World} {P : Entry → Prop}

namespace Task

/-- Whether a search is strict says nothing about where it may go. -/
theorem mayDescend_strict (options : Options) (strict : Bool) (e : Entry) :
    mayDescend { options with strict := strict } e = mayDescend options e := rfl

/-- Directories that cannot be listed leave the trace that empty ones leave. -/
theorem trace_relieved (relieves : world.Relieves other P) (options : Options) (strict : Bool)
    (e : Entry) (names : List Text) (segments : List Pattern) (holds : P e) :
    trace other { options with strict := strict } (.visit e names segments) =
      trace world { options with strict := false } (.visit e names segments) := by
  induction e, names, segments using names_induction world with
  | exhausted e segments below =>
    rw [trace_visit_nil, trace_visit_nil]
    congr 1
    have same := mayDescend_strict { options with strict := false } strict e
    rcases trace_descend_cases world { options with strict := false } e segments with ⟨shut, nothing⟩ |
      ⟨segment, later, error, rfl, may, refused, empty⟩ | ⟨segment, later, all, rfl, may, listed, given⟩
    · rw [nothing]
      rcases shut with rfl | shut
      · exact trace_descend_nil e
      · exact trace_descend_shut (same.trans shut) segments
    · have answered : other.children e segment.hint? = .ok [] := by
        rw [relieves.listed e segment.hint? holds (Bool.and_eq_true_iff.mp may).1]
        simp only [World.emptied, Answers.emptied, refused]
      rw [empty, trace_descend_ok (same.trans may) answered, trace_offer]
      rfl
    · have isDir : e.isDirectory = true := (Bool.and_eq_true_iff.mp may).1
      have answered : other.children e segment.hint? = .ok all := by
        rw [relieves.listed e segment.hint? holds isDir]
        simp only [World.emptied, Answers.emptied, listed]
      rw [given, trace_descend_ok (same.trans may) answered, trace_offer, relieves.filtered]
      congr 1
      apply List.flatMap_congr
      intro child member
      have member := (List.mem_filter.mp member).1
      exact below _ all isDir listed child member
        (relieves.child e _ all holds isDir listed child member)
  | named e name names segments shorter =>
    rw [trace_visit_after, trace_visit_after]
    apply List.flatMap_congr
    intro left _
    exact shorter left holds

end Task

/-- A search that is not strict gives what either kind of search gives in a world that lists nothing
where the first one cannot list. -/
theorem Search.drain_relieved (relieves : world.Relieves other P) (options : Options)
    (strict : Bool) (base : Path) (names : List Text) (segments : List Pattern)
    (rooted : other.rootEntry base = world.rootEntry base)
    (top : ∀ top, world.rootEntry base = some top → P top) :
    ((⟨{ options with strict := strict }, [.start base names segments], []⟩ : Search).drain other).1 =
      ((⟨{ options with strict := false }, [.start base names segments], []⟩ : Search).drain
        world).1 := by
  rw [drain_eq_rest, drain_eq_rest, outlook_opened, outlook_opened, rooted]
  cases found : world.rootEntry base with
  | none => rfl
  | some e =>
    have same := Task.trace_relieved relieves options strict e names segments (top e found)
    simp only [same]

def Node.opened (n : Node) : Node := { n with denied := n.denied && !n.isDirectory }

theorem Node.isDirectory_opened (n : Node) : n.opened.isDirectory = n.isDirectory := rfl

theorem Node.denied_opened {n : Node} (isDir : n.isDirectory = true) : n.opened.denied = false := by
  simp [opened, isDir]

namespace FileSystem

/-- Does the location lie below a directory that cannot be listed? -/
def sealed (fs : FileSystem) (loc : Location) : Bool :=
  fs.nodes.any fun entry =>
    entry.2.isDirectory && entry.2.denied && entry.1.isPrefixOf loc && entry.1 != loc

/-- The file system in which every directory can be listed, with nothing in those that could not. -/
def emptied (fs : FileSystem) : FileSystem where
  nodes := (fs.erase fs.sealed).nodes.map fun entry => (entry.1, entry.2.opened)
  distinct := by
    rw [List.map_map]
    exact (fs.erase fs.sealed).distinct
  named entry member := by
    obtain ⟨kept, there, rfl⟩ := List.mem_map.mp member
    exact (fs.erase fs.sealed).named kept there

variable {fs : FileSystem} {cwd : List Text}

theorem mem_nodes_emptied {loc : Location} {node : Node} :
    (loc, node) ∈ fs.emptied.nodes ↔
      fs.sealed loc = false ∧ ∃ before, (loc, before) ∈ fs.nodes ∧ node = before.opened := by
  simp only [emptied, erase, List.mem_map, List.mem_filter, Bool.not_eq_true', Prod.exists,
    Prod.mk.injEq]
  constructor
  · intro h
    obtain ⟨_, before, ⟨member, unsealed⟩, rfl, rfl⟩ := h
    exact ⟨unsealed, before, member, rfl⟩
  · intro h
    obtain ⟨unsealed, before, member, rfl⟩ := h
    exact ⟨loc, before, ⟨member, unsealed⟩, rfl, rfl⟩

theorem sealed_nil : fs.sealed [] = false := by
  refine List.any_eq_false.mpr fun entry _ => ?_
  cases entry.1 <;> simp

theorem node?_of_emptied {loc : Location} {node : Node} (h : fs.emptied.node? loc = some node) :
    fs.sealed loc = false ∧ ∃ before, fs.node? loc = some before ∧ node = before.opened := by
  rcases mem_nodes_or_top h with member | ⟨rfl, rfl⟩
  · obtain ⟨unsealed, before, member, same⟩ := mem_nodes_emptied.mp member
    exact ⟨unsealed, before, node?_of_mem member, same⟩
  · refine ⟨sealed_nil, ?_⟩
    cases found : fs.node? [] with
    | none =>
      unfold node? at found
      split at found <;> cases found
    | some before =>
      refine ⟨before, rfl, ?_⟩
      rcases mem_nodes_or_top found with member | ⟨-, rfl⟩
      · rw [node?_of_mem (mem_nodes_emptied.mpr ⟨sealed_nil, before, member, rfl⟩)] at h
        exact (Option.some.inj h).symm
      · rfl

theorem node?_emptied {loc : Location} (unsealed : fs.sealed loc = false) :
    fs.emptied.node? loc = (fs.node? loc).map Node.opened := by
  cases found : fs.emptied.node? loc with
  | some node =>
    obtain ⟨-, before, there, rfl⟩ := node?_of_emptied found
    rw [there]
    rfl
  | none =>
    cases there : fs.node? loc with
    | none => rfl
    | some before =>
      rcases mem_nodes_or_top there with member | ⟨rfl, -⟩
      · rw [node?_of_mem (mem_nodes_emptied.mpr ⟨unsealed, before, member, rfl⟩)] at found
        cases found
      · unfold node? at found
        split at found <;> cases found

theorem isDirectory_emptied {loc : Location} (unsealed : fs.sealed loc = false) :
    fs.emptied.isDirectory loc = fs.isDirectory loc := by
  unfold isDirectory
  rw [node?_emptied unsealed]
  cases fs.node? loc <;> rfl

theorem isDirectory_of_emptied {loc : Location} (h : fs.emptied.isDirectory loc = true) :
    fs.isDirectory loc = true := by
  cases found : fs.emptied.node? loc with
  | none => simp [isDirectory, found] at h
  | some node =>
    obtain ⟨-, before, there, rfl⟩ := node?_of_emptied found
    rw [isDirectory_of_node? found] at h
    rw [isDirectory_of_node? there]
    exact h

/-- What a path still leads to, it led to before. -/
theorem walk_of_emptied {links : Nat} {start loc : Location} {names : List Text}
    (h : fs.emptied.walk links start names = .ok (.occupied loc)) :
    fs.walk links start names = .ok (.occupied loc) := by
  -- Every node on the way stood there before with the same content. Only a walk that ends at a free
  -- name or is refused may have ended elsewhere.
  fun_induction walk fs.emptied links start names with
  | case1 links start =>
    rw [walk]
    exact h
  | case2 => cases h
  | case3 links start rest dir ih =>
    have dir : fs.isDirectory start = true := isDirectory_of_emptied (by simpa using dir)
    rw [walk]
    simpa [dir] using ih h
  | case4 => cases h
  | case5 => cases h
  | case6 => cases h
  | case7 start name rest dir notParent target denied veiled found links path ih =>
    have dir : fs.isDirectory start = true := isDirectory_of_emptied (by simpa using dir)
    obtain ⟨-, ⟨content, denied', veiled'⟩, there, same⟩ := node?_of_emptied found
    obtain rfl : .link target = content := congrArg Node.content same
    rw [walk]
    simpa [dir, notParent, there] using ih h
  | case8 links start name rest dir notParent other notLink found ih =>
    have dir : fs.isDirectory start = true := isDirectory_of_emptied (by simpa using dir)
    obtain ⟨-, ⟨content, denied, veiled⟩, there, rfl⟩ := node?_of_emptied found
    rw [walk]
    cases content with
    | link target => exact absurd rfl (notLink target _ _)
    | file bytes => simpa [dir, notParent, there] using ih h
    | directory => simpa [dir, notParent, there] using ih h

theorem resolve_of_emptied {p : Path} {loc : Location} (h : fs.emptied.resolve cwd p = .ok loc) :
    fs.resolve cwd p = .ok loc := by
  obtain ⟨clean, walked⟩ := resolve_eq_ok_iff.mp h
  exact resolve_eq_ok_iff.mpr ⟨clean, walk_of_emptied walked⟩

/-- What lies above a location that is not sealed is not sealed either. -/
theorem unsealed_of_above {above loc : Location} (inside : above <+: loc)
    (unsealed : fs.sealed loc = false) : fs.sealed above = false := by
  refine List.any_eq_false.mpr fun entry member bars => ?_
  simp only [Bool.and_eq_true, List.isPrefixOf_iff_prefix, bne_iff_ne] at bars
  obtain ⟨⟨barred, begins⟩, apart⟩ := bars
  have beyond : entry.1 ≠ loc := by
    intro same
    exact apart (begins.eq_of_length_le (same ▸ inside.length_le))
  refine List.any_eq_false.mp unsealed entry member ?_
  simp [barred, begins.trans inside, beyond]

/-- No walk comes below a directory that could not be listed. -/
theorem unsealed_of_walk {links : Nat} {start loc : Location} {names : List Text}
    (h : fs.emptied.walk links start names = .ok (.occupied loc))
    (unsealed : fs.sealed start = false) : fs.sealed loc = false := by
  fun_induction walk fs.emptied links start names with
  | case1 links start =>
    cases h
    exact unsealed
  | case2 => cases h
  | case3 links start rest dir ih =>
    exact ih h (unsealed_of_above (List.dropLast_prefix start) unsealed)
  | case4 => cases h
  | case5 => cases h
  | case6 => cases h
  | case7 start name rest dir notParent target denied veiled found links path ih =>
    refine ih h ?_
    split
    · exact sealed_nil
    · exact unsealed
  | case8 links start name rest dir notParent other notLink found ih =>
    exact ih h (node?_of_emptied found).1

/-- A root is as it was, or it is gone. -/
theorem rootEntry_emptied (fs : FileSystem) (cwd : List Text) (p : Path) :
    fs.emptied.rootEntry cwd p = none ∨ fs.emptied.rootEntry cwd p = fs.rootEntry cwd p := by
  cases resolved : fs.emptied.resolve cwd p with
  | error refusal => exact .inl (by rw [rootEntry, resolved])
  | ok loc =>
    have unsealed := unsealed_of_walk (resolve_eq_ok_iff.mp resolved).2 sealed_nil
    refine .inr ?_
    rw [rootEntry, resolved, rootEntry, resolve_of_emptied resolved]
    simp only [isDirectory_emptied unsealed]

/-- A root below a directory that could not be listed is gone. -/
theorem rootEntry_emptied_of_sealed {p : Path} {loc : Location}
    (resolved : fs.resolve cwd p = .ok loc) (below : fs.sealed loc = true) :
    fs.emptied.rootEntry cwd p = none := by
  cases still : fs.emptied.resolve cwd p with
  | error refusal => rw [rootEntry, still]
  | ok other =>
    obtain rfl : loc = other := Except.ok.inj (resolved.symm.trans (resolve_of_emptied still))
    rw [unsealed_of_walk (resolve_eq_ok_iff.mp still).2 sealed_nil] at below
    cases below

theorem sealed_concat {loc : Location} {node : Node} (unsealed : fs.sealed loc = false)
    (found : fs.node? loc = some node) (isDir : node.isDirectory = true) (name : Text) :
    fs.sealed (loc ++ [name]) = node.denied := by
  cases denied : node.denied with
  | true =>
    rcases mem_nodes_or_top found with member | ⟨-, rfl⟩
    · exact List.any_eq_true.mpr ⟨_, member, by simp [isDir, denied]⟩
    · cases denied
  | false =>
    refine List.any_eq_false.mpr fun entry member bars => ?_
    simp only [Bool.and_eq_true, List.isPrefixOf_iff_prefix, bne_iff_ne] at bars
    obtain ⟨⟨⟨directory, barred⟩, above⟩, apart⟩ := bars
    have above := (List.prefix_concat_iff.mp above).resolve_left apart
    by_cases here : entry.1 = loc
    · subst here
      rw [node?_of_mem member] at found
      cases found
      rw [denied] at barred
      cases barred
    · refine List.any_eq_false.mp unsealed entry member ?_
      simp [directory, barred, above, here]

theorem entries_emptied {loc : Location} {node : Node} (unsealed : fs.sealed loc = false)
    (found : fs.node? loc = some node) (isDir : node.isDirectory = true) :
    fs.emptied.entries loc =
      if node.denied then [] else (fs.entries loc).map fun entry => (entry.1, entry.2.opened) := by
  have within := sealed_concat unsealed found isDir
  cases denied : node.denied with
  | true =>
    refine List.eq_nil_iff_forall_not_mem.mpr fun entry member => ?_
    have unsealed := (mem_nodes_emptied.mp (mem_entries_iff.mp member)).1
    rw [within, denied] at unsealed
    cases unsealed
  | false =>
    have sorted : ∀ l : List (Text × Node),
        (l.mergeSort fun a b => Text.ordered a.1 b.1).map (fun entry => (entry.1, entry.2.opened)) =
          (l.map fun entry => (entry.1, entry.2.opened)).mergeSort fun a b => Text.ordered a.1 b.1 :=
      fun l => List.map_mergeSort fun _ _ _ _ => rfl
    simp only [Bool.false_eq_true, if_false, entries, emptied, erase]
    rw [sorted, List.filterMap_map, List.filterMap_filter, List.map_filterMap]
    congr 1
    apply List.filterMap_congr
    intro entry _
    cases below : nameBelow? loc entry.1 with
    | none => simp [below]
    | some name =>
      have kept : fs.sealed entry.1 = false := by
        rw [nameBelow?_eq_some_iff.mp below, within, denied]
      simp [below, kept]

/-- An entry that stands where it stood before has its children as long as they could be listed. -/
theorem children_emptied {e : Entry} {loc : Location} (stands : fs.Stands cwd e loc)
    (still : fs.emptied.Stands cwd e loc) (isDir : e.isDirectory = true) (hint : Option Text) :
    fs.emptied.children cwd e hint =
      match fs.children cwd e hint with
      | .ok all => .ok all
      | .error _ => .ok [] := by
  have directory : fs.emptied.isDirectory loc = true := still.kind ▸ isDir
  cases there : fs.emptied.node? loc with
  | none => simp [isDirectory, there] at directory
  | some node =>
    obtain ⟨unsealed, before, found, rfl⟩ := node?_of_emptied there
    have beforeDir : before.isDirectory = true := by
      rwa [isDirectory_of_node? there, Node.isDirectory_opened] at directory
    have listed := entries_emptied unsealed found beforeDir
    simp only [children, still.resolved isDir, stands.resolved isDir, there, found, beforeDir,
      Node.isDirectory_opened, Node.denied_opened beforeDir, listed]
    cases denied : before.denied with
    | true => simp
    | false =>
      simp only [Bool.not_true, Bool.false_eq_true, if_false, List.filter_map, List.map_map]
      rfl

end FileSystem

namespace Lister

variable {l : Lister} {fs : FileSystem} {cwd : List Text}

theorem children_emptied (obliging : l.refused = []) {e : Entry} {loc : Location}
    (stands : fs.Stands cwd e loc) (still : fs.emptied.Stands cwd e loc)
    (isDir : e.isDirectory = true) (hint : Option Text) :
    l.children fs.emptied cwd e hint =
      match l.children fs cwd e hint with
      | .ok all => .ok all
      | .error _ => .ok [] := by
  simp only [children, obliging, List.contains_nil, Bool.false_eq_true, if_false,
    FileSystem.children_emptied stands still isDir]
  cases fs.children cwd e (if l.ignoresHint then none else hint) with
  | ok all => rfl
  | error error => simp

/-- A lister that refuses nothing itself finds in the other file system what it lists in this one. -/
theorem relieves_emptied (obliging : l.refused = []) (filter : Option Filter) (fs : FileSystem)
    (cwd : List Text) :
    (l.world filter fs cwd).Relieves (l.world filter fs.emptied cwd) fun e =>
      ∃ loc, fs.Stands cwd e loc ∧ fs.emptied.Stands cwd e loc where
  listed e hint holds isDir := by
    obtain ⟨loc, stands, still⟩ := holds
    exact children_emptied obliging stands still isDir hint
  filtered := rfl
  child e hint all holds isDir listed child member := by
    obtain ⟨loc, stands, still⟩ := holds
    have given : l.children fs.emptied cwd e hint = .ok all := by
      have listed : l.children fs cwd e hint = .ok all := listed
      rw [children_emptied obliging stands still isDir, listed]
    obtain ⟨_, resolved, name, node, entry, same⟩ := mem_children listed member
    rw [stands.resolved isDir] at resolved
    cases resolved
    obtain ⟨_, resolved, name', node', entry', same'⟩ := mem_children given member
    rw [still.resolved isDir] at resolved
    cases resolved
    obtain rfl : name = name' := congrArg Entry.name (same.symm.trans same')
    refine ⟨loc ++ [name], ?_, ?_⟩
    · rw [same]
      exact stands.child isDir entry
    · rw [same']
      exact still.child isDir entry'

end Lister

/-- A search that is not strict gives in a file system with directories that cannot be listed what it
gives in the one where those are empty, if its base is still there. -/
theorem Search.drain_emptied {l : Lister} (obliging : l.refused = []) (filter : Option Filter)
    {fs : FileSystem} {cwd : List Text} (options : Options) (strict : Bool) {base : Path}
    (still : fs.emptied.rootEntry cwd base = fs.rootEntry cwd base) (names : List Text)
    (segments : List Pattern) :
    ((⟨{ options with strict := strict }, [.start base names segments], []⟩ : Search).drain
        (l.world filter fs.emptied cwd)).1 =
      ((⟨{ options with strict := false }, [.start base names segments], []⟩ : Search).drain
        (l.world filter fs cwd)).1 := by
  refine drain_relieved (Lister.relieves_emptied obliging filter fs cwd) options strict base names
    segments still fun top rooted => ?_
  have rooted : fs.rootEntry cwd base = some top := rooted
  obtain ⟨loc, resolved, stands, -⟩ := FileSystem.stands_rootEntry rooted
  obtain ⟨_, resolved', still, -⟩ := FileSystem.stands_rootEntry (still.trans rooted)
  rw [FileSystem.resolve_of_emptied resolved'] at resolved
  cases resolved
  exact ⟨loc, stands, still⟩

/-- A search from below a directory that cannot be listed may give something. In the file system where
that directory is empty it gives nothing. -/
theorem Search.drain_emptied_of_sealed (l : Lister) (filter : Option Filter) {fs : FileSystem}
    {cwd : List Text} (options : Options) {base : Path} {loc : Location}
    (resolved : fs.resolve cwd base = .ok loc) (below : fs.sealed loc = true) (names : List Text)
    (segments : List Pattern) :
    ((⟨options, [.start base names segments], []⟩ : Search).drain
      (l.world filter fs.emptied cwd)).1 = ⟨[], [], none⟩ := by
  have gone : (l.world filter fs.emptied cwd).rootEntry base = none :=
    FileSystem.rootEntry_emptied_of_sealed resolved below
  rw [drain_eq_rest, outlook_opened, gone]
  rfl

end Wildpath
