import Mathlib.Data.Set.List
import Wildpath.Proofs.Subtree
import Wildpath.Proofs.WellFormed

/-!
# Patterns without wildcards

A pattern that goes down and has no wildcard is a row of names. Searching for it is looking the names
up one after the other: every directory on the way is listed for the next name alone, nothing beside
the way is read, and the entry at its end is the only one that can be found.
-/

set_option autoImplicit false

namespace Wildpath

namespace Pattern

/-- A piece that was read and is no wildcard is a text. -/
theorem WellFormedPiece.eq_text {piece : Pattern} (h : WellFormedPiece piece)
    (plain : isMagic piece = false) : ∃ value, piece = .text value := by
  cases piece with
  | text value => exact ⟨value, rfl⟩
  | star | anyChar | oneOf | charClass => cases plain
  | anchor | globstar | component | tree => cases h

theorem literal_injective : Function.Injective literal := by
  intro name name' same
  cases same
  rfl

theorem mem_walk_self (node : Pattern) : node ∈ node.walk := by
  cases node <;> simp [walk]

theorem walk_subset_walkAll {nodes : List Pattern} {node : Pattern} (member : node ∈ nodes) :
    ∀ part ∈ node.walk, part ∈ walkAll nodes := by
  intro part inside
  induction nodes with
  | nil => cases member
  | cons first rest ih =>
    rw [walkAll, List.mem_append]
    rcases List.mem_cons.mp member with rfl | member
    · exact Or.inl inside
    · exact Or.inr (ih member)

theorem isLiteral_iff {node : Pattern} :
    node.isLiteral = true ↔ ∀ part ∈ node.walk, part.isMagic = false := by
  simp [isLiteral]

/-- A component without wildcards is one name, because neighbouring texts are read as one. -/
theorem WellFormedPieces.eq_text {pieces : List Pattern} (h : WellFormedPieces pieces)
    (plain : ∀ part ∈ walkAll pieces, part.isMagic = false) : ∃ name, pieces = [.text name] := by
  have texts : ∀ piece ∈ pieces, ∃ value, piece = .text value := by
    intro piece member
    have own := plain piece (walk_subset_walkAll member piece (mem_walk_self piece))
    exact (h.each piece member).eq_text own
  match pieces with
  | [] => exact absurd rfl h.filled
  | [piece] =>
    obtain ⟨value, rfl⟩ := texts piece List.mem_cons_self
    exact ⟨value, rfl⟩
  | piece :: next :: pieces =>
    obtain ⟨first, others⟩ := List.forall_mem_cons.mp texts
    obtain ⟨value, rfl⟩ := first
    obtain ⟨value', rfl⟩ := others next List.mem_cons_self
    have apart := h.apart
    rw [List.isChain_cons_cons] at apart
    exact apart.1.elim

theorem WellFormedSegment.eq_literal {segment : Pattern} (h : WellFormedSegment segment)
    (below : ∀ top, segment ≠ .anchor top) (plain : ∀ part ∈ segment.walk, part.isMagic = false) :
    ∃ name, segment = literal name := by
  cases segment with
  | component pieces =>
    rw [walk] at plain
    obtain ⟨name, rfl⟩ := WellFormedPieces.eq_text h (List.forall_mem_cons.mp plain).2
    exact ⟨name, rfl⟩
  | anchor top => exact absurd rfl (below top)
  | globstar =>
    have magic := plain .globstar (mem_walk_self _)
    cases magic
  | _ => exact h.elim

/-- A relative pattern without wildcards is a row of names. -/
theorem WellFormed.eq_map_literal {segments : List Pattern} (h : WellFormed segments)
    (relative : isAnchored segments = false) (plain : isLiteral (.tree segments) = true) :
    ∃ names : List Text, segments = names.map literal := by
  rw [isLiteral_iff, walk] at plain
  have plain := (List.forall_mem_cons.mp plain).2
  have each : ∀ segment ∈ segments, segment ∈ Set.range literal := by
    intro segment member
    have below : ∀ top, segment ≠ .anchor top := by
      rintro top rfl
      obtain ⟨before, after, same⟩ := List.append_of_mem member
      obtain rfl := h.top before top after same
      rw [same] at relative
      cases relative
    have parts := fun part inside => plain part (walk_subset_walkAll member part inside)
    obtain ⟨name, rfl⟩ := (h.each segment member).eq_literal below parts
    exact ⟨name, rfl⟩
  obtain ⟨names, same⟩ := (Set.range_list_map literal).symm.subset each
  exact ⟨names, same.symm⟩

end Pattern

namespace FileSystem

variable (fs : FileSystem)

/-- The names lead from the location to a node, and through directories only. -/
def Direct (loc : Location) (names : List Text) : Prop :=
  (fs.node? (loc ++ names)).isSome = true ∧
    ∀ i, i < names.length → fs.isDirectory (loc ++ names.take i) = true

instance (loc : Location) (names : List Text) : Decidable (fs.Direct loc names) :=
  inferInstanceAs (Decidable (_ ∧ _))

/-- What shows when names are looked up one after the other. -/
def lookup (loc : Location) (e : Entry) : List Text → List Sign
  | [] => [.found e]
  | name :: names =>
    if fs.isDirectory loc then
      .listed e (some name) ::
        match fs.node? (loc ++ [name]) with
        | none => []
        | some node => lookup (loc ++ [name]) (childEntry e name node) names
    else []

variable {fs}

theorem direct_cons_iff {loc : Location} {name : Text} {names : List Text} :
    fs.Direct loc (name :: names) ↔
      fs.isDirectory loc = true ∧ fs.Direct (loc ++ [name]) names := by
  unfold Direct
  simp only [List.length_cons, Nat.forall_lt_succ_left, List.take_zero, List.append_nil,
    List.take_succ_cons, List.append_assoc, List.singleton_append]
  exact and_left_comm

theorem isSome_of_isDirectory {loc : Location} (h : fs.isDirectory loc = true) :
    (fs.node? loc).isSome = true := by
  unfold isDirectory at h
  split at h
  · next found => rw [found]; rfl
  · cases h

theorem Direct.isSome {loc : Location} {names : List Text} (h : fs.Direct loc names) :
    (fs.node? loc).isSome = true := by
  cases names with
  | nil =>
    have there := h.1
    rwa [List.append_nil] at there
  | cons name names => exact isSome_of_isDirectory (direct_cons_iff.mp h).1

theorem found_lookup {loc : Location} {e : Entry} (kind : e.isDirectory = fs.isDirectory loc)
    (there : (fs.node? loc).isSome = true) (names : List Text) :
    (fs.lookup loc e names).filterMap Sign.found? =
      if fs.Direct loc names then [fs.entryBelow loc e names] else [] := by
  induction names generalizing loc e with
  | nil =>
    have direct : fs.Direct loc [] := ⟨by rwa [List.append_nil], by simp⟩
    rw [if_pos direct, entryBelow_nil kind]
    rfl
  | cons name names ih =>
    rw [lookup]
    simp only [direct_cons_iff]
    cases dir : fs.isDirectory loc with
    | false => simp
    | true =>
      cases found : fs.node? (loc ++ [name]) with
      | none =>
        have lost : ¬ fs.Direct (loc ++ [name]) names := by
          intro direct
          have := direct.isSome
          rw [found] at this
          cases this
        simp [lost, Sign.found?]
      | some node =>
        have below := @ih (loc ++ [name]) (childEntry e name node)
          (isDirectory_of_node? found).symm (by rw [found]; rfl)
        rw [if_pos rfl, List.filterMap_cons_none (by rfl), below, @entryBelow_cons fs loc e name node]
        simp

theorem listed_lookup (loc : Location) (e : Entry) (names : List Text) :
    (fs.lookup loc e names).filterMap Sign.listed? =
      ((List.range names.length).takeWhile fun i => fs.isDirectory (loc ++ names.take i)).map
        fun i => ⟨e.path.down (names.take i), names[i]?⟩ := by
  induction names generalizing loc e with
  | nil => rfl
  | cons name names ih =>
    rw [lookup, List.length_cons, List.range_succ_eq_map, List.takeWhile_cons, List.takeWhile_map]
    cases dir : fs.isDirectory loc with
    | false => simp [dir]
    | true =>
      have path : ∀ i, e.path.down (name :: names.take i) =
          (e.path.child name).down (names.take i) := by
        simp [Path.down, Path.child]
      have place : ∀ i, loc ++ name :: names.take i = loc ++ [name] ++ names.take i := by simp
      simp only [if_true, List.filterMap_cons, Sign.listed?, List.take_zero, List.append_nil, dir,
        List.map_cons, List.map_map, Function.comp_def, List.take_succ_cons, path,
        place, List.getElem?_cons_zero, List.getElem?_cons_succ]
      congr 1
      · simp [Path.down]
      · cases found : fs.node? (loc ++ [name]) with
        | none =>
          have shut : fs.isDirectory (loc ++ [name]) = false := by simp [isDirectory, found]
          cases names with
          | nil => rfl
          | cons next names => simp [List.range_succ_eq_map, shut]
        | some node => exact ih (loc ++ [name]) (childEntry e name node)

end FileSystem

namespace Task

variable {fs : FileSystem} {cwd : List Text} {world : World} {options : Options}

/-- A segment for one name goes on where it meets that name. -/
theorem trace_visit_literal (e : Entry) (name value : Text) (names : List Text)
    (segments : List Pattern) :
    trace world options (.visit e (name :: names) (Pattern.literal value :: segments)) =
      if name = value then trace world options (.visit e names segments) else [] := by
  rw [trace_visit_cons, Pattern.literal, visitName]
  simp only [Pattern.acceptsName_text_iff]
  split <;> simp

variable (shows : world.Shows fs cwd) (readable : fs.Readable)
include shows readable

/-- A search for names looks them up, whatever it may do with hidden names. -/
theorem trace_literal (unbounded : options.maxDepth = none) {e : Entry} {loc : Location}
    (stands : fs.Stands cwd e loc) (names : List Text) :
    trace world options (.visit e [] (names.map Pattern.literal)) = fs.lookup loc e names := by
  induction names generalizing e loc with
  | nil => simp [trace_visit_nil, FileSystem.lookup]
  | cons name names ih =>
    have hint : (Pattern.literal name).hint? = some name := by
      simp [Pattern.literal, Pattern.hint?, Pattern.flat?]
    rw [List.map_cons, trace_visit_nil, FileSystem.lookup, ← stands.kind]
    cases isDir : e.isDirectory with
    | false =>
      have shut : mayDescend options e = false := by simp [mayDescend, isDir]
      rw [trace_descend_shut shut]
      rfl
    | true =>
      have may : mayDescend options e = true := by simp [mayDescend, isDir, unbounded]
      have listed := readable.children stands isDir
      rw [← shows.lists e (Pattern.literal name).hint?] at listed
      have all : ∀ children : List Entry,
          (children.filter fun child => !world.excludes child) = children := by
        intro children
        exact List.filter_eq_self.mpr fun child _ => by rw [shows.keeps]; rfl
      rw [trace_descend_ok may listed, trace_offer, hint, all, List.flatMap_map]
      have named : ∀ entry : Text × Node,
          (FileSystem.childEntry e entry.1 entry.2).name = entry.1 := fun _ => rfl
      simp only [named, trace_visit_literal]
      refine congrArg (Sign.listed e (some name) :: ·) ?_
      cases found : fs.node? (loc ++ [name]) with
      | none =>
        apply List.flatMap_eq_nil_iff.mpr
        intro entry member
        apply if_neg
        rintro rfl
        rw [FileSystem.mem_entries_iff_node?.mp member] at found
        cases found
      | some node =>
        have member := FileSystem.mem_entries_iff_node?.mpr found
        rw [flatMap_eq_of_key (fs.nodup_entries loc) member]
        · rw [if_pos rfl]
          exact ih (stands.child isDir member)
        · intro entry _ other
          exact if_neg other

end Task

namespace Cursor

variable {fs : FileSystem} {cwd : List Text}

/-- What a search for names is to show. -/
theorem signs_literal {world : World} (shows : world.Shows fs cwd) (readable : fs.Readable)
    {root : Path} {loc : Location} (resolved : fs.resolve cwd root = .ok loc)
    (dir : fs.isDirectory loc = true) {names : List Text} (descends : parentName ∉ names)
    (hidden strict : Bool) :
    ((opened cwd root (names.map Pattern.literal) hidden strict).outlook world).signs =
      fs.lookup loc ⟨root, root.name, true, 0⟩ names := by
  have relative : Pattern.isAnchored (names.map Pattern.literal) = false := by
    cases names <;> rfl
  have still : Pattern.parent ∉ names.map Pattern.literal := by
    intro member
    obtain ⟨name, member, same⟩ := List.mem_map.mp member
    cases same
    exact descends member
  have rooted : fs.rootEntry cwd root = some ⟨root, root.name, true, 0⟩ := by
    simp [FileSystem.rootEntry, resolved, dir]
  have stands : fs.Stands cwd ⟨root, root.name, true, 0⟩ loc := ⟨dir.symm, fun _ => resolved⟩
  rw [signs_opened shows, Search.base_of_still relative still, rooted,
    Search.remaining_of_still relative still, Search.baseNames_relative relative]
  exact Task.trace_literal shows readable rfl stands names

/-- Draining a search for names gives the entry that they lead to, if they do, and lists the
directories on the way, each for the name that follows. -/
theorem drain_literal (readable : fs.Readable) {root : Path} {loc : Location}
    (resolved : fs.resolve cwd root = .ok loc) (dir : fs.isDirectory loc = true) {pattern : Text}
    {segments : List Pattern} (parsed : Pattern.parse pattern = .ok segments)
    (relative : Pattern.isAnchored segments = false) (descends : Pattern.parent ∉ segments)
    (plain : Pattern.isLiteral (.tree segments) = true) (hidden strict : Bool) :
    ∃ names c, segments = names.map Pattern.literal ∧
      start fs cwd (.plain root pattern hidden strict) = .ok c ∧
      (c.drain fs cwd).1.failure = none ∧
      (c.drain fs cwd).1.entries = (if fs.Direct loc names then
        [fs.entryBelow loc ⟨root, root.name, true, 0⟩ names] else []) ∧
      (c.drain fs cwd).1.listed =
        ((List.range names.length).takeWhile fun i => fs.isDirectory (loc ++ names.take i)).map
          fun i => ⟨root.down (names.take i), names[i]?⟩ := by
  have wellFormed := (Pattern.parse_eq_ok_iff_written.mp parsed).wellFormed
  obtain ⟨names, rfl⟩ := wellFormed.eq_map_literal relative plain
  have descends : parentName ∉ names := fun member => descends (List.mem_map_of_mem member)
  obtain ⟨started, opens⟩ := @start_plain fs cwd root pattern _ parsed hidden strict
  have shows := @shows_unhinted fs cwd
  have calm := calm_opened shows readable root (names.map Pattern.literal) hidden strict
  have drained : (drain ⟨opened cwd root (names.map Pattern.literal) hidden strict, .plain, none⟩
      fs cwd).1 = _ := @Search.drain_eq_unhinted fs cwd .plain none _ _ _ _ started
  rw [Search.Outlook.rest_of_calm calm, signs_literal shows readable resolved dir descends,
    FileSystem.listed_lookup, FileSystem.found_lookup dir.symm
      (FileSystem.isSome_of_isDirectory dir)] at drained
  refine ⟨names, _, rfl, opens, by rw [drained], ?_, by rw [drained]⟩
  rw [drained]
  split <;> rfl

theorem drain_literal_sample :
    ∃ c, start .sample [] (.plain ⟨.relative, []⟩ "a//./.h".toList false true) = .ok c ∧
      (c.drain .sample []).1.entries =
        [⟨⟨.relative, [['a'], ['.', 'h']]⟩, ['.', 'h'], false, 2⟩] ∧
      (c.drain .sample []).1.listed =
        [⟨⟨.relative, []⟩, some ['a']⟩, ⟨⟨.relative, [['a']]⟩, some ['.', 'h']⟩] := by
  have parsed : Pattern.parse "a//./.h".toList =
      .ok [.component [.text ['a']], .component [.text ['.', 'h']]] :=
    Pattern.parse_eq_ok_iff.mpr (by cbv)
  have descends : Pattern.parent ∉
      [Pattern.component [.text ['a']], .component [.text ['.', 'h']]] := by
    simp [Pattern.parent, parentName]
  obtain ⟨names, c, same, opens, -, entries, listed⟩ := drain_literal FileSystem.readable_sample
    FileSystem.resolve_sample (by decide) parsed rfl descends (by simp [Pattern.isLiteral,
      Pattern.walk, Pattern.walkAll, Pattern.isMagic]) false true
  obtain rfl : [['a'], ['.', 'h']] = names :=
    List.map_injective_iff.mpr Pattern.literal_injective same
  exact ⟨c, opens, entries.trans (by decide), listed.trans (by decide)⟩

end Cursor
end Wildpath
