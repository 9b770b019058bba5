import Mathlib.Data.List.Basic
import Wildpath.Search.Lister
import Wildpath.Proofs.Opening
import Wildpath.Proofs.Reach

/-!
# The entries that a search reaches

In a file system that stays as it is, every entry of a search is the entry below the top that its
names lead to, so its path tells the entry. A run whose trace is a selection from the trace of
another run then reports a selection from what the other one reports.
-/

set_option autoImplicit false

namespace Wildpath

/-- The entry is one that a search of the file system may reach from the top. -/
def FileSystem.Seats (fs : FileSystem) (cwd : List Text) (top : Entry) (loc : Location)
    (e : Entry) : Prop :=
  ∃ names, e = fs.entryBelow loc top names ∧ fs.Stands cwd e (loc ++ names)

namespace FileSystem

variable {fs : FileSystem} {cwd : List Text} {top : Entry} {loc : Location}

theorem rootEntry_eq {p : Path} {e : Entry} (h : fs.rootEntry cwd p = some e) :
    e.path = p ∧ e.name = p.name ∧ e.depth = 0 := by
  unfold rootEntry at h
  split at h
  · cases h
    exact ⟨rfl, rfl, rfl⟩
  · cases h

theorem seats_top (stands : fs.Stands cwd top loc) : fs.Seats cwd top loc top := by
  refine ⟨[], (entryBelow_nil stands.kind).symm, ?_⟩
  rwa [List.append_nil]

theorem Seats.eq_of_path {a b : Entry} (ha : fs.Seats cwd top loc a) (hb : fs.Seats cwd top loc b)
    (same : a.path = b.path) : a = b := by
  obtain ⟨names, rfl, -⟩ := ha
  obtain ⟨names', rfl, -⟩ := hb
  have : names = names' := by simpa [entryBelow] using same
  rw [this]

theorem Seats.name_eq (named : top.name = top.path.name) {e : Entry}
    (h : fs.Seats cwd top loc e) : e.name = e.path.name := by
  obtain ⟨names, rfl, -⟩ := h
  rcases List.eq_nil_or_concat names with rfl | ⟨before, name, rfl⟩
  · simpa [entryBelow] using named
  · simp [entryBelow, Path.name]

theorem Seats.depth_eq {e : Entry} (h : fs.Seats cwd top loc e) :
    e.path.parts.length + top.depth = top.path.parts.length + e.depth := by
  obtain ⟨names, rfl, -⟩ := h
  simp only [entryBelow, List.length_append]
  omega

end FileSystem

namespace Lister

variable {l : Lister} {fs : FileSystem} {cwd : List Text}

theorem mem_children {directory child : Entry} {hint : Option Text} {all : List Entry}
    (h : l.children fs cwd directory hint = .ok all) (member : child ∈ all) :
    ∃ loc, fs.resolve cwd directory.path = .ok loc ∧ ∃ name node,
      (name, node) ∈ fs.entries loc ∧ child = FileSystem.childEntry directory name node := by
  unfold children at h
  split at h
  · cases h
  · split at h
    · cases h
    · next list listed =>
      cases h
      obtain ⟨loc, resolved, -, given⟩ := FileSystem.children_eq_ok listed
      refine ⟨loc, resolved, given child ?_⟩
      split at member
      · exact List.mem_reverse.mp member
      · exact member

theorem seats_child {top : Entry} {loc : Location} {e child : Entry} {hint : Option Text}
    {all : List Entry} (seat : fs.Seats cwd top loc e) (isDir : e.isDirectory = true)
    (h : l.children fs cwd e hint = .ok all) (member : child ∈ all) :
    fs.Seats cwd top loc child := by
  obtain ⟨names, same, stands⟩ := seat
  obtain ⟨there, resolved, name, node, entry, rfl⟩ := mem_children h member
  rw [stands.resolved isDir] at resolved
  cases resolved
  refine ⟨names ++ [name], ?_, by simpa using stands.child isDir entry⟩
  rw [same]
  exact FileSystem.childEntry_entryBelow (FileSystem.mem_entries_iff_node?.mp entry)

end Lister

namespace Task

variable {l : Lister} {fs : FileSystem} {cwd : List Text} {options : Options} {top : Entry}
  {loc : Location}

theorem seats_trace {e : Entry} (seat : fs.Seats cwd top loc e) (filter : Option Filter)
    (names : List Text) (segments : List Pattern) :
    ∀ sign ∈ trace (l.world filter fs cwd) options (.visit e names segments),
      fs.Seats cwd top loc sign.entry ∧
        (sign.listed?.isSome = true → sign.entry.isDirectory = true) := by
  have opens : ∀ e, mayDescend options e = true → e.isDirectory = true :=
    fun e may => (Bool.and_eq_true_iff.mp may).1
  refine forall_trace (P := fs.Seats cwd top loc) ?found ?listed ?failed ?child seat names segments
  case found => exact fun e seat => ⟨seat, fun listed => by cases listed⟩
  case listed => exact fun e hint seat may => ⟨seat, fun _ => opens e may⟩
  case failed => exact fun e hint error seat may _ _ => ⟨seat, fun _ => opens e may⟩
  case child =>
    intro e hint all child seat isDir given member _
    exact Lister.seats_child seat isDir given member

theorem calm_trace_lenient {world : World} (lenient : options.strict = false) (e : Entry)
    (names : List Text) (segments : List Pattern) :
    Sign.Calm (trace world options (.visit e names segments)) := by
  refine forall_trace (P := fun _ => True) ?found ?listed ?failed ?child trivial names segments
  case found => exact fun _ _ => rfl
  case listed => exact fun _ _ _ _ => rfl
  case failed =>
    intro e hint error _ _ _ strict
    rw [lenient] at strict
    cases strict
  case child => exact fun _ _ _ _ _ _ _ _ _ => trivial

end Task

theorem Sign.directory_of_listed {sign : Sign} {d : Listed} (lists : sign.listed? = some d) :
    d.directory = sign.entry.path := by
  cases sign with
  | found => cases lists
  | _ =>
    cases lists
    rfl

theorem Sign.filterMap_filter {β : Type} {g : Sign → Option β} {keep : Sign → Bool}
    {keep' : β → Bool} {signs : List Sign}
    (same : ∀ sign ∈ signs, ∀ b ∈ g sign, keep sign = keep' b) :
    (signs.filter keep).filterMap g = (signs.filterMap g).filter keep' := by
  rw [List.filterMap_filter, List.filter_filterMap]
  refine List.filterMap_congr fun sign member => ?_
  cases read : g sign with
  | none => simp
  | some b => simp [same sign member b read, Option.filter]

namespace Search

def directoryAt (base p : Path) : Entry :=
  ⟨p, p.name, true, p.parts.length - base.parts.length⟩

theorem calm_signs {world : World} {options : Options} {base : Path} {names : List Text}
    {segments : List Pattern} (calm : options.strict = false ∨
      ((⟨options, [.start base names segments], []⟩ : Search).drain world).1.failure = none) :
    Sign.Calm ((⟨options, [.start base names segments], []⟩ : Search).outlook world).signs := by
  rcases calm with lenient | unfailed
  · rw [outlook_opened]
    cases rooted : world.rootEntry base with
    | none => simp [Sign.Calm]
    | some top => exact Task.calm_trace_lenient lenient top names segments
  · rw [drain_eq_rest] at unfailed
    exact Sign.calm_iff_untilFailure.mpr unfailed

section Opened
variable {l : Lister} {fs : FileSystem} {cwd : List Text} {filter : Option Filter}
  {options : Options} {base : Path} {names : List Text} {segments : List Pattern}
  {signs : List Sign}
variable (before : ((⟨options, [.start base names segments], []⟩ : Search).outlook
  (l.world filter fs cwd)).signs = signs)
include before

theorem seats_opened {sign : Sign} (member : sign ∈ signs) :
    ∃ top loc, fs.rootEntry cwd base = some top ∧ fs.resolve cwd base = .ok loc ∧
      fs.Seats cwd top loc sign.entry ∧
      (sign.listed?.isSome = true → sign.entry.isDirectory = true) := by
  rw [outlook_opened] at before
  subst before
  cases rooted : fs.rootEntry cwd base with
  | none => simp [Lister.world, Lister.answers, rooted] at member
  | some top =>
    obtain ⟨loc, resolved, stands, -⟩ := FileSystem.stands_rootEntry rooted
    have member : sign ∈ Task.trace (l.world filter fs cwd) options
        (.visit top names segments) := by
      simpa [Lister.world, Lister.answers, rooted] using member
    exact ⟨top, loc, rfl, resolved,
      Task.seats_trace (FileSystem.seats_top stands) filter names segments sign member⟩

theorem entry_eq_of_path {a b : Sign} (ha : a ∈ signs) (hb : b ∈ signs)
    (same : a.entry.path = b.entry.path) : a.entry = b.entry := by
  obtain ⟨top, loc, rooted, resolved, seat, -⟩ := seats_opened before ha
  obtain ⟨top', loc', rooted', resolved', seat', -⟩ := seats_opened before hb
  rw [rooted] at rooted'
  rw [resolved] at resolved'
  cases rooted'
  cases resolved'
  exact seat.eq_of_path seat' same

theorem directoryAt_eq {sign : Sign} (member : sign ∈ signs) {d : Listed}
    (listed : sign.listed? = some d) : directoryAt base d.directory = sign.entry := by
  obtain ⟨top, loc, rooted, resolved, seat, opens⟩ := seats_opened before member
  have isDir := opens (by simp [listed])
  have path := Sign.directory_of_listed listed
  obtain ⟨onTop, named, shallow⟩ := FileSystem.rootEntry_eq rooted
  have name := seat.name_eq (by rw [named, onTop])
  have depth := seat.depth_eq
  rw [onTop, shallow] at depth
  generalize sign.entry = e at *
  obtain ⟨p, own, kind, level⟩ := e
  simp only at path isDir name depth
  simp only [directoryAt, path, isDir, name, Entry.mk.injEq, true_and]
  omega

/-- A run whose signs are those of a calm run as far as they are kept reports the entries and the
listed directories that are kept. What is kept of an entry or a directory, its path tells. -/
theorem drain_selected {world : World} {options' : Options} {keep : Sign → Bool}
    (keptEntry keptDirectory : Entry → Bool) (wanted : options'.wanted = options.wanted)
    (after : ((⟨options', [.start base names segments], []⟩ : Search).outlook world).signs =
      signs.filter keep)
    (calm : Sign.Calm signs) (found : ∀ e, keep (.found e) = keptEntry e)
    (listed : ∀ sign, sign.listed?.isSome = true → keep sign = keptDirectory sign.entry) :
    ((⟨options', [.start base names segments], []⟩ : Search).drain world).1 =
      ⟨((⟨options, [.start base names segments], []⟩ : Search).drain
          (l.world filter fs cwd)).1.entries.filter keptEntry,
        ((⟨options, [.start base names segments], []⟩ : Search).drain
          (l.world filter fs cwd)).1.listed.filter fun d =>
            keptDirectory (directoryAt base d.directory), none⟩ := by
  have calm' : Sign.Calm (signs.filter keep) :=
    fun sign member => calm sign (List.mem_filter.mp member).1
  have entries : (signs.filter keep).filterMap Sign.found? =
      (signs.filterMap Sign.found?).filter keptEntry := by
    refine Sign.filterMap_filter fun sign _ e given => ?_
    cases sign with
    | found e => cases given; exact found e
    | _ => cases given
  have directories : (signs.filter keep).filterMap Sign.listed? =
      (signs.filterMap Sign.listed?).filter fun d =>
        keptDirectory (directoryAt base d.directory) := by
    refine Sign.filterMap_filter fun sign member d given => ?_
    rw [directoryAt_eq before member given, listed sign (by rw [given]; rfl)]
  have told : ∀ a ∈ signs.filterMap Sign.found?, ∀ b ∈ signs.filterMap Sign.found?,
      a.path = b.path → keptEntry a = keptEntry b := by
    intro a ha b hb same
    have : a = b :=
      entry_eq_of_path before (Sign.mem_found_iff.mp ha) (Sign.mem_found_iff.mp hb) same
    rw [this]
  rw [drain_opened _ _ _ _ _ after calm', drain_opened _ _ _ _ _ before calm, entries, directories,
    ← filter_fresh told, wanted, List.filter_comm]

end Opened
end Search
end Wildpath
