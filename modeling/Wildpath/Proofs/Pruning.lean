import Wildpath.Proofs.Canonical
import Wildpath.Proofs.Seats

/-!
# Pruning by filters

A filter leaves out entries in the middle of a search, with everything below them. What a search
with a filter gives is nevertheless a selection from what it gives without one: an entry stays if the
filter leaves out neither the entry nor a directory above it, up to the one below the root.
-/

set_option autoImplicit false

namespace Wildpath

/-- The directory that an entry was listed in. -/
def Entry.holder (e : Entry) : Entry :=
  let above : Path := { e.path with parts := e.path.parts.dropLast }
  ⟨above, above.name, true, e.depth - 1⟩

def Entry.lineUp : Nat → Entry → List Entry
  | 0, _ => []
  | n + 1, e => e :: lineUp n e.holder

/-- The entry and the directories above it, up to the one below the root of the search. -/
def Entry.line (e : Entry) : List Entry := e.lineUp e.depth

/-- The filter leaves out neither the entry nor a directory above it. -/
def Filter.spares (f : Filter) (cwd : List Text) (e : Entry) : Bool := e.line.all fun x => !f cwd x

namespace Filter

variable {f : Filter} {cwd : List Text}

theorem spares_of_depth {e : Entry} (shallow : e.depth = 0) : f.spares cwd e = true := by
  simp [spares, Entry.line, Entry.lineUp, shallow]

theorem spares_child {e child : Entry} (held : child.holder = e)
    (deeper : child.depth = e.depth + 1) :
    f.spares cwd child = (!f cwd child && f.spares cwd e) := by
  simp [spares, Entry.line, Entry.lineUp, deeper, held]

theorem spares_union (filters : List Filter) (e : Entry) :
    (union filters).spares cwd e = filters.all fun f => f.spares cwd e := by
  rw [Bool.eq_iff_iff]
  simp only [spares, union, List.all_eq_true, Bool.not_eq_true', List.any_eq_false,
    Bool.not_eq_true]
  constructor
  · exact fun h f member x above => h x above f member
  · exact fun h x above f member => h f member x above

end Filter

namespace Lister

variable {l : Lister} {fs : FileSystem} {cwd : List Text}

theorem holder_child {e child : Entry} {hint : Option Text} {all : List Entry}
    (named : e.name = e.path.name) (isDir : e.isDirectory = true)
    (h : l.children fs cwd e hint = .ok all) (member : child ∈ all) :
    child.holder = e ∧ child.depth = e.depth + 1 := by
  obtain ⟨-, -, name, node, -, rfl⟩ := mem_children h member
  obtain ⟨path, own, kind, depth⟩ := e
  cases isDir
  obtain rfl : own = path.name := named
  simp [Entry.holder, FileSystem.childEntry, Path.child]

end Lister

namespace Task

variable {l : Lister} {fs : FileSystem} {cwd : List Text} {options : Options} {top : Entry}
  {loc : Location}

variable {f : Filter}

/-- Below an entry that is not spared nothing is. -/
theorem spares_trace_eq_false (named : top.name = top.path.name) {e : Entry}
    (seat : fs.Seats cwd top loc e) (lost : f.spares cwd e = false) (filter : Option Filter)
    (names : List Text) (segments : List Pattern) :
    ∀ sign ∈ trace (l.world filter fs cwd) options (.visit e names segments),
      f.spares cwd sign.entry = false := by
  refine forall_trace (P := fun e => fs.Seats cwd top loc e ∧ f.spares cwd e = false)
    ?found ?listed ?failed ?child ⟨seat, lost⟩ names segments
  case found => exact fun e held => held.2
  case listed => exact fun e hint held _ => held.2
  case failed => exact fun e hint error held _ _ _ => held.2
  case child =>
    rintro e hint all child ⟨seat, lost⟩ isDir given member -
    obtain ⟨held, deeper⟩ := Lister.holder_child (seat.name_eq named) isDir given member
    refine ⟨Lister.seats_child seat isDir given member, ?_⟩
    rw [Filter.spares_child held deeper, lost, Bool.and_false]

theorem trace_offer_filtered (named : top.name = top.path.name) {all : List Entry}
    {segments : List Pattern}
    (children : ∀ c ∈ all, fs.Seats cwd top loc c ∧ f.spares cwd c = !f cwd c)
    (below : ∀ c ∈ all, f.spares cwd c = true →
      trace (l.world (some f) fs cwd) options (.visit c [c.name] segments) =
        (trace (l.world none fs cwd) options (.visit c [c.name] segments)).filter
          fun sign => f.spares cwd sign.entry) :
    trace (l.world (some f) fs cwd) options (.offer all segments) =
      (trace (l.world none fs cwd) options (.offer all segments)).filter
        fun sign => f.spares cwd sign.entry := by
  have bare : all.filter (fun c => !(l.world none fs cwd).excludes c) = all :=
    List.filter_eq_self.mpr fun _ _ => rfl
  rw [trace_offer, trace_offer, bare, List.filter_flatMap]
  calc
    _ = (all.filter fun c => !f cwd c).flatMap fun c =>
        (trace (l.world none fs cwd) options (.visit c [c.name] segments)).filter
          fun sign => f.spares cwd sign.entry := by
      refine List.flatMap_congr fun c member => ?_
      obtain ⟨member, kept⟩ := List.mem_filter.mp member
      exact below c member ((children c member).2.trans kept)
    _ = _ := by
      refine flatMap_filter_of_nil fun c member excluded => ?_
      obtain ⟨seat, spared⟩ := children c member
      refine List.filter_eq_nil_iff.mpr fun sign given => ?_
      rw [spares_trace_eq_false named seat (spared.trans excluded) none _ _ sign given]
      exact Bool.false_ne_true

/-- With a filter a task tells what it tells without, as far as the entries are spared. -/
theorem trace_filtered (named : top.name = top.path.name) {e : Entry}
    (seat : fs.Seats cwd top loc e) (spared : f.spares cwd e = true) (names : List Text)
    (segments : List Pattern) :
    trace (l.world (some f) fs cwd) options (.visit e names segments) =
      (trace (l.world none fs cwd) options (.visit e names segments)).filter
        fun sign => f.spares cwd sign.entry := by
  induction e, names, segments using visit_induction (l.world none fs cwd) with
  | exhausted e segments below =>
    have here : ∀ sign : Sign, sign.entry = e →
        [sign].filter (fun sign => f.spares cwd sign.entry) = [sign] := by
      intro sign same
      simp [same, spared]
    rw [trace_visit_nil, trace_visit_nil, List.filter_append]
    congr 1
    · split
      · rw [here _ rfl]
      · rfl
    cases may : mayDescend options e with
    | false => rw [trace_descend_shut may, trace_descend_shut may, List.filter_nil]
    | true =>
      have isDir : e.isDirectory = true := (Bool.and_eq_true_iff.mp may).1
      cases segments with
      | nil => simp
      | cons segment segments =>
        cases answered : l.children fs cwd e segment.hint? with
        | error error =>
          have refused : ∀ filter, (l.world filter fs cwd).children e segment.hint? =
            .error error := fun _ => answered
          rw [trace_descend_error may (refused _), trace_descend_error may (refused _)]
          split <;> rw [here _ rfl]
        | ok all =>
          have given : ∀ filter, (l.world filter fs cwd).children e segment.hint? = .ok all :=
            fun _ => answered
          have child : ∀ c ∈ all, fs.Seats cwd top loc c ∧
              f.spares cwd c = !f cwd c := by
            intro c member
            obtain ⟨held, deeper⟩ := Lister.holder_child (seat.name_eq named) isDir answered member
            refine ⟨Lister.seats_child seat isDir answered member, ?_⟩
            rw [Filter.spares_child held deeper, spared, Bool.and_true]
          rw [trace_descend_ok may (given _), trace_descend_ok may (given _),
            List.filter_cons_of_pos (by exact spared)]
          congr 1
          refine trace_offer_filtered named child fun c member kept => ?_
          exact below _ all isDir answered c member (child c member).1 kept
  | stuck e name names => simp
  | named e name names segment segments first second third =>
    rw [trace_visit_cons, trace_visit_cons, List.filter_flatMap]
    refine List.flatMap_congr fun task member => ?_
    rcases mem_visitName member with rfl | rfl | rfl
    · exact first seat spared
    · exact second seat spared
    · exact third seat spared

end Task

namespace Search

section Opened
variable {l : Lister} {fs : FileSystem} {cwd : List Text} {options : Options} {base : Path}
  {names : List Text} {segments : List Pattern} {signs : List Sign}
variable (before : ((⟨options, [.start base names segments], []⟩ : Search).outlook
  (l.world none fs cwd)).signs = signs)
include before

theorem signs_filtered (f : Filter) :
    ((⟨options, [.start base names segments], []⟩ : Search).outlook
      (l.world (some f) fs cwd)).signs = signs.filter fun sign => f.spares cwd sign.entry := by
  rw [outlook_opened] at before ⊢
  subst before
  cases rooted : fs.rootEntry cwd base with
  | none => simp [Lister.world, Lister.answers, rooted]
  | some top =>
    obtain ⟨loc, -, stands, shallow⟩ := FileSystem.stands_rootEntry rooted
    obtain ⟨onTop, named, -⟩ := FileSystem.rootEntry_eq rooted
    have spared : f.spares cwd top = true := Filter.spares_of_depth shallow
    have filtered := @Task.trace_filtered l fs cwd options top loc f (by rw [named, onTop]) top
      (FileSystem.seats_top stands) spared names segments
    simpa [Lister.world, Lister.answers, rooted] using filtered

theorem calm_opened (calm : options.strict = false ∨
    ((⟨options, [.start base names segments], []⟩ : Search).drain
      (l.world none fs cwd)).1.failure = none) : Sign.Calm signs := by
  subst before
  exact calm_signs calm

theorem rest_filtered (calm : Sign.Calm signs) (f : Filter) :
    ((⟨options, [.start base names segments], []⟩ : Search).drain (l.world (some f) fs cwd)).1 =
      ⟨((⟨options, [.start base names segments], []⟩ : Search).drain
          (l.world none fs cwd)).1.entries.filter (f.spares cwd),
        ((⟨options, [.start base names segments], []⟩ : Search).drain
          (l.world none fs cwd)).1.listed.filter fun d =>
            f.spares cwd (directoryAt base d.directory), none⟩ :=
  drain_selected before (f.spares cwd) (f.spares cwd) rfl (signs_filtered before f) calm
    (fun _ => rfl) fun _ _ => rfl

end Opened

/-- Pruning is selecting afterwards: a filter leaves of all that a search gives what it spares, and
several filters leave what each of them does. The root is always spared. -/
theorem drain_filtered (l : Lister) (fs : FileSystem) {cwd : List Text} {root : Path}
    {pattern : Text} {segments : List Pattern} (parsed : Pattern.parse pattern = .ok segments)
    {options : Options} {s : Search} (opens : start cwd root pattern options = .ok s)
    (calm : options.strict = false ∨ (s.drain (l.world none fs cwd)).1.failure = none) :
    (∀ f : Filter, (s.drain (l.world (some f) fs cwd)).1 =
      ⟨(s.drain (l.world none fs cwd)).1.entries.filter (f.spares cwd),
        (s.drain (l.world none fs cwd)).1.listed.filter fun d =>
          f.spares cwd (directoryAt (base cwd root segments) d.directory), none⟩) ∧
    (∀ filters : List Filter, (s.drain (l.world (some (.union filters)) fs cwd)).1.entries =
      (s.drain (l.world none fs cwd)).1.entries.filter fun e =>
        filters.all fun f => (s.drain (l.world (some f) fs cwd)).1.entries.contains e) ∧
    ∀ f : Filter, ∀ top, fs.rootEntry cwd (base cwd root segments) = some top →
      f.spares cwd top = true := by
  obtain ⟨_, parsed', rfl⟩ := start_eq_ok_iff.mp opens
  rw [parsed] at parsed'
  cases parsed'
  have calm := @calm_opened l fs cwd options _ _ _ _ rfl calm
  have one := @rest_filtered l fs cwd options _ _ _ _ rfl calm
  refine ⟨one, fun filters => ?_, fun f top rooted => ?_⟩
  · rw [one]
    refine List.filter_congr fun e member => ?_
    rw [Filter.spares_union]
    refine List.all_congr rfl fun f => ?_
    rw [one, Bool.eq_iff_iff, List.contains_iff_mem, List.mem_filter]
    exact ⟨fun spared => ⟨member, spared⟩, fun h => h.2⟩
  · exact Filter.spares_of_depth (FileSystem.rootEntry_eq rooted).2.2

theorem drain_filtered_sample :
    ∃ s, start [] ⟨.relative, []⟩ "**/x".toList .standard = .ok s ∧
      (s.drain (Lister.plain.world (some fun _ e => e.name == ['b']) .sample [])).1.entries =
        (s.drain (Lister.plain.world none .sample [])).1.entries.filter
          (Filter.spares (fun _ e => e.name == ['b']) []) := by
  have parsed : Pattern.parse "**/x".toList = .ok [.globstar, .component [.text ['x']]] :=
    Pattern.parse_eq_ok_iff.mpr (by cbv)
  obtain ⟨s, opens⟩ : ∃ s, start [] ⟨.relative, []⟩ "**/x".toList .standard = .ok s :=
    ⟨_, start_eq_ok_iff.mpr ⟨_, parsed, rfl⟩⟩
  obtain ⟨one, -, -⟩ := drain_filtered Lister.plain .sample parsed opens (Or.inl rfl)
  exact ⟨s, opens, by rw [one]⟩

end Search
end Wildpath