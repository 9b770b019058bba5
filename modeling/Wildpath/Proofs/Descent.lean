import Wildpath.Proofs.Residue
import Wildpath.Proofs.Trace

/-!
# Ways down from an entry

Where the listing of a directory does not depend on the hint, a search finds below an entry just
what its listings lead to, under the limits and the filter, by names that the segments match. No
directory needs to be readable: one that is refused leads nowhere.
-/

set_option autoImplicit false

namespace Wildpath

open Pattern (Matches)

/-- The second path is the first one or goes on from it. -/
def Path.Reaches (p q : Path) : Prop := p.anchor = q.anchor ∧ p.parts <+: q.parts

instance (p q : Path) : Decidable (p.Reaches q) := inferInstanceAs (Decidable (_ ∧ _))

theorem Path.reaches_append_iff {p : Path} {names names' : List Text} :
    Reaches { p with parts := p.parts ++ names } { p with parts := p.parts ++ names' } ↔
      names <+: names' := by
  simp [Reaches, List.prefix_append_right_inj]

/-- The listing of a directory does not depend on the hint, and its entries, each one level below
it, have different names. -/
structure World.Steady (world : World) : Prop where
  unhinted : ∀ directory hint, world.children directory hint = world.children directory none
  placed : ∀ directory all, world.children directory none = .ok all → ∀ child ∈ all,
    child.path = directory.path.child child.name ∧ child.depth = directory.depth + 1
  distinct : ∀ directory all, world.children directory none = .ok all → (all.map (·.name)).Nodup

/-- The names lead a search from the first entry down to the second. -/
inductive World.Leads (world : World) (options : Options) : Entry → List Text → Entry → Prop where
  | here (e : Entry) : Leads world options e [] e
  | through {e child x : Entry} {all : List Entry} {names : List Text} :
    Task.mayDescend options e = true → world.children e none = .ok all → child ∈ all →
    world.excludes child = false → Leads world options child names x →
    Leads world options e (child.name :: names) x

namespace World

variable {world : World} {options : Options}

/-- The children that a search visits below an entry, in the order of the listing. -/
def offered (world : World) (options : Options) (e : Entry) : List Entry :=
  if Task.mayDescend options e then
    match world.children e none with
    | .ok all => all.filter fun child => !world.excludes child
    | .error _ => []
  else []

theorem mem_offered_iff {e child : Entry} :
    child ∈ world.offered options e ↔ ∃ all, Task.mayDescend options e = true ∧
      world.children e none = .ok all ∧ child ∈ all ∧ world.excludes child = false := by
  unfold offered
  cases may : Task.mayDescend options e with
  | false => simp
  | true =>
    cases listed : world.children e none with
    | error error => simp
    | ok all => simp

/-- What holds of a listing in its order holds of the children that are visited. -/
theorem pairwise_offered {S : Entry → Entry → Prop} {e : Entry}
    (h : ∀ all, world.children e none = .ok all → all.Pairwise S) :
    (world.offered options e).Pairwise S := by
  unfold offered
  split
  · cases listed : world.children e none with
    | error error => exact List.Pairwise.nil
    | ok all => exact (h all listed).filter _
  · exact List.Pairwise.nil

section Steady
variable (steady : world.Steady)
include steady

theorem Steady.pairwise_names {e : Entry} {all : List Entry}
    (listed : world.children e none = .ok all) : all.Pairwise fun a b => a.name ≠ b.name :=
  List.pairwise_map.mp (steady.distinct e all listed)

theorem Leads.path_eq {e x : Entry} {names : List Text} (h : world.Leads options e names x) :
    x.path = { e.path with parts := e.path.parts ++ names } := by
  induction h with
  | here e => simp
  | @through e child x all names _ listed member _ _ ih =>
    have placed := (steady.placed e all listed child member).1
    rw [ih, placed]
    simp [Path.child]

theorem Leads.path_eq_of_child {e child x : Entry} {all : List Entry} {names : List Text}
    (listed : world.children e none = .ok all) (member : child ∈ all)
    (leads : world.Leads options child names x) :
    x.path = { e.path with parts := e.path.parts ++ child.name :: names } := by
  rw [leads.path_eq steady, (steady.placed e all listed child member).1]
  simp [Path.child]

theorem Leads.path_eq_of_offered {e child x : Entry} {names : List Text}
    (given : child ∈ world.offered options e) (leads : world.Leads options child names x) :
    x.path = { e.path with parts := e.path.parts ++ child.name :: names } := by
  obtain ⟨all, -, listed, member, -⟩ := mem_offered_iff.mp given
  exact leads.path_eq_of_child steady listed member

end Steady
end World

namespace Task

variable {world : World} {options : Options}

/-- A visit under a name is one visit under the names that follow for every end of the segments that
the name leaves. -/
theorem trace_visit_after (entry : Entry) (name : Text) (names : List Text)
    (segments : List Pattern) :
    trace world options (.visit entry (name :: names) segments) =
      (Pattern.after ⟨name, options.hidden || entry.depth == 0⟩ segments).flatMap fun left =>
        trace world options (.visit entry names left) := by
  induction segments with
  | nil => simp [Pattern.after]
  | cons segment segments ih =>
    rw [trace_visit_cons]
    cases segment with
    | globstar =>
      simp only [visitName, Pattern.after, Waypoint.spanned_iff, List.flatMap_cons,
        List.flatMap_append, ih]
      split <;> simp
    | anchor top =>
      simp only [visitName, Pattern.after]
      split <;> simp
    | component pieces =>
      simp only [visitName, Pattern.after]
      split <;> simp
    | _ => simp [visitName, Pattern.after]

/-- A `**` first stands aside and then takes the name, if it may. -/
theorem trace_visit_globstar (entry : Entry) (name : Text) (names : List Text)
    (segments : List Pattern) :
    trace world options (.visit entry (name :: names) (.globstar :: segments)) =
      trace world options (.visit entry (name :: names) segments) ++
        if (⟨name, options.hidden || entry.depth == 0⟩ : Waypoint).Spanned then
          trace world options (.visit entry names (.globstar :: segments))
        else [] := by
  rw [trace_visit_after, trace_visit_after, Pattern.after, List.flatMap_append]
  congr 1
  split <;> simp

section Steady
variable (steady : world.Steady)
include steady

/-- Below an entry a search finds what it finds at the children that it visits. -/
theorem found_descend (e : Entry) (segments : List Pattern) :
    (trace world options (.descend e segments)).filterMap Sign.found? =
      (world.offered options e).flatMap fun child =>
        (trace world options (.visit child [child.name] segments)).filterMap Sign.found? := by
  rcases trace_descend_cases world options e segments with ⟨none | shut, same⟩ |
    ⟨segment, later, error, rfl, may, answered, same⟩ | ⟨segment, later, all, rfl, may, listed, same⟩
  · subst none
    rw [same]
    simp
  · rw [same, World.offered, shut]
    simp
  · rw [steady.unhinted] at answered
    rw [same, World.offered, may, answered]
    split <;> rfl
  · rw [steady.unhinted] at listed
    rw [same, World.offered, may, listed, List.filterMap_cons_none (by rfl), List.filterMap_flatMap]
    rfl

theorem found_mem_descend_iff {entry x : Entry} {segments : List Pattern} :
    .found x ∈ trace world options (.descend entry segments) ↔
      ∃ child ∈ world.offered options entry,
        .found x ∈ trace world options (.visit child [child.name] segments) := by
  simp only [← Sign.mem_found_iff, found_descend steady, List.mem_flatMap]

/-- A search finds what the names below lead to, if the segments match them. -/
theorem found_mem_steady_iff (entry : Entry) (names : List Text) (segments : List Pattern)
    (x : Entry) : .found x ∈ trace world options (.visit entry names segments) ↔
      ∃ below, world.Leads options entry below x ∧
        Matches segments (waypoints (options.hidden || entry.depth == 0) names ++
          waypoints options.hidden below) := by
  induction entry, names, segments using names_induction world with
  | exhausted entry segments inside =>
    have deeper : ∀ child ∈ world.offered options entry,
        (.found x ∈ trace world options (.visit child [child.name] segments) ↔
          ∃ below, world.Leads options child below x ∧
            Matches segments (waypoints options.hidden (child.name :: below))) := by
      intro child given
      obtain ⟨all, may, listed, member, -⟩ := World.mem_offered_iff.mp given
      have isDir : entry.isDirectory = true := (Bool.and_eq_true_iff.mp may).1
      have found := inside none all isDir listed child member
      have depth := (steady.placed entry all listed child member).2
      simpa [depth, waypoints] using found
    rw [trace_visit_nil, List.mem_append, found_mem_descend_iff steady]
    constructor
    · intro h
      rcases h with here | ⟨child, given, found⟩
      · split at here
        · next ended =>
          cases List.mem_singleton.mp here
          exact ⟨[], .here _, Matches.nil_right_iff.mpr ended⟩
        · cases here
      · obtain ⟨below, leads, matched⟩ := (deeper child given).mp found
        obtain ⟨all, may, listed, member, kept⟩ := World.mem_offered_iff.mp given
        exact ⟨child.name :: below, .through may listed member kept leads, matched⟩
    · intro h
      obtain ⟨below, leads, matched⟩ := h
      cases leads with
      | here =>
        have ended : segments.all Pattern.isGlobstar = true := Matches.nil_right_iff.mp matched
        simp [ended]
      | @through _ child _ all below may listed member kept leads =>
        have given := World.mem_offered_iff.mpr ⟨all, may, listed, member, kept⟩
        exact Or.inr ⟨child, given, (deeper child given).mpr ⟨below, leads, matched⟩⟩
  | named entry name names segments shorter =>
    rw [trace_visit_after, List.mem_flatMap]
    constructor
    · intro h
      obtain ⟨left, taken, found⟩ := h
      obtain ⟨below, leads, matched⟩ := (shorter left).mp found
      exact ⟨below, leads, Pattern.matches_cons_iff.mpr ⟨left, taken, matched⟩⟩
    · intro h
      obtain ⟨below, leads, matched⟩ := h
      obtain ⟨left, taken, matched⟩ := Pattern.matches_cons_iff.mp matched
      exact ⟨left, taken, (shorter left).mpr ⟨below, leads, matched⟩⟩

theorem leads_of_found {entry x : Entry} {names : List Text} {segments : List Pattern}
    (found : x ∈ (trace world options (.visit entry names segments)).filterMap Sign.found?) :
    ∃ below, world.Leads options entry below x := by
  rw [Sign.mem_found_iff, found_mem_steady_iff steady] at found
  obtain ⟨below, leads, -⟩ := found
  exact ⟨below, leads⟩

end Steady
end Task
end Wildpath
