import Mathlib.Data.List.Permutation
import Wildpath.Proofs.Order
import Wildpath.Proofs.Steps
import Wildpath.Proofs.Subtree

/-!
# Searching with and without hidden names

Where hidden names are allowed, a search goes every way that it goes where they are not, and then
some. What it shows on the ways it gains lies behind a hidden name below the base of the search, and
what it shows otherwise comes in the same order. So it gives the same entries and others with a hidden
name on the way, unless it ends early with an error at a directory behind such a name.
-/

set_option autoImplicit false

namespace Wildpath

namespace Path

/-- The path leads down from the base through a hidden name. The names of the base do not count. -/
def HiddenBelow (base p : Path) : Prop :=
  ∃ names, p = base.down names ∧ ∃ name ∈ names, Text.startsHidden name = true

variable {base p : Path} {way : List Text} {name : Text}

theorem child_down (base : Path) (way : List Text) (name : Text) :
    (base.down way).child name = base.down (way ++ [name]) := by
  simp [down, child]

theorem HiddenBelow.child (h : base.HiddenBelow p) (name : Text) :
    base.HiddenBelow (p.child name) := by
  obtain ⟨names, rfl, hidden, member, starts⟩ := h
  exact ⟨names ++ [name], child_down base names name, hidden, List.mem_append_left _ member, starts⟩

theorem hiddenBelow_child (hidden : Text.startsHidden name = true) :
    base.HiddenBelow ((base.down way).child name) :=
  ⟨way ++ [name], child_down base way name, name, by simp, hidden⟩

end Path

namespace Pattern

variable {name : Text} {free : Bool}

theorem acceptsName_of_visible (visible : Text.startsHidden name = false) (pieces : List Pattern) :
    acceptsName free pieces name = acceptsName true pieces name := by
  simp [acceptsName, visible]

theorem acceptsName_mono {pieces : List Pattern} (h : acceptsName free pieces name = true) :
    acceptsName true pieces name = true := by
  unfold acceptsName at h ⊢
  split at h
  · cases pieces with
    | nil => cases h
    | cons first later => exact (Bool.and_eq_true_iff.mp h).2
  · exact h

/-- A name that is not hidden leaves the same segments, whether hidden names are allowed or not. -/
theorem after_of_visible (visible : Text.startsHidden name = false) (segments : List Pattern) :
    after ⟨name, free⟩ segments = after ⟨name, true⟩ segments := by
  induction segments with
  | nil => rfl
  | cons segment segments ih =>
    cases segment with
    | globstar => simp [after, ih, Waypoint.Spanned, visible]
    | component pieces => simp only [after, acceptsName_of_visible visible]
    | _ => rfl

theorem after_sublist (name : Text) (free : Bool) (segments : List Pattern) :
    (after ⟨name, free⟩ segments).Sublist (after ⟨name, true⟩ segments) := by
  induction segments with
  | nil => exact .slnil
  | cons segment segments ih =>
    cases segment with
    | globstar =>
      have spanned : (⟨name, true⟩ : Waypoint).Spanned := Or.inl rfl
      simp only [after, spanned, if_true]
      apply ih.append
      split
      · exact List.Sublist.refl _
      · exact List.nil_sublist _
    | component pieces =>
      simp only [after]
      split
      · next accepted => rw [if_pos (acceptsName_mono accepted)]
      · exact List.nil_sublist _
    | _ => exact List.Sublist.refl _

end Pattern

namespace Sign

/-- The first signs are the second ones without some that are gone. -/
inductive Thinned (gone : Sign → Prop) : List Sign → List Sign → Prop where
  | nil : Thinned gone [] []
  | keep (sign : Sign) {thin full : List Sign} : Thinned gone thin full →
    Thinned gone (sign :: thin) (sign :: full)
  | drop {sign : Sign} {thin full : List Sign} : gone sign → Thinned gone thin full →
    Thinned gone thin (sign :: full)

namespace Thinned

variable {gone : Sign → Prop} {thin full thin' full' : List Sign}

theorem refl (signs : List Sign) : Thinned gone signs signs := by
  induction signs with
  | nil => exact .nil
  | cons sign signs ih => exact .keep sign ih

theorem append (h : Thinned gone thin full) (h' : Thinned gone thin' full') :
    Thinned gone (thin ++ thin') (full ++ full') := by
  induction h with
  | nil => exact h'
  | keep sign _ ih => exact .keep sign ih
  | drop lost _ ih => exact .drop lost ih

theorem of_gone (h : ∀ sign ∈ full, gone sign) : Thinned gone [] full := by
  induction full with
  | nil => exact .nil
  | cons sign full ih =>
    obtain ⟨first, others⟩ := List.forall_mem_cons.mp h
    exact .drop first (ih others)

theorem flatMap {α : Type} {f g : α → List Sign} {l : List α} (h : ∀ a ∈ l, Thinned gone (f a) (g a)) :
    Thinned gone (l.flatMap f) (l.flatMap g) := by
  induction l with
  | nil => exact .nil
  | cons a l ih =>
    obtain ⟨first, others⟩ := List.forall_mem_cons.mp h
    exact first.append (ih others)

theorem flatMap_sublist {α : Type} {f g : α → List Sign} {l l' : List α} (sub : l'.Sublist l)
    (h : ∀ a ∈ l, Thinned gone (f a) (g a)) (lost : ∀ a ∈ l, ∀ sign ∈ g a, gone sign) :
    Thinned gone (l'.flatMap f) (l.flatMap g) := by
  induction sub with
  | slnil => exact .nil
  | cons a _ ih =>
    obtain ⟨-, others⟩ := List.forall_mem_cons.mp h
    obtain ⟨first, later⟩ := List.forall_mem_cons.mp lost
    exact (of_gone first).append (ih others later)
  | cons_cons a _ ih =>
    obtain ⟨first, others⟩ := List.forall_mem_cons.mp h
    obtain ⟨-, later⟩ := List.forall_mem_cons.mp lost
    exact first.append (ih others later)

/-- Before the first failure nothing is missing but what is gone. -/
theorem mem_of_kept (h : Thinned gone thin full) {sign : Sign} (kept : ¬ gone sign)
    (member : sign ∈ Sign.untilFailure full) : sign ∈ Sign.untilFailure thin := by
  induction h with
  | nil => exact member
  | @keep first thin full _ ih =>
    rw [Sign.untilFailure] at member ⊢
    split at member
    · next failed => rwa [if_pos failed]
    · next calm =>
      rw [if_neg calm]
      rcases List.mem_cons.mp member with rfl | member
      · exact List.mem_cons_self
      · exact List.mem_cons_of_mem first (ih member)
  | @drop first thin full lost _ ih =>
    have other : sign ≠ first := by
      rintro rfl
      exact kept lost
    rw [Sign.untilFailure] at member
    split at member
    · exact absurd (List.mem_singleton.mp member) other
    · exact ih (List.mem_of_ne_of_mem other member)

/-- Where the first failure is not one of those that are gone, the same holds up to it. -/
theorem untilFailure (h : Thinned gone thin full)
    (kept : ∀ sign ∈ Sign.untilFailure full, sign.failure?.isSome = true → ¬ gone sign) :
    Thinned gone (Sign.untilFailure thin) (Sign.untilFailure full) := by
  induction h with
  | nil => exact .nil
  | @keep first thin full _ ih =>
    rw [Sign.untilFailure] at kept
    rw [Sign.untilFailure, Sign.untilFailure]
    split
    · exact refl _
    · next calm =>
      rw [if_neg calm] at kept
      exact .keep first (ih (List.forall_mem_cons.mp kept).2)
  | @drop first thin full lost _ ih =>
    rw [Sign.untilFailure] at kept ⊢
    split at kept
    · next failed => exact absurd lost (kept first List.mem_cons_self failed)
    · next calm =>
      rw [if_neg calm]
      exact .drop lost (ih (List.forall_mem_cons.mp kept).2)

theorem subset (h : Thinned gone thin full) : thin ⊆ full := by
  intro sign member
  induction h with
  | nil => exact member
  | keep first _ ih =>
    rcases List.mem_cons.mp member with rfl | member
    · exact List.mem_cons_self
    · exact List.mem_cons_of_mem first (ih member)
  | drop _ _ ih => exact List.mem_cons_of_mem _ (ih member)

/-- What nothing that is gone shows is the same. -/
theorem filterMap_eq (h : Thinned gone thin full) {β : Type} {f : Sign → Option β}
    (blank : ∀ sign ∈ full, gone sign → f sign = none) : thin.filterMap f = full.filterMap f := by
  induction h with
  | nil => rfl
  | keep first _ ih =>
    have blank := (List.forall_mem_cons.mp blank).2
    simp only [List.filterMap_cons, ih blank]
  | drop lost _ ih =>
    obtain ⟨own, blank⟩ := List.forall_mem_cons.mp blank
    rw [List.filterMap_cons_none (own lost), ih blank]

end Thinned
end Sign

namespace Task

variable {world : World} {options : Options} {base : Path}
variable (placed : ∀ directory hint all, world.children directory hint = .ok all → ∀ child ∈ all,
  child.path = directory.path.child child.name ∧ child.depth = directory.depth + 1)
include placed

/-- What a visit shows lies at its entry or below it. -/
theorem hiddenBelow_trace {e : Entry} (hidden : base.HiddenBelow e.path) (names : List Text)
    (segments : List Pattern) :
    ∀ sign ∈ trace world options (.visit e names segments), base.HiddenBelow sign.entry.path := by
  refine forall_trace (P := fun e => base.HiddenBelow e.path) ?found ?listed ?failed ?child hidden
    names segments
  case found => exact fun _ hidden => hidden
  case listed => exact fun _ _ hidden _ => hidden
  case failed => exact fun _ _ _ hidden _ _ _ => hidden
  case child =>
    intro e hint all child hidden _ listed member _
    rw [(placed e hint all listed child member).1]
    exact hidden.child child.name

/-- Not to allow hidden names costs a visit only what lies behind one. The names of the base are taken
under the same rule either way. -/
theorem thinned_trace (allowed : options.hidden = true) (e : Entry) (names : List Text)
    (segments : List Pattern) (below : ∃ way, e.path = base.down way)
    (own : e.depth ≠ 0 → ∀ name ∈ names, Text.startsHidden name = true →
      base.HiddenBelow e.path) :
    Sign.Thinned (fun sign => base.HiddenBelow sign.entry.path)
      (trace world { options with hidden := false } (.visit e names segments))
      (trace world options (.visit e names segments)) := by
  induction e, names, segments using names_induction world with
  | exhausted e segments inside =>
    rw [trace_visit_nil, trace_visit_nil]
    apply (Sign.Thinned.refl _).append
    cases segments with
    | nil =>
      rw [trace_descend_nil, trace_descend_nil]
      exact .nil
    | cons segment later =>
      have same : mayDescend { options with hidden := false } e = mayDescend options e := rfl
      cases may : mayDescend options e with
      | false =>
        rw [trace_descend_shut may, trace_descend_shut (same.trans may)]
        exact .nil
      | true =>
        have isDir : e.isDirectory = true := (Bool.and_eq_true_iff.mp may).1
        cases listed : world.children e segment.hint? with
        | error error =>
          rw [trace_descend_error may listed, trace_descend_error (same.trans may) listed]
          exact Sign.Thinned.refl _
        | ok all =>
          rw [trace_descend_ok may listed, trace_descend_ok (same.trans may) listed, trace_offer,
            trace_offer]
          apply Sign.Thinned.keep
          apply Sign.Thinned.flatMap
          intro child member
          have member := (List.mem_filter.mp member).1
          obtain ⟨path, -⟩ := placed e _ all listed child member
          obtain ⟨way, onWay⟩ := below
          rw [onWay] at path
          apply inside _ all isDir listed child member
          · exact ⟨way ++ [child.name], path.trans (Path.child_down base way child.name)⟩
          · intro _ name named starts
            obtain rfl := List.mem_singleton.mp named
            rw [path]
            exact Path.hiddenBelow_child starts
  | named e name names segments shorter =>
    rw [trace_visit_after, trace_visit_after]
    simp only [allowed, Bool.true_or, Bool.false_or]
    have own' : e.depth ≠ 0 → ∀ name ∈ names, Text.startsHidden name = true →
        base.HiddenBelow e.path :=
      fun deep name member => own deep name (List.mem_cons_of_mem _ member)
    have shorter := fun left => shorter left below own'
    by_cases shallow : e.depth = 0
    · rw [shallow]
      exact Sign.Thinned.flatMap fun left _ => shorter left
    · cases starts : Text.startsHidden name with
      | false =>
        rw [Pattern.after_of_visible starts]
        exact Sign.Thinned.flatMap fun left _ => shorter left
      | true =>
        have hidden := own shallow name List.mem_cons_self starts
        exact Sign.Thinned.flatMap_sublist (Pattern.after_sublist name _ segments)
          (fun left _ => shorter left) fun left _ => hiddenBelow_trace placed hidden names left

end Task

namespace Sign

theorem entry_of_failure {sign : Sign} {error : ListingError} (failed : sign.failure? = some error) :
    sign.entry.path = error.directory := by
  cases sign with
  | failed directory hint cause =>
    cases failed
    rfl
  | _ => cases failed

theorem failure_of_unlisted {sign : Sign} (unlisted : sign.listed? = none) :
    sign.failure? = none := by
  cases sign with
  | failed => cases unlisted
  | _ => rfl

theorem failure_of_mem {signs : List Sign} {sign : Sign} (member : sign ∈ untilFailure signs)
    {error : ListingError} (failed : sign.failure? = some error) :
    (untilFailure signs).findSome? failure? = some error := by
  induction signs with
  | nil => cases member
  | cons first signs ih =>
    rw [untilFailure] at member ⊢
    split at member
    · next ends =>
      obtain rfl := List.mem_singleton.mp member
      rw [if_pos ends, List.findSome?_cons, failed]
    · next calm =>
      have none : first.failure? = none := by simpa using calm
      rcases List.mem_cons.mp member with rfl | member
      · rw [failed] at none
        cases none
      · rw [if_neg calm, List.findSome?_cons, none]
        exact ih member

end Sign

namespace Search

section Opened
variable (l : Lister) (fs : FileSystem) (cwd : List Text) (filter : Option Filter)
  (options : Options) (base : Path) (names : List Text) (segments : List Pattern)

/-- What a search shows until it fails or is done. -/
def signs : List Sign :=
  Sign.untilFailure ((⟨options, [.start base names segments], []⟩ : Search).outlook
    (l.world filter fs cwd)).signs

variable {l fs cwd filter options base names segments}

theorem found_eq_of_path {a b : Entry} (ha : .found a ∈ signs l fs cwd filter options base names segments)
    (hb : .found b ∈ signs l fs cwd filter options base names segments) (same : a.path = b.path) :
    a = b := by
  have inside := (Sign.untilFailure_prefix ((⟨options, [.start base names segments], []⟩ :
    Search).outlook (l.world filter fs cwd)).signs).subset
  exact entry_eq_of_path rfl (inside ha) (inside hb) same

/-- A search reports what it finds and wants. -/
theorem mem_entries_iff {e : Entry} :
    e ∈ ((⟨options, [.start base names segments], []⟩ : Search).drain
        (l.world filter fs cwd)).1.entries ↔
      .found e ∈ signs l fs cwd filter options base names segments ∧
        options.wanted.admits e = true := by
  rw [drain_eq_rest, Outlook.rest, List.mem_filter]
  refine and_congr_left fun _ => ?_
  refine (mem_fresh_iff ?_).trans Sign.mem_found_iff
  intro a ha b hb
  exact found_eq_of_path (Sign.mem_found_iff.mp ha) (Sign.mem_found_iff.mp hb)

/-- All that a search reports is selected from what it shows. -/
theorem drain_eq_selected :
    ((⟨options, [.start base names segments], []⟩ : Search).drain (l.world filter fs cwd)).1 =
      ⟨fresh [] ((signs l fs cwd filter options base names segments).filterMap fun sign =>
          sign.found?.filter options.wanted.admits),
        (signs l fs cwd filter options base names segments).filterMap Sign.listed?,
        ((signs l fs cwd filter options base names segments).filterMap Sign.failure?).head?⟩ := by
  rw [drain_eq_rest, Outlook.rest, filter_fresh, List.filter_filterMap, List.head?_filterMap]
  · rfl
  · intro a ha b hb same
    rw [found_eq_of_path (Sign.mem_found_iff.mp ha) (Sign.mem_found_iff.mp hb) same]

theorem placed_world (directory : Entry) (hint : Option Text) (all : List Entry)
    (listed : (l.world filter fs cwd).children directory hint = .ok all) :
    ∀ child ∈ all, child.path = directory.path.child child.name ∧
      child.depth = directory.depth + 1 := by
  intro child member
  obtain ⟨-, -, name, node, -, rfl⟩ := Lister.mem_children listed member
  exact ⟨rfl, rfl⟩

theorem thinned_outlook :
    Sign.Thinned (fun sign => base.HiddenBelow sign.entry.path)
      ((⟨{ options with hidden := false }, [.start base names segments], []⟩ : Search).outlook
        (l.world filter fs cwd)).signs
      ((⟨{ options with hidden := true }, [.start base names segments], []⟩ : Search).outlook
        (l.world filter fs cwd)).signs := by
  rw [outlook_opened, outlook_opened]
  cases rooted : (l.world filter fs cwd).rootEntry base with
  | none => exact .nil
  | some top =>
    obtain ⟨onTop, -, shallow⟩ := FileSystem.rootEntry_eq rooted
    exact @Task.thinned_trace _ { options with hidden := true } base placed_world
      rfl top names segments ⟨[], by simp [Path.down, onTop]⟩ fun deep => absurd shallow deep

/-- What a search shows where hidden names are allowed and lies behind none, it shows where they are
not. -/
theorem mem_signs_of_kept {sign : Sign} (kept : ¬ base.HiddenBelow sign.entry.path)
    (member : sign ∈ signs l fs cwd filter { options with hidden := true } base names segments) :
    sign ∈ signs l fs cwd filter { options with hidden := false } base names segments :=
  thinned_outlook.mem_of_kept kept member

/-- A search that does not fail behind a hidden name shows what it shows where hidden names are not
allowed, and more behind such names only. -/
theorem thinned_signs
    (calm : ∀ sign ∈ signs l fs cwd filter { options with hidden := true } base names segments,
      base.HiddenBelow sign.entry.path → sign.failure? = none) :
    Sign.Thinned (fun sign => base.HiddenBelow sign.entry.path)
      (signs l fs cwd filter { options with hidden := false } base names segments)
      (signs l fs cwd filter { options with hidden := true } base names segments) := by
  apply thinned_outlook.untilFailure
  intro sign given failed hidden
  rw [calm sign given hidden] at failed
  cases failed

/-- A search that comes to nothing behind a hidden name is the same where hidden names are not
allowed. -/
theorem drain_eq_of_kept
    (unlisted : ∀ sign ∈ signs l fs cwd filter { options with hidden := true } base names segments,
      base.HiddenBelow sign.entry.path → sign.listed? = none)
    (unfound : ∀ e,
      .found e ∈ signs l fs cwd filter { options with hidden := true } base names segments →
        base.HiddenBelow e.path → options.wanted.admits e = false) :
    ((⟨{ options with hidden := false }, [.start base names segments], []⟩ : Search).drain
        (l.world filter fs cwd)).1 =
      ((⟨{ options with hidden := true }, [.start base names segments], []⟩ : Search).drain
        (l.world filter fs cwd)).1 := by
  have unfailed : ∀ sign ∈ signs l fs cwd filter { options with hidden := true } base names segments,
      base.HiddenBelow sign.entry.path → sign.failure? = none :=
    fun sign given hidden => Sign.failure_of_unlisted (unlisted sign given hidden)
  have unwanted : ∀ sign ∈ signs l fs cwd filter { options with hidden := true } base names segments,
      base.HiddenBelow sign.entry.path → sign.found?.filter options.wanted.admits = none := by
    intro sign given hidden
    cases sign with
    | found e => simp [Sign.found?, unfound e given hidden]
    | _ => rfl
  have thinned := thinned_signs unfailed
  rw [drain_eq_selected, drain_eq_selected, thinned.filterMap_eq unlisted,
    thinned.filterMap_eq unfailed, thinned.filterMap_eq unwanted]

end Opened

/-- Allowing hidden names takes an entry away only where the search ends with an error at a directory
behind a hidden name below the base, and it adds only entries behind such names. Where it comes to
nothing behind one, it makes no difference, whatever the names of the base are. -/
theorem drain_concealed (l : Lister) (fs : FileSystem) (cwd : List Text) (filter : Option Filter)
    {root : Path} {pattern : Text} {segments : List Pattern}
    (parsed : Pattern.parse pattern = .ok segments) (options : Options) :
    ∃ wide narrow, start cwd root pattern { options with hidden := true } = .ok wide ∧
      start cwd root pattern { options with hidden := false } = .ok narrow ∧
      let base := base cwd root segments
      let all := (wide.drain (l.world filter fs cwd)).1
      let shown := (narrow.drain (l.world filter fs cwd)).1
      ((∀ error, all.failure = some error → ¬ base.HiddenBelow error.directory) →
        ∀ e ∈ shown.entries, e ∈ all.entries) ∧
      (∀ e ∈ all.entries, e ∉ shown.entries → base.HiddenBelow e.path) ∧
      ((∀ e ∈ all.entries, ¬ base.HiddenBelow e.path) →
        (∀ d ∈ all.listed, ¬ base.HiddenBelow d.directory) → shown = all) := by
  refine ⟨_, _, start_eq_ok_iff.mpr ⟨segments, parsed, rfl⟩,
    start_eq_ok_iff.mpr ⟨segments, parsed, rfl⟩, ?lost, ?gained, ?same⟩
  case lost =>
    intro calm e member
    rw [mem_entries_iff] at member ⊢
    refine ⟨(thinned_signs ?_).subset member.1, member.2⟩
    intro sign given hidden
    rw [Option.eq_none_iff_forall_ne_some]
    intro error failed
    apply calm error
    · rw [drain_eq_rest]
      exact Sign.failure_of_mem given failed
    · rwa [← Sign.entry_of_failure failed]
  case gained =>
    intro e member absent
    rw [mem_entries_iff] at member absent
    by_contra kept
    exact absent ⟨mem_signs_of_kept kept member.1, member.2⟩
  case same =>
    intro found listed
    apply drain_eq_of_kept
    · intro sign given hidden
      rw [Option.eq_none_iff_forall_ne_some]
      intro d lists
      apply listed d
      · rw [drain_eq_selected]
        exact List.mem_filterMap.mpr ⟨sign, given, lists⟩
      · rwa [Sign.directory_of_listed lists]
    · intro e given hidden
      by_contra wanted
      exact found e (mem_entries_iff.mpr ⟨given, by simpa using wanted⟩) hidden

theorem drain_concealed_sample :
    ∃ wide narrow, start [] ⟨.relative, []⟩ "**/x".toList .standard = .ok wide ∧
      start [] ⟨.relative, []⟩ "**/x".toList { Options.standard with hidden := false } = .ok narrow ∧
      (∀ e ∈ (narrow.drain (Lister.plain.world none .sample [])).1.entries,
        e ∈ (wide.drain (Lister.plain.world none .sample [])).1.entries) ∧
      ∀ e ∈ (wide.drain (Lister.plain.world none .sample [])).1.entries,
        e ∉ (narrow.drain (Lister.plain.world none .sample [])).1.entries →
          (⟨.relative, []⟩ : Path).HiddenBelow e.path := by
  have parsed : Pattern.parse "**/x".toList = .ok [.globstar, .component [.text ['x']]] :=
    Pattern.parse_eq_ok_iff.mpr (by cbv)
  obtain ⟨wide, narrow, opens, opens', kept, gained, -⟩ :=
    drain_concealed .plain .sample [] none parsed .standard
  have rooted : FileSystem.sample.rootEntry [] ⟨.relative, []⟩ =
      some ⟨⟨.relative, []⟩, [], true, 0⟩ := by
    rw [FileSystem.rootEntry, FileSystem.resolve_sample]
    decide
  have unfailed := (drain_readable FileSystem.readable_sample parsed opens rooted).1
  refine ⟨wide, narrow, opens, opens', kept ?_, gained⟩
  intro error failed
  rw [unfailed] at failed
  cases failed

end Search

/-- In the root are a hidden directory that cannot be listed and, after it, a file. -/
def FileSystem.guarded : FileSystem where
  nodes := [([['.', 'h']], ⟨.directory, true, false⟩), ([['x']], ⟨.file [], false, false⟩)]
  distinct := by decide
  named := by decide

/-- A strict search that may look into the hidden directory ends there, before it comes to the file. -/
theorem Search.drain_guarded :
    ∃ wide narrow,
      start [] ⟨.relative, []⟩ "**".toList ⟨true, .everything, none, true⟩ = .ok wide ∧
      start [] ⟨.relative, []⟩ "**".toList ⟨false, .everything, none, true⟩ = .ok narrow ∧
      (wide.drain (Lister.plain.world none .guarded [])).1 =
        ⟨[⟨⟨.relative, []⟩, [], true, 0⟩, ⟨⟨.relative, [['.', 'h']]⟩, ['.', 'h'], true, 1⟩],
          [⟨⟨.relative, []⟩, some ['*']⟩, ⟨⟨.relative, [['.', 'h']]⟩, some ['*']⟩],
          some ⟨⟨.relative, [['.', 'h']]⟩, ⟨.denied, ['.', 'h']⟩⟩⟩ ∧
      (narrow.drain (Lister.plain.world none .guarded [])).1 =
        ⟨[⟨⟨.relative, []⟩, [], true, 0⟩, ⟨⟨.relative, [['x']]⟩, ['x'], false, 1⟩],
          [⟨⟨.relative, []⟩, some ['*']⟩], none⟩ := by
  have parsed : Pattern.parse "**".toList = .ok [.globstar] := Pattern.parse_eq_ok_iff.mpr (by cbv)
  refine ⟨_, _, start_eq_ok_iff.mpr ⟨_, parsed, rfl⟩, start_eq_ok_iff.mpr ⟨_, parsed, rfl⟩, ?_, ?_⟩
  · rw [drain_of_idle_after 8 (by cbv)]
    cbv
  · rw [drain_of_idle_after 14 (by cbv)]
    cbv

end Wildpath
