import Mathlib.Data.List.Basic
import Wildpath.Search.Cursor
import Wildpath.Proofs.Hint
import Wildpath.Proofs.Opening
import Wildpath.Proofs.Reach
import Wildpath.Proofs.Trace

/-!
# Listings narrowed by hints

A lister may use the hint to leave out children whose names it does not fit. The children that are
left out would come to nothing: their visit ends at once. So a search goes the same way whatever the
lister makes of the hints.
-/

set_option autoImplicit false

namespace Wildpath

/-- A way to list the directories of a file system that stays as it is. Any directory may be refused;
what is listed is there. -/
structure Listing (fs : FileSystem) (cwd : List Text) where
  list : Entry → Except FileError (List Entry)
  present : ∀ directory all, list directory = .ok all →
    ∃ here, fs.children cwd directory none = .ok here ∧ ∀ child ∈ all, child ∈ here

/-- The listing is given as it is, or without some children whose names the hint does not fit. Of a
hint with a bracket nothing is asked. -/
def Narrowed (hint : Option Text) (given : Except FileError (List Entry)) :
    Except FileError (List Entry) → Prop
  | .error error => given = .error error
  | .ok all => ∃ keep : Entry → Bool, given = .ok (all.filter keep) ∧
      ∀ child ∈ all, (∀ h ∈ hint, '[' ∉ h ∧ Pattern.Hint.Fits h child.name) → keep child = true

/-- A lister that makes what it likes of the hints. -/
structure Narrowing {fs : FileSystem} {cwd : List Text} (listing : Listing fs cwd) where
  children : Entry → Option Text → Except FileError (List Entry)
  narrowed : ∀ directory hint, Narrowed hint (children directory hint) (listing.list directory)

namespace Narrowing

variable {fs : FileSystem} {cwd : List Text} {listing : Listing fs cwd}

def answers (n : Narrowing listing) (filter : Option Filter) : Answers where
  rootEntry := fs.rootEntry cwd
  children := n.children
  excludes entry := filter.any fun f => f cwd entry

theorem present_of_children (n : Narrowing listing) {directory : Entry} {hint : Option Text}
    {children : List Entry} (h : n.children directory hint = .ok children) :
    ∃ here, fs.children cwd directory none = .ok here ∧ ∀ child ∈ children, child ∈ here := by
  have narrowed := n.narrowed directory hint
  cases listed : listing.list directory with
  | error error =>
    simp only [listed, Narrowed, h] at narrowed
    cases narrowed
  | ok all =>
    simp only [listed, Narrowed, h] at narrowed
    obtain ⟨keep, kept, -⟩ := narrowed
    cases kept
    obtain ⟨here, found, within⟩ := listing.present directory all listed
    exact ⟨here, found, fun child member => within child (List.mem_filter.mp member).1⟩

theorem grounded_answers (n : Narrowing listing) (filter : Option Filter) :
    (n.answers filter).Grounded := by
  refine ⟨fun entry => fs.room cwd entry.path, fun directory hint children h child member isDir => ?_⟩
  obtain ⟨here, found, within⟩ := n.present_of_children h
  exact FileSystem.room_child_lt found (within child member) isDir

def world (n : Narrowing listing) (filter : Option Filter) : World :=
  ⟨n.answers filter, n.grounded_answers filter⟩

end Narrowing

namespace Listing

variable {fs : FileSystem} {cwd : List Text}

def unhinted (listing : Listing fs cwd) : Narrowing listing where
  children directory _ := listing.list directory
  narrowed directory hint := by
    cases listing.list directory with
    | error error => rfl
    | ok all =>
      have whole : all.filter (fun _ => true) = all := List.filter_eq_self.mpr fun _ _ => rfl
      exact ⟨fun _ => true, congrArg _ whole.symm, fun _ _ _ => rfl⟩

end Listing

theorem FileSystem.children_eq_filter (fs : FileSystem) (cwd : List Text) (directory : Entry)
    (hint : Option Text) :
    fs.children cwd directory hint = (fs.children cwd directory none).map fun all =>
      all.filter fun child => hint.all (Pattern.Hint.admits · child.name) := by
  unfold children
  split
  · rfl
  · split
    · rfl
    · split
      · rfl
      · split
        · rfl
        · simp only [Except.map, List.filter_map, List.filter_filter, Option.all_none,
            Bool.true_and]
          rfl

namespace Lister

def listing (l : Lister) (fs : FileSystem) (cwd : List Text) : Listing fs cwd where
  list directory := l.children fs cwd directory none
  present directory all h := by
    simp only [children, ite_self] at h
    split at h
    · cases h
    · split at h
      · cases h
      · next here found =>
        cases h
        refine ⟨here, found, fun child member => ?_⟩
        split at member
        · exact List.mem_reverse.mp member
        · exact member

def narrowing (l : Lister) (fs : FileSystem) (cwd : List Text) : Narrowing (l.listing fs cwd) where
  children := l.children fs cwd
  narrowed directory hint := by
    simp only [listing, children, ite_self]
    split
    · rfl
    · rw [fs.children_eq_filter cwd directory (if l.ignoresHint then none else hint)]
      cases fs.children cwd directory none with
      | error error => rfl
      | ok all =>
        refine ⟨fun child => (if l.ignoresHint then none else hint).all
          (Pattern.Hint.admits · child.name), ?_, fun child _ fits => ?_⟩
        · cases l.reverses <;> simp [Except.map]
        · cases l.ignoresHint with
          | true => rfl
          | false =>
            cases hint with
            | none => rfl
            | some h => exact Pattern.Hint.admits_iff_fits.mpr (fits h rfl).2

end Lister

namespace Task

/-- A name that the hint of a segment does not fit is not taken by the segment. -/
theorem visitName_eq_nil {hidden : Bool} {entry : Entry} {name hint : Text} {names : List Text}
    {segment : Pattern} {segments : List Pattern} (h : segment.hint? = some hint)
    (misfit : ¬ Pattern.Hint.Fits hint name) :
    visitName hidden entry name names segment segments = [] := by
  cases segment with
  | globstar =>
    cases h
    refine absurd ?_ misfit
    simpa using Pattern.Hint.Fits.star name .nil
  | anchor top =>
    cases h
    refine if_neg fun same => misfit ?_
    rw [same]
    exact Pattern.Hint.fits_self hint
  | component pieces =>
    refine if_neg fun accepted => misfit ?_
    have spelled := Pattern.accepts_iff_spells.mp (Pattern.accepts_of_acceptsName accepted)
    exact Pattern.fits_of_spells spelled h
  | _ => rfl

theorem trace_visit_misfit {world : World} {options : Options} {child : Entry} {hint : Text}
    {segment : Pattern} {segments : List Pattern} (h : segment.hint? = some hint)
    (misfit : ¬ Pattern.Hint.Fits hint child.name) :
    trace world options (.visit child [child.name] (segment :: segments)) = [] := by
  rw [trace_visit_cons, visitName_eq_nil h misfit]
  rfl

variable {fs : FileSystem} {cwd : List Text} {listing : Listing fs cwd}

/-- Children may be left out if their visit would come to nothing. -/
theorem trace_offer_narrowed {n : Narrowing listing} {filter : Option Filter} {options : Options}
    {segments : List Pattern} {all : List Entry} {keep : Entry → Bool}
    (dead : ∀ child ∈ all, keep child = false →
      trace (listing.unhinted.world filter) options (.visit child [child.name] segments) = [])
    (below : ∀ child ∈ all, trace (n.world filter) options (.visit child [child.name] segments) =
      trace (listing.unhinted.world filter) options (.visit child [child.name] segments)) :
    trace (n.world filter) options (.offer (all.filter keep) segments) =
      trace (listing.unhinted.world filter) options (.offer all segments) := by
  rw [trace_offer, trace_offer, List.filter_comm]
  calc
    _ = ((all.filter fun child => !(n.world filter).excludes child).filter keep).flatMap
        fun child => trace (listing.unhinted.world filter) options
          (.visit child [child.name] segments) :=
      List.flatMap_congr fun child member =>
        below child (List.mem_filter.mp (List.mem_filter.mp member).1).1
    _ = _ := flatMap_filter_of_nil fun child member => dead child (List.mem_filter.mp member).1

theorem trace_eq_unhinted (n : Narrowing listing) (filter : Option Filter) (options : Options)
    (entry : Entry) (names : List Text) (segments : List Pattern)
    (canonical : ∀ segment ∈ segments, segment.CanonicalSegment) :
    trace (n.world filter) options (.visit entry names segments) =
      trace (listing.unhinted.world filter) options (.visit entry names segments) := by
  induction entry, names, segments using visit_induction (listing.unhinted.world filter) with
  | exhausted entry segments below =>
    rw [trace_visit_nil, trace_visit_nil]
    congr 1
    cases segments with
    | nil => simp
    | cons segment segments =>
      cases may : mayDescend options entry with
      | false => rw [trace_descend_shut may, trace_descend_shut may]
      | true =>
        have isDir : entry.isDirectory = true := (Bool.and_eq_true_iff.mp may).1
        have narrowed := n.narrowed entry segment.hint?
        cases listed : listing.list entry with
        | error error =>
          rw [listed] at narrowed
          have refused : (n.world filter).children entry segment.hint? = .error error := narrowed
          have refused' : (listing.unhinted.world filter).children entry segment.hint? =
            .error error := listed
          rw [trace_descend_error may refused, trace_descend_error may refused']
        | ok all =>
          rw [listed] at narrowed
          obtain ⟨keep, kept, fits⟩ := narrowed
          have whole : (listing.unhinted.world filter).children entry segment.hint? = .ok all := listed
          have part : (n.world filter).children entry segment.hint? = .ok (all.filter keep) := kept
          rw [trace_descend_ok may part, trace_descend_ok may whole]
          congr 1
          refine trace_offer_narrowed (fun child member left => ?dead) fun child member =>
            below none all isDir listed child member canonical
          have unfit : ¬ ∀ h ∈ segment.hint?, '[' ∉ h ∧ Pattern.Hint.Fits h child.name := by
            intro fit
            have kept := fits child member fit
            rw [left] at kept
            cases kept
          cases h : segment.hint? with
          | none => exact absurd (by simp [h]) unfit
          | some hint =>
            have clean := Pattern.bracket_notMem_hint (canonical segment List.mem_cons_self) h
            refine trace_visit_misfit h fun fit => unfit ?_
            simp [h, clean, fit]
  | stuck entry name names => simp
  | named entry name names segment segments first second third =>
    have rest : ∀ s ∈ segments, s.CanonicalSegment := (List.forall_mem_cons.mp canonical).2
    rw [trace_visit_cons, trace_visit_cons]
    refine List.flatMap_congr fun task member => ?_
    rcases mem_visitName member with rfl | rfl | rfl
    · exact first rest
    · exact second canonical
    · exact third rest

end Task

namespace Search

variable {fs : FileSystem} {cwd : List Text} {listing : Listing fs cwd}

theorem outlook_eq_unhinted (n : Narrowing listing) (filter : Option Filter) {root : Path}
    {pattern : Text} {options : Options} {s : Search}
    (h : start cwd root pattern options = .ok s) :
    s.outlook (n.world filter) = s.outlook (listing.unhinted.world filter) := by
  obtain ⟨segments, parsed, rfl⟩ := start_eq_ok_iff.mp h
  have canonical : ∀ segment ∈ remaining segments, segment.CanonicalSegment := fun segment member =>
    Pattern.canonicalSegment_of_parse parsed segment (mem_of_mem_remaining member)
  have same : (n.world filter).rootEntry = (listing.unhinted.world filter).rootEntry := rfl
  simp only [outlook_opened, same, Task.trace_eq_unhinted n filter options _ _ _ canonical]

/-- What draining a search gives can be read off the signs of a world without hints. -/
theorem drain_eq_unhinted (l : Lister) (filter : Option Filter) {root : Path} {pattern : Text}
    {options : Options} {s : Search} (h : start cwd root pattern options = .ok s) :
    (s.drain (l.world filter fs cwd)).1 =
      (s.outlook ((l.listing fs cwd).unhinted.world filter)).rest := by
  rw [← outlook_eq_unhinted (l.narrowing fs cwd) filter h]
  exact drain_eq_rest (l.world filter fs cwd) s

/-- The listing hint never decides a match: whatever two listers make of the hints, every draw
reports the same entries, listed directories and failures, and so does draining. -/
theorem draws_eq_of_narrowings (a b : Narrowing listing) (filter : Option Filter) {root : Path}
    {pattern : Text} {options : Options} {s : Search}
    (h : start cwd root pattern options = .ok s) :
    (∀ n, s.reports (a.world filter) n = s.reports (b.world filter) n) ∧
      (s.drain (a.world filter)).1 = (s.drain (b.world filter)).1 := by
  have same : s.outlook (a.world filter) = s.outlook (b.world filter) :=
    (outlook_eq_unhinted a filter h).trans (outlook_eq_unhinted b filter h).symm
  constructor
  · exact reports_eq_of_outlook same
  · rw [drain_eq_rest, drain_eq_rest, same]

theorem draws_eq_of_narrowings_sample :
    ∃ s, start [] ⟨.relative, []⟩ "a*/**/x".toList .standard = .ok s ∧
      (∀ n, s.reports ((Lister.plain.narrowing .sample []).world none) n =
        s.reports ((Lister.plain.listing .sample []).unhinted.world none) n) ∧
      (s.drain ((Lister.plain.narrowing .sample []).world none)).1 =
        (s.drain ((Lister.plain.listing .sample []).unhinted.world none)).1 := by
  have parsed : Pattern.parse "a*/**/x".toList = .ok [.component [.text ['a'], .star], .globstar,
      .component [.text ['x']]] :=
    Pattern.parse_eq_ok_iff.mpr (by cbv)
  obtain ⟨s, opens⟩ : ∃ s, start [] ⟨.relative, []⟩ "a*/**/x".toList .standard = .ok s :=
    ⟨_, start_eq_ok_iff.mpr ⟨_, parsed, rfl⟩⟩
  exact ⟨s, opens, draws_eq_of_narrowings (Lister.plain.narrowing .sample [])
    (Lister.plain.listing .sample []).unhinted none opens⟩

end Search
end Wildpath
