import Mathlib
import Wildpath.Proofs.Joining
import Wildpath.Proofs.Steps
import Wildpath.Proofs.Subtree

/-!
# Searching on from what a search found

What a search for two patterns with a separator between them finds is what searches for the second
pattern find, each from an entry that the search for the first one found. An entry that is no
directory has nothing below it, so only `**` may follow there. A link is such an entry, unless it is
the root.
-/

set_option autoImplicit false

namespace Wildpath

open Pattern (Matches)

theorem waypoints_append (free : Bool) (front back : List Text) :
    waypoints free (front ++ back) = waypoints free front ++ waypoints free back :=
  List.map_append

theorem Pattern.Matches.waypoints_iff {front back : List Pattern} {free : Bool}
    {names : List Text} : Matches (front ++ back) (waypoints free names) ↔
      ∃ before after, names = before ++ after ∧ Matches front (waypoints free before) ∧
        Matches back (waypoints free after) := by
  rw [Matches.append_iff]
  constructor
  · intro h
    obtain ⟨before, after, same, first, second⟩ := h
    obtain ⟨before, after, rfl, rfl, rfl⟩ := List.map_eq_append_iff.mp same
    exact ⟨before, after, rfl, first, second⟩
  · intro h
    obtain ⟨before, after, rfl, first, second⟩ := h
    exact ⟨_, _, waypoints_append free before after, first, second⟩

theorem Path.down_down (p : Path) (front back : List Text) :
    (p.down front).down back = p.down (front ++ back) := by
  simp [Path.down]

namespace Cursor

variable {fs : FileSystem} {cwd : List Text} {root : Path} {hidden : Bool}

/-- The search for a pattern opens, comes to its end without a failure, and gives the entries. -/
def Yields (fs : FileSystem) (cwd : List Text) (root : Path) (pattern : Text)
    (hidden strict : Bool) (entries : List Entry) : Prop :=
  ∃ c, start fs cwd (.plain root pattern hidden strict) = .ok c ∧
    (c.drain fs cwd).1.failure = none ∧ (c.drain fs cwd).1.entries = entries

/-- What a search yields is what the one that its pattern opens gives. -/
theorem Yields.eq_drain {pattern : Text} {segments : List Pattern} {strict : Bool}
    {entries : List Entry} (yields : Yields fs cwd root pattern hidden strict entries)
    (parsed : Pattern.parse pattern = .ok segments) :
    entries = ((opened cwd root segments hidden strict).drain
      (Lister.plain.world none fs cwd)).1.entries := by
  obtain ⟨c, started, -, rfl⟩ := yields
  cases started.symm.trans (start_plain root parsed hidden strict).2
  rfl

theorem exists_yields (readable : fs.Readable) (root : Path) {pattern : Text}
    {segments : List Pattern} (parsed : Pattern.parse pattern = .ok segments)
    (hidden strict : Bool) : ∃ entries, Yields fs cwd root pattern hidden strict entries ∧
      ∀ e, e ∈ entries ↔ Sought fs cwd root segments hidden e := by
  obtain ⟨started, opens⟩ := @start_plain fs cwd root pattern segments parsed hidden strict
  have calm := calm_opened (@shows_unhinted fs cwd) readable root segments hidden strict
  have sought := found_opened_iff (@shows_unhinted fs cwd) readable root segments hidden strict
  have drained := (@Search.drain_eq_unhinted fs cwd .plain none root pattern _ _ started).trans
    (Search.Outlook.rest_of_calm calm)
  generalize ((opened cwd root segments hidden strict).outlook
    ((Lister.plain.listing fs cwd).unhinted.world none)).signs = signs at sought drained
  have told : ∀ a ∈ signs.filterMap Sign.found?, ∀ b ∈ signs.filterMap Sign.found?,
      a.path = b.path → a = b := by
    intro a ha b hb same
    rw [Sign.mem_found_iff, sought] at ha hb
    exact eq_of_sought ha hb same
  refine ⟨_, ⟨_, opens, congrArg Search.Rest.failure drained,
    congrArg Search.Rest.entries drained⟩, fun e => ?_⟩
  have everything : e ∈ (Search.fresh [] (signs.filterMap Sign.found?)).filter
      Wanted.everything.admits ↔ e ∈ Search.fresh [] (signs.filterMap Sign.found?) := by
    simp [Wanted.admits]
  exact everything.trans <| (Search.mem_fresh_iff told).trans <| Sign.mem_found_iff.trans (sought e)

/-- Where a search for a relative pattern starts somewhere, it finds a path if the names that lead
there match. -/
theorem exists_sought_iff {segments : List Pattern}
    (relative : Pattern.isAnchored segments = false) {top : Entry} {loc : Location}
    (rooted : fs.rootEntry cwd (Search.base cwd root segments) = some top)
    (resolved : fs.resolve cwd (Search.base cwd root segments) = .ok loc) {path : Path} :
    (∃ x, Sought fs cwd root segments hidden x ∧ x.path = path) ↔
      ∃ names, fs.Leads loc names ∧
        Matches (Search.remaining segments) (waypoints hidden names) ∧
        path = (Search.base cwd root segments).down names := by
  have none : Search.baseNames cwd root segments = [] := Search.baseNames_relative relative cwd root
  obtain ⟨onTop, -, -⟩ := FileSystem.rootEntry_eq rooted
  constructor
  · intro h
    obtain ⟨x, ⟨top', loc', names, rooted', resolved', leads, rfl, matched⟩, same⟩ := h
    rw [rooted] at rooted'
    rw [resolved] at resolved'
    rw [none] at matched
    cases rooted'
    cases resolved'
    refine ⟨names, leads, matched, ?_⟩
    rw [← same, ← onTop]
    rfl
  · intro h
    obtain ⟨names, leads, matched, rfl⟩ := h
    refine ⟨_, ⟨top, loc, names, rooted, resolved, leads, rfl, ?_⟩, ?_⟩
    · rwa [none]
    · rw [← onTop]
      rfl

/-- A search for the segments from an entry gives the path. From an entry that is no directory it
gives nothing but that entry, if it asks for nothing more. -/
def GoesOn (fs : FileSystem) (cwd : List Text) (segments : List Pattern) (hidden : Bool)
    (d : Entry) (path : Path) : Prop :=
  if d.isDirectory then ∃ x, Sought fs cwd d.path segments hidden x ∧ x.path = path
  else path = d.path ∧ segments.all Pattern.isGlobstar = true

section Joined
variable {front back : List Pattern} (relative' : Pattern.isAnchored back = false)
  (still : Pattern.parent ∉ back)
include relative' still

theorem goesOn_iff {p path : Path} {top : Entry} {loc : Location} {names : List Text}
    (rooted : fs.rootEntry cwd p = some top) (resolved : fs.resolve cwd p = .ok loc)
    (leads : fs.Leads loc names) :
    GoesOn fs cwd back hidden (fs.entryBelow loc top names) path ↔
      ∃ more, fs.Leads (loc ++ names) more ∧ Matches back (waypoints hidden more) ∧
        path = p.down (names ++ more) := by
  have onTop := (FileSystem.rootEntry_eq rooted).1
  have here : (fs.entryBelow loc top names).path = p.down names := by
    rw [← onTop]
    rfl
  have kind : (fs.entryBelow loc top names).isDirectory = fs.isDirectory (loc ++ names) := rfl
  rw [GoesOn, kind, here]
  cases directory : fs.isDirectory (loc ++ names) with
  | true =>
    rw [if_pos rfl]
    obtain ⟨bottom, rooted', -⟩ := FileSystem.rootEntry_down rooted resolved leads directory
    obtain ⟨loc', resolved', stands, -⟩ := FileSystem.stands_rootEntry rooted
    rw [resolved] at resolved'
    cases resolved'
    have resolved' := (leads.stands stands).resolved directory
    rw [here] at resolved'
    have base : Search.base cwd (p.down names) back = p.down names :=
      Search.base_of_still relative' still cwd (p.down names)
    have found := @exists_sought_iff fs cwd (p.down names) hidden back relative' bottom
      (loc ++ names) (by rwa [base]) (by rwa [base]) path
    simpa only [base, Search.remaining_of_still relative' still, Path.down_down] using found
  | false =>
    rw [if_neg Bool.false_ne_true]
    constructor
    · intro h
      obtain ⟨rfl, ended⟩ := h
      exact ⟨[], .here _, Matches.nil_right_iff.mpr ended, by rw [List.append_nil]⟩
    · intro h
      obtain ⟨more, leads, matched, rfl⟩ := h
      obtain rfl := leads.eq_nil directory
      exact ⟨by rw [List.append_nil], Matches.nil_right_iff.mp matched⟩

/-- A search for joined patterns finds a path if the search for the second one goes on to it from an
entry that the search for the first one finds. -/
theorem exists_sought_join_iff (relative : Pattern.isAnchored front = false) {path : Path} :
    (∃ x, Sought fs cwd root (front ++ back) hidden x ∧ x.path = path) ↔
      ∃ d, Sought fs cwd root front hidden d ∧ GoesOn fs cwd back hidden d path := by
  have base := Search.base_join relative relative' still cwd root
  have none := Search.baseNames_relative relative cwd root
  cases rooted : fs.rootEntry cwd (Search.base cwd root front) with
  | none =>
    apply iff_of_false
    · rintro ⟨x, ⟨top, loc, names, rooted', -⟩, -⟩
      rw [base, rooted] at rooted'
      cases rooted'
    · rintro ⟨d, ⟨top, loc, names, rooted', -⟩, -⟩
      rw [rooted] at rooted'
      cases rooted'
  | some top =>
    obtain ⟨loc, resolved, -⟩ := FileSystem.stands_rootEntry rooted
    have found := @exists_sought_iff fs cwd root hidden (front ++ back)
      (Search.isAnchored_join relative relative') top loc (by rwa [base]) (by rwa [base]) path
    rw [found, base, Search.remaining_join relative relative' still]
    constructor
    · intro h
      obtain ⟨names, leads, matched, same⟩ := h
      obtain ⟨before, after, rfl, first, second⟩ := Matches.waypoints_iff.mp matched
      obtain ⟨leads, more⟩ := FileSystem.Leads.append_iff.mp leads
      refine ⟨_, ⟨top, loc, before, rooted, resolved, leads, rfl, by rwa [none]⟩, ?_⟩
      exact (goesOn_iff relative' still rooted resolved leads).mpr ⟨after, more, second, same⟩
    · intro h
      obtain ⟨d, ⟨top', loc', before, rooted', resolved', leads, rfl, first⟩, further⟩ := h
      rw [rooted] at rooted'
      rw [resolved] at resolved'
      rw [none] at first
      cases rooted'
      cases resolved'
      obtain ⟨after, more, second, same⟩ :=
        (goesOn_iff relative' still rooted resolved leads).mp further
      exact ⟨before ++ after, FileSystem.Leads.append_iff.mpr ⟨leads, more⟩,
        Matches.waypoints_iff.mpr ⟨before, after, rfl, first, second⟩, same⟩

end Joined

/-- Searching composes: a search for joined patterns gives the paths that searches for the second
pattern give from the directories among the entries that a search for the first one gives, and the
paths of the other entries if every segment of the second pattern is `**`. -/
theorem drain_join (readable : fs.Readable) (root : Path) {p q : Text} {front back : List Pattern}
    (first : Pattern.parse p = .ok front) (second : Pattern.parse q = .ok back)
    (relative : Pattern.isAnchored front = false) (relative' : Pattern.isAnchored back = false)
    (still : Pattern.parent ∉ back) (hidden strict : Bool) :
    ∃ whole upper, ∃ lower : Entry → List Entry,
      Yields fs cwd root (p ++ '/' :: q) hidden strict whole ∧
      Yields fs cwd root p hidden strict upper ∧
      (∀ d, Yields fs cwd d.path q hidden strict (lower d)) ∧
      ∀ path, path ∈ whole.map (·.path) ↔ ∃ d ∈ upper,
        if d.isDirectory then path ∈ (lower d).map (·.path)
        else path = d.path ∧ back.all Pattern.isGlobstar = true := by
  have joined := Pattern.parse_join first second relative' still
  obtain ⟨whole, gives, inWhole⟩ := @exists_yields fs cwd readable root _ _ joined hidden strict
  obtain ⟨upper, gives', inUpper⟩ := @exists_yields fs cwd readable root _ _ first hidden strict
  choose lower gives'' inLower using fun d : Entry =>
    @exists_yields fs cwd readable d.path _ _ second hidden strict
  refine ⟨whole, upper, lower, gives, gives', gives'', fun path => ?_⟩
  have composed := @exists_sought_join_iff fs cwd root hidden front back relative' still relative path
  simpa only [List.mem_map, inWhole, inUpper, inLower, GoesOn] using composed

theorem drain_join_sample :
    ∃ whole upper, ∃ lower : Entry → List Entry,
      Yields .sample [] ⟨.relative, []⟩ ("a/*".toList ++ '/' :: "**/x".toList) false true whole ∧
      Yields .sample [] ⟨.relative, []⟩ "a/*".toList false true upper ∧
      (∀ d, Yields .sample [] d.path "**/x".toList false true (lower d)) ∧
      (∀ path, path ∈ whole.map (·.path) ↔ ∃ d ∈ upper,
        if d.isDirectory then path ∈ (lower d).map (·.path)
        else path = d.path ∧ [Pattern.globstar, .component [.text ['x']]].all
          Pattern.isGlobstar = true) ∧
      whole.map (·.path.text) = ["a/b/x".toList] ∧
      upper.map (·.path.text) = ["a/b".toList, "a/x".toList] ∧
      ∀ d ∈ upper, d.isDirectory = true →
        (lower d).map (·.path.text) = ["a/b/x".toList] := by
  have first : Pattern.parse "a/*".toList = .ok [.component [.text ['a']], .component [.star]] :=
    Pattern.parse_eq_ok_iff.mpr (by cbv)
  have second : Pattern.parse "**/x".toList = .ok [.globstar, .component [.text ['x']]] :=
    Pattern.parse_eq_ok_iff.mpr (by cbv)
  have still : Pattern.parent ∉ [Pattern.globstar, .component [.text ['x']]] := by
    simp [Pattern.parent, parentName]
  obtain ⟨whole, upper, lower, gives, gives', gives'', composed⟩ :=
    @drain_join .sample [] FileSystem.readable_sample ⟨.relative, []⟩ _ _ _ _ first second rfl rfl
      still false true
  have above : upper = [⟨⟨.relative, [['a'], ['b']]⟩, ['b'], true, 2⟩,
      ⟨⟨.relative, [['a'], ['x']]⟩, ['x'], false, 2⟩] := by
    rw [gives'.eq_drain first, Search.drain_of_idle_after 24 (by cbv)]
    cbv
  have below : (lower ⟨⟨.relative, [['a'], ['b']]⟩, ['b'], true, 2⟩).map (·.path.text) =
      ["a/b/x".toList] := by
    rw [(gives'' _).eq_drain second, Search.drain_of_idle_after 24 (by cbv)]
    cbv
  refine ⟨whole, upper, lower, gives, gives', gives'', composed, ?_, ?_, ?_⟩
  · rw [gives.eq_drain (Pattern.parse_join first second rfl still),
      Search.drain_of_idle_after 32 (by cbv)]
    cbv
  · rw [above]
    cbv
  · rw [above]
    simpa using below

end Cursor
end Wildpath
