import Mathlib.Data.List.Chain
import Wildpath.Proofs.Order

/-!
# Entries in pre-order

Where hidden names are not left out, and each segment after the first `**` is the last one or followed
by another `**`, a search reports what matches in the order of the tree: an entry, then all that
lies below its first child, then all that lies below the second, and so on. Where `**` stands before
a name, the search first reports all that it finds without spending `**` on the name. For such
patterns this is either all that it finds at all, or at most the entry itself.
-/

set_option autoImplicit false

namespace Wildpath

open Pattern (Matches)

namespace World

variable {world : World} {options : Options}

theorem height_offered_lt {e child : Entry} (given : child ∈ world.offered options e) :
    Task.height (Pending.rank world) child < Task.height (Pending.rank world) e := by
  obtain ⟨all, may, listed, member, -⟩ := mem_offered_iff.mp given
  exact Task.height_child_lt (Bool.and_eq_true_iff.mp may).1 listed member

/-- An entry and all that lies below it in pre-order, each with the names that lead there. -/
def outline (world : World) (options : Options) (e : Entry) : List (List Text × Entry) :=
  ([], e) :: (world.offered options e).attach.flatMap fun ⟨child, _⟩ =>
    (outline world options child).map fun o => (child.name :: o.1, o.2)
termination_by Task.height (Pending.rank world) e
decreasing_by exact height_offered_lt ‹_›

theorem outline_eq (e : Entry) :
    world.outline options e = ([], e) :: (world.offered options e).flatMap fun child =>
      (world.outline options child).map fun o => (child.name :: o.1, o.2) := by
  rw [outline]
  simp [List.flatMap_subtype]

/-- What holds of an entry as soon as it holds of the children that a search visits below it, holds
of every entry. -/
theorem offered_induction {P : Entry → Prop} (world : World) (options : Options)
    (step : ∀ e, (∀ child ∈ world.offered options e, P child) → P e) (e : Entry) : P e := by
  induction bound : Task.height (Pending.rank world) e using Nat.strongRecOn generalizing e with
  | _ bound ih =>
    subst bound
    exact step e fun child given => ih _ (height_offered_lt given) child rfl

theorem mem_outline_iff {e x : Entry} {names : List Text} :
    (names, x) ∈ world.outline options e ↔ world.Leads options e names x := by
  constructor
  · intro h
    induction e using offered_induction world options generalizing names with
    | step e deeper =>
      rw [outline_eq, List.mem_cons, List.mem_flatMap] at h
      rcases h with same | ⟨child, given, h⟩
      · cases same
        exact .here _
      · obtain ⟨⟨below, y⟩, inside, same⟩ := List.mem_map.mp h
        cases same
        obtain ⟨all, may, listed, member, kept⟩ := mem_offered_iff.mp given
        exact .through may listed member kept (deeper child given inside)
  · intro leads
    induction leads with
    | here e =>
      rw [outline_eq]
      exact List.mem_cons_self
    | @through e child x all below may listed member kept _ ih =>
      have given := mem_offered_iff.mpr ⟨all, may, listed, member, kept⟩
      rw [outline_eq]
      apply List.mem_cons_of_mem
      exact List.mem_flatMap.mpr ⟨child, given, List.mem_map.mpr ⟨(below, x), ih, rfl⟩⟩

/-- Worlds in which the same children are visited have the same outlines. -/
theorem outline_congr {world' : World}
    (same : ∀ e, world.offered options e = world'.offered options e) (e : Entry) :
    world.outline options e = world'.outline options e := by
  induction e using offered_induction world options with
  | step e deeper =>
    rw [outline_eq, outline_eq, ← same e]
    congr 1
    apply List.flatMap_congr
    intro child given
    rw [deeper child given]

/-- Only the first entry of an outline is reached without a name. -/
theorem pairwise_outline (e : Entry) : (world.outline options e).Pairwise fun _ o => o.1 ≠ [] := by
  have below : ∀ o ∈ (world.offered options e).flatMap fun child =>
      (world.outline options child).map fun o => (child.name :: o.1, o.2), o.1 ≠ [] := by
    intro o member
    obtain ⟨child, -, member⟩ := List.mem_flatMap.mp member
    obtain ⟨inner, -, rfl⟩ := List.mem_map.mp member
    simp
  rw [outline_eq, List.pairwise_cons]
  exact ⟨below, List.pairwise_of_forall_mem_list fun _ _ o member => below o member⟩

/-- The entries of the outline whose names, after those that lead to the first one, match. -/
def matching (world : World) (options : Options) (e : Entry) (names : List Text)
    (segments : List Pattern) : List Entry :=
  ((world.outline options e).filter fun o =>
    Matches segments (waypoints true (names ++ o.1))).map (·.2)

theorem matching_congr {e : Entry} {names names' : List Text} {segments segments' : List Pattern}
    (same : ∀ below, Matches segments (waypoints true (names ++ below)) ↔
      Matches segments' (waypoints true (names' ++ below))) :
    world.matching options e names segments = world.matching options e names' segments' := by
  unfold matching
  congr 1
  apply List.filter_congr
  intro o _
  exact decide_eq_decide.mpr (same o.1)

theorem matching_eq_nil {e : Entry} {names : List Text} {segments : List Pattern}
    (none : ∀ below, ¬ Matches segments (waypoints true (names ++ below))) :
    world.matching options e names segments = [] := by
  unfold matching
  simp [none]

theorem matching_nil (e : Entry) (segments : List Pattern) :
    world.matching options e [] segments = (if segments.all Pattern.isGlobstar then [e] else []) ++
      (world.offered options e).flatMap fun child =>
        world.matching options child [child.name] segments := by
  have below : ∀ child, (((world.outline options child).map fun o =>
      (child.name :: o.1, o.2)).filter fun o =>
        Matches segments (waypoints true ([] ++ o.1))).map (·.2) =
      world.matching options child [child.name] segments := by
    intro child
    rw [List.filter_map, List.map_map]
    rfl
  have here : Matches segments (waypoints true ([] ++ [])) ↔
      segments.all Pattern.isGlobstar = true := Pattern.Matches.nil_right_iff
  rw [matching, outline_eq, List.filter_cons, List.filter_flatMap]
  simp only [here, decide_eq_true_eq]
  split
  · rw [List.map_cons, List.map_flatMap]
    simp only [below]
    rfl
  · rw [List.map_flatMap]
    simp only [below]
    rfl

section Steady
variable (steady : world.Steady)
include steady

/-- The paths in an outline tell the names apart. -/
theorem outline_names_eq {e : Entry} {a b : List Text × Entry}
    (ha : a ∈ world.outline options e) (hb : b ∈ world.outline options e)
    (same : a.2.path = b.2.path) : a.1 = b.1 := by
  rw [(mem_outline_iff.mp ha).path_eq steady, (mem_outline_iff.mp hb).path_eq steady] at same
  simpa using same

end Steady
end World

namespace Pattern

/-- After the first `**` no two segments stand side by side unless one of them is a `**`: each other
segment is the last one or followed by a `**`. -/
def Spaced (segments : List Pattern) : Prop :=
  (segments.dropWhile fun segment => !segment.isGlobstar).IsChain fun a b =>
    a.isGlobstar = true ∨ b.isGlobstar = true

instance (segments : List Pattern) : Decidable (Spaced segments) :=
  inferInstanceAs (Decidable (List.IsChain _ _))

variable {segment : Pattern} {segments : List Pattern}

theorem isGlobstar_iff : segment.isGlobstar = true ↔ segment = .globstar := by
  cases segment <;> simp [isGlobstar]

theorem Spaced.tail (h : Spaced (segment :: segments)) : Spaced segments := by
  unfold Spaced at h ⊢
  by_cases spans : segment.isGlobstar = true
  · rw [List.dropWhile_cons_of_neg (by simp [spans])] at h
    exact h.tail.suffix (List.dropWhile_suffix _)
  · rwa [List.dropWhile_cons_of_pos (by simp [spans])] at h

theorem Spaced.drop (h : Spaced segments) (n : Nat) : Spaced (segments.drop n) := by
  induction n generalizing segments with
  | zero => exact h
  | succ n ih =>
    cases segments with
    | nil => exact h
    | cons segment segments => exact ih h.tail

theorem Spaced.eq_globstar_of_cons {next : Pattern}
    (h : Spaced (.globstar :: segment :: next :: segments)) (named : segment ≠ .globstar) :
    next = .globstar := by
  have chain : (globstar :: segment :: next :: segments).IsChain fun a b =>
    a.isGlobstar = true ∨ b.isGlobstar = true := h
  have pair := (List.isChain_cons_cons.mp (List.isChain_cons_cons.mp chain).2).1
  simp only [isGlobstar_iff] at pair
  exact pair.resolve_left named

namespace Matches

variable {w : Waypoint} {run way : List Waypoint}

/-- A `**` may span more names in front of those that it begins with. -/
theorem spans (free : ∀ w ∈ run, w.Spanned) (h : Matches (.globstar :: segments) way) :
    Matches (.globstar :: segments) (run ++ way) := by
  obtain ⟨front, back, rfl, free', h⟩ := globstar_iff.mp h
  refine globstar_iff.mpr ⟨run ++ front, back, by simp, ?_, h⟩
  intro w member
  rcases List.mem_append.mp member with member | member
  · exact free w member
  · exact free' w member

/-- What a `**`, another segment and a `**` again match, the second `**` matches alone. -/
theorem of_between (free : ∀ w ∈ way, w.Spanned) (named : segment ≠ .globstar)
    (h : Matches (.globstar :: segment :: .globstar :: segments) way) :
    Matches (.globstar :: segments) way := by
  obtain ⟨run, rest, rfl, -, h⟩ := globstar_iff.mp h
  cases rest with
  | nil =>
    rw [nil_right_iff, List.all_cons, Bool.and_eq_true, isGlobstar_iff] at h
    exact absurd h.1 named
  | cons v rest =>
    have whole : run ++ v :: rest = (run ++ [v]) ++ rest := by simp
    rw [whole] at free ⊢
    rcases after_of_named named v with taken | refused
    · rw [matches_cons_of_taken (taken _)] at h
      exact h.spans fun w member => free w (List.mem_append_left rest member)
    · exact absurd h (not_matches_of_refused (refused _))

/-- Behind a `**` whose segments are spaced: what the `**` matches, the segments match with one name
more in front, or they match that name and no other row of names that begins with it. -/
theorem covers_or_alone (spanned : w.Spanned) (spaced : Spaced (.globstar :: segments)) :
    (∀ way, (∀ v ∈ way, v.Spanned) → Matches (.globstar :: segments) way →
      Matches segments (w :: way)) ∨
    ∀ way, Matches segments (w :: way) → way = [] := by
  cases segments with
  | nil =>
    right
    intro way h
    cases nil_iff.mp h
  | cons segment segments =>
    by_cases spans : segment = .globstar
    · subst spans
      left
      intro way free h
      have once : Matches (.globstar :: segments) way := by
        obtain ⟨run, rest, rfl, free', h⟩ := globstar_iff.mp h
        exact h.spans free'
      exact @Matches.spans _ [w] _ (by simpa using spanned) once
    · rcases after_of_named spans w with taken | refused
      · cases segments with
        | nil =>
          right
          intro way h
          exact nil_iff.mp ((matches_cons_of_taken (taken [])).mp h)
        | cons next segments =>
          left
          intro way free h
          obtain rfl := spaced.eq_globstar_of_cons spans
          exact (matches_cons_of_taken (taken _)).mpr (h.of_between free spans)
      · right
        intro way h
        exact absurd h (not_matches_of_refused (refused segments))

end Matches
end Pattern

namespace Search

/-- Where nothing that only the second selection takes stands before something that the first one
takes, the two in turn give what both take, in order. -/
theorem filter_append_filter {α : Type} {p q : α → Bool} {row : List α}
    (inOrder : row.Pairwise fun a b => q a = true → p b = true → p a = true) :
    row.filter p ++ row.filter (fun a => q a && !p a) = row.filter fun a => p a || q a := by
  induction row with
  | nil => rfl
  | cons a row ih =>
    obtain ⟨first, others⟩ := List.pairwise_cons.mp inOrder
    have ih := ih others
    cases taken : p a with
    | true => simp [taken, ih]
    | false =>
      cases taken' : q a with
      | false => simp [taken, taken', ih]
      | true =>
        -- the first selection takes nothing after this one
        have none : row.filter p = [] := by
          apply List.filter_eq_nil_iff.mpr
          intro b member selected
          have := first b member taken' selected
          rw [taken] at this
          cases this
        rw [none, List.nil_append] at ih
        simp [taken, taken', none, ih]

/-- Of two selections from entries that their paths tell apart, what both take is found once. -/
theorem fresh_append_select {α : Type} {entry : α → Entry} {row : List α} {p q : α → Bool}
    {l l' : List Entry}
    (told : ∀ a ∈ row, ∀ b ∈ row, (entry a).path = (entry b).path → p a = p b)
    (first : fresh [] l = (row.filter p).map entry)
    (second : fresh [] l' = (row.filter q).map entry) :
    fresh [] (l ++ l') = (row.filter p ++ row.filter fun a => q a && !p a).map entry := by
  have found : ∀ a ∈ row, (entry a).path ∈ l.map (·.path) ↔ p a = true := by
    intro a member
    have kept := @path_mem_fresh_iff [] l (entry a).path
    simp only [first, List.not_mem_nil, not_false_eq_true, and_true, List.map_map] at kept
    rw [← kept, List.mem_map]
    constructor
    · intro h
      obtain ⟨b, given, same⟩ := h
      obtain ⟨given, selected⟩ := List.mem_filter.mp given
      rw [told a member b given same.symm, selected]
    · exact fun selected => ⟨a, List.mem_filter.mpr ⟨member, selected⟩, rfl⟩
  rw [fresh_append_eq, first, second, List.map_append, List.filter_map, List.filter_filter]
  congr 2
  apply List.filter_congr
  intro a member
  rw [Function.comp_apply, Bool.and_comm, decide_not, decide_eq_decide.mpr (found a member),
    Bool.decide_coe]

end Search

namespace Task

variable {world : World} {options : Options}

section Steady
variable (steady : world.Steady)
include steady

/-- What lies below different children is found apart. -/
theorem fresh_found_descend (e : Entry) (segments : List Pattern) :
    Search.fresh [] ((trace world options (.descend e segments)).filterMap Sign.found?) =
      (world.offered options e).flatMap fun child => Search.fresh []
        ((trace world options (.visit child [child.name] segments)).filterMap Sign.found?) := by
  rw [found_descend steady]
  apply Search.fresh_flatMap_of_apart
  apply (World.pairwise_offered fun _ => steady.pairwise_names).imp_of_mem
  intro a b ha hb ne x found d found' same
  obtain ⟨names, leads⟩ := leads_of_found steady found
  obtain ⟨names', leads'⟩ := leads_of_found steady found'
  rw [leads.path_eq_of_offered steady ha, leads'.path_eq_of_offered steady hb] at same
  exact ne (by simpa using congrArg Path.parts same : a.name = b.name ∧ names = names').1

theorem fresh_found_visit_nil (e : Entry) (segments : List Pattern) :
    Search.fresh [] ((trace world options (.visit e [] segments)).filterMap Sign.found?) =
      (if segments.all Pattern.isGlobstar then [e] else []) ++
        (world.offered options e).flatMap fun child => Search.fresh []
          ((trace world options (.visit child [child.name] segments)).filterMap Sign.found?) := by
  have own : ((if segments.all Pattern.isGlobstar then [Sign.found e] else []).filterMap
      Sign.found?) = if segments.all Pattern.isGlobstar then [e] else [] := by
    split <;> rfl
  rw [trace_visit_nil, List.filterMap_append, own, Search.fresh_append_of_apart,
    fresh_found_descend steady]
  · congr 1
    split <;> rfl
  · intro d found doubled
    rw [found_descend steady] at found
    obtain ⟨child, given, found⟩ := List.mem_flatMap.mp found
    obtain ⟨names, leads⟩ := leads_of_found steady found
    have path : d.path = e.path := by
      split at doubled
      · simpa using doubled
      · cases doubled
    rw [leads.path_eq_of_offered steady given] at path
    simpa using congrArg Path.parts path

/-- What a `**` finds before it takes a name and what it finds after that make up all that it matches,
in pre-order. -/
theorem fresh_found_globstar (hidden : options.hidden = true) {e : Entry} {name : Text}
    {names : List Text} {segments : List Pattern} (spaced : Pattern.Spaced (.globstar :: segments))
    (aside : Search.fresh [] ((trace world options
      (.visit e (name :: names) segments)).filterMap Sign.found?) =
        world.matching options e (name :: names) segments)
    (taken : Search.fresh [] ((trace world options
      (.visit e names (.globstar :: segments))).filterMap Sign.found?) =
        world.matching options e names (.globstar :: segments)) :
    Search.fresh [] ((trace world options
      (.visit e (name :: names) (.globstar :: segments))).filterMap Sign.found?) =
        world.matching options e (name :: names) (.globstar :: segments) := by
  have free : ∀ names, ∀ w ∈ waypoints true names, w.Spanned := by
    intro names w member
    obtain ⟨name, -, rfl⟩ := List.mem_map.mp member
    exact Or.inl rfl
  have spanned : (⟨name, true⟩ : Waypoint).Spanned := Or.inl rfl
  rw [trace_visit_globstar, hidden, Bool.true_or, if_pos spanned, List.filterMap_append,
    Search.fresh_append_select ?_ aside taken, Search.filter_append_filter]
  · unfold World.matching
    congr 1
    apply List.filter_congr
    intro o _
    have either := @Pattern.Matches.globstar_cons_iff segments ⟨name, true⟩
      (waypoints true (names ++ o.1))
    rw [and_iff_right spanned] at either
    rw [← Bool.decide_or]
    exact decide_eq_decide.mpr either.symm
  · rcases Pattern.Matches.covers_or_alone spanned spaced with covers | alone
    · apply List.pairwise_of_forall
      intro a b matched _
      exact decide_eq_true (covers _ (free _) (of_decide_eq_true matched))
    · apply (World.pairwise_outline e).imp
      intro a b filled _ matched
      have none : waypoints true (names ++ b.1) = [] := alone _ (of_decide_eq_true matched)
      exact absurd (List.append_eq_nil_iff.mp (List.map_eq_nil_iff.mp none)).2 filled
  · intro a ha b hb same
    rw [World.outline_names_eq steady ha hb same]

/-- Where hidden names are not left out and the segments are spaced, what a visit finds for the first
time is what matches, in pre-order. -/
theorem fresh_found_visit (hidden : options.hidden = true) (e : Entry) (names : List Text)
    (segments : List Pattern) (spaced : Pattern.Spaced segments) :
    Search.fresh [] ((trace world options (.visit e names segments)).filterMap Sign.found?) =
      world.matching options e names segments := by
  induction e, names, segments using visit_induction world with
  | exhausted e segments deeper =>
    rw [fresh_found_visit_nil steady, World.matching_nil]
    congr 1
    apply List.flatMap_congr
    intro child given
    obtain ⟨all, may, listed, member, -⟩ := World.mem_offered_iff.mp given
    exact deeper none all (Bool.and_eq_true_iff.mp may).1 listed child member spaced
  | stuck e name names =>
    rw [trace_visit_stuck, World.matching_eq_nil]
    · rfl
    · intro below h
      cases h
  | named e name names segment segments first second third =>
    by_cases spans : segment = .globstar
    · subst spans
      exact fresh_found_globstar steady hidden spaced (first spaced.tail) (second spaced)
    · rw [trace_visit_after, hidden, Bool.true_or]
      rcases Pattern.after_of_named spans ⟨name, true⟩ with taken | refused
      · rw [taken, List.flatMap_singleton, third spaced.tail]
        apply World.matching_congr
        intro below
        exact (Pattern.matches_cons_of_taken (taken segments)).symm
      · rw [refused, World.matching_eq_nil]
        · rfl
        · intro below
          exact Pattern.not_matches_of_refused (refused segments)

end Steady
end Task

namespace Search

/-- What matches at the base of a search and below it, in pre-order, as far as the options ask for it. -/
def preorder (world : World) (options : Options) (cwd : List Text) (root : Path)
    (segments : List Pattern) : List Entry :=
  match world.rootEntry (base cwd root segments) with
  | none => []
  | some top => (world.matching options top (baseNames cwd root segments)
      (remaining segments)).filter options.wanted.admits

theorem preorder_congr {world world' : World} {options : Options} {cwd : List Text} {root : Path}
    {segments : List Pattern} (roots : ∀ p, world.rootEntry p = world'.rootEntry p)
    (offers : ∀ e, world.offered options e = world'.offered options e) :
    preorder world options cwd root segments = preorder world' options cwd root segments := by
  unfold preorder World.matching
  rw [roots]
  simp only [World.outline_congr offers]

section Opened
variable {cwd : List Text} {root : Path} {segments : List Pattern} {options : Options}

theorem found_opened {world : World} (steady : world.Steady) (hidden : options.hidden = true)
    (spaced : Pattern.Spaced segments) :
    (fresh [] (((⟨options, [.start (base cwd root segments) (baseNames cwd root segments)
      (remaining segments)], []⟩ : Search).outlook world).signs.filterMap Sign.found?)).filter
        options.wanted.admits = preorder world options cwd root segments := by
  have spaced' : Pattern.Spaced (remaining segments) := by
    unfold remaining
    split
    · exact spaced
    · exact spaced.drop _
  rw [outlook_opened, preorder]
  cases world.rootEntry (base cwd root segments) with
  | none => rfl
  | some top => exact congrArg _ (Task.fresh_found_visit steady hidden top _ _ spaced')

/-- Where hidden names are not left out and the segments are spaced, a search gives what matches in
pre-order: all of it, or as much as comes before a directory that cannot be listed, if it ends there. -/
theorem drain_preorder (l : Lister) (fs : FileSystem) (filter : Option Filter) {pattern : Text}
    (parsed : Pattern.parse pattern = .ok segments) (spaced : Pattern.Spaced segments)
    (hidden : options.hidden = true) : ∃ s, start cwd root pattern options = .ok s ∧
      (s.drain (l.world filter fs cwd)).1.entries <+:
        preorder (l.world filter fs cwd) options cwd root segments ∧
      (options.strict = false ∨ (s.drain (l.world filter fs cwd)).1.failure = none →
        (s.drain (l.world filter fs cwd)).1.entries =
          preorder (l.world filter fs cwd) options cwd root segments) := by
  have opens : start cwd root pattern options = .ok ⟨options, [.start (base cwd root segments)
      (baseNames cwd root segments) (remaining segments)], []⟩ :=
    start_eq_ok_iff.mpr ⟨segments, parsed, rfl⟩
  have whole : preorder (l.world filter fs cwd) options cwd root segments =
      preorder ((l.listing fs cwd).unhinted.world filter) options cwd root segments :=
    preorder_congr (fun _ => rfl) (fun _ => rfl)
  rw [whole, ← found_opened (l.steady_unhinted fs cwd filter) hidden spaced]
  refine ⟨_, opens, ?_⟩
  rw [drain_eq_unhinted l filter opens]
  constructor
  · exact Outlook.rest_prefix _
  · intro calm
    have calm : Sign.Calm ((⟨options, [.start (base cwd root segments) (baseNames cwd root segments)
        (remaining segments)], []⟩ : Search).outlook
          ((l.listing fs cwd).unhinted.world filter)).signs := by
      rcases calm with lenient | unfailed
      · exact calm_signs (Or.inl lenient)
      · exact Sign.calm_iff_untilFailure.mpr unfailed
    rw [Outlook.rest_of_calm calm]
    rfl

theorem drain_preorder_sample :
    ∃ s, start [] ⟨.relative, []⟩ "**/a/**/x".toList .standard = .ok s ∧
      (s.drain (Lister.plain.world none .sample [])).1.entries =
        preorder (Lister.plain.world none .sample []) .standard [] ⟨.relative, []⟩
          [.globstar, .component [.text ['a']], .globstar, .component [.text ['x']]] := by
  have parsed : Pattern.parse "**/a/**/x".toList = .ok [.globstar, .component [.text ['a']],
      .globstar, .component [.text ['x']]] :=
    Pattern.parse_eq_ok_iff.mpr (by cbv)
  obtain ⟨s, opens, -, whole⟩ := @drain_preorder [] ⟨.relative, []⟩ _ .standard Lister.plain .sample
    none _ parsed (by decide) rfl
  exact ⟨s, opens, whole (Or.inl rfl)⟩

end Opened
end Search
end Wildpath
