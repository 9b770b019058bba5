import Wildpath.Proofs.Canonical
import Wildpath.Proofs.Opening
import Wildpath.Proofs.Outcomes

/-!
# What a command that succeeds has done

It has found its directory, taken its options, made a filter of what it was told to leave out, opened a
search, and drained it without a failure. Each of these steps reads some of the settings only.
-/

set_option autoImplicit false

namespace Wildpath

/-- The filter is the one of the plan; without a plan there is none. -/
def Filter.Made (fs : FileSystem) (cwd : List Text) : Option Plan → Option Filter → Prop
  | none, filter => filter = none
  | some plan, filter => plan.make fs cwd = .ok filter

theorem Cursor.start_eq_ok_iff {fs : FileSystem} {cwd : List Text} {r : Request} {c : Cursor} :
    start fs cwd r = .ok c ↔ ∃ options filter search, Options.ofWish r.options = .ok options ∧
      Filter.Made fs cwd r.plan filter ∧
      Search.start cwd r.root r.pattern options = .ok search ∧ c = ⟨search, r.lister, filter⟩ := by
  obtain ⟨root, pattern, wish, plan, lister⟩ := r
  unfold start
  cases plan with
  | none =>
    simp only [Pattern.bind_eq_ok_iff, Pattern.mapError_eq_ok_iff, Filter.Made]
    constructor
    · intro h
      obtain ⟨options, sound, filter, made, search, opens, h⟩ := h
      cases made
      cases h
      exact ⟨options, none, search, sound, rfl, opens, rfl⟩
    · intro h
      obtain ⟨options, filter, search, sound, rfl, opens, rfl⟩ := h
      exact ⟨options, sound, none, rfl, search, opens, rfl⟩
  | some plan =>
    simp only [Pattern.bind_eq_ok_iff, Pattern.mapError_eq_ok_iff, Filter.Made]
    constructor
    · intro h
      obtain ⟨options, sound, filter, made, search, opens, h⟩ := h
      cases h
      exact ⟨options, filter, search, sound, made, opens, rfl⟩
    · intro h
      obtain ⟨options, filter, search, sound, made, opens, rfl⟩ := h
      exact ⟨options, sound, filter, made, search, opens, rfl⟩

namespace Command

variable {fs : FileSystem} {cwd : List Text} {s : Settings}

/-- The options of the search that the settings ask for. -/
def Settings.Asks (s : Settings) (options : Options) : Prop :=
  ∃ limit, depthLimit s.level = .ok limit ∧
    Options.ofWish ⟨s.hidden, s.directoriesOnly, s.othersOnly, limit, s.strict⟩ = .ok options

/-- The filter that the settings ask for. -/
def Settings.Prunes (fs : FileSystem) (cwd : List Text) (s : Settings) (filter : Option Filter) :
    Prop :=
  ∃ plan, prunePlan s (Path.ofText s.directory) = .ok plan ∧ Filter.Made fs cwd plan filter

/-- The settings lead to a search with a filter. -/
structure Settings.Opens (fs : FileSystem) (cwd : List Text) (s : Settings) (options : Options)
    (filter : Option Filter) (search : Search) : Prop where
  admitted : s.Admitted fs cwd
  asks : s.Asks options
  prunes : s.Prunes fs cwd filter
  starts : Search.start cwd (Path.ofText s.directory) s.pattern options = .ok search

end Command

namespace Host
open Command

variable {κ : Type} {h : Host κ} {cwd : List Text} {s : Settings}

/-- A search that was opened is one that the settings ask for. -/
theorem exists_start_iff {c : Cursor} : (∃ r, h.request cwd s = .ok r ∧
      Cursor.start h.fs cwd r = .ok c) ↔ h.bars cwd (Path.ofText s.directory) = none ∧
    ∃ options filter search, s.Opens h.fs cwd options filter search ∧ c = ⟨search, .plain, filter⟩ := by
  simp only [request_eq_ok_iff, asked_eq_ok_iff, Cursor.start_eq_ok_iff]
  constructor
  · intro given
    obtain ⟨_, ⟨unbarred, admitted, limit, plan, limited, planned, rfl⟩,
      options, filter, search, sound, made, opens, rfl⟩ := given
    exact ⟨unbarred, options, filter, search,
      ⟨admitted, ⟨limit, limited, sound⟩, ⟨plan, planned, made⟩, opens⟩, rfl⟩
  · intro given
    obtain ⟨unbarred, options, filter, search,
      ⟨admitted, ⟨limit, limited, sound⟩, ⟨plan, planned, made⟩, opens⟩, rfl⟩ := given
    exact ⟨_, ⟨unbarred, admitted, limit, plan, limited, planned, rfl⟩,
      options, filter, search, sound, made, opens, rfl⟩

/-- Nothing is raised where the search of the settings is opened and begins. -/
structure Meets (h : Host κ) (cwd : List Text) (s : Settings) (search : Search) : Prop where
  directory : h.bars cwd (Path.ofText s.directory) = none
  root : ∀ root, search.awaited? = some root → h.bars cwd root = none

theorem entries_eq_ok_iff {found : List Entry} : h.entries cwd s = .ok found ↔
    ∃ options filter search, s.Opens h.fs cwd options filter search ∧ h.Meets cwd s search ∧
      (search.drain (Lister.plain.world filter h.fs cwd)).1.failure = none ∧
      (search.drain (Lister.plain.world filter h.fs cwd)).1.entries = found := by
  have ended (c : Cursor) : gathered (c.drain h.fs cwd).1 = .ok found ↔
      (c.drain h.fs cwd).1.failure = none ∧ (c.drain h.fs cwd).1.entries = found := by
    unfold gathered
    cases (c.drain h.fs cwd).1.failure <;> simp
  have whole : h.entries cwd s = .ok found ↔ ∃ c, (∃ r, h.request cwd s = .ok r ∧
      Cursor.start h.fs cwd r = .ok c) ∧ h.begin cwd c.search = .ok () ∧
        (c.drain h.fs cwd).1.failure = none ∧ (c.drain h.fs cwd).1.entries = found := by
    unfold entries
    simp only [Pattern.bind_eq_ok_iff, Pattern.mapError_eq_ok_iff, ended]
    constructor
    · rintro ⟨r, asked, c, started, ⟨⟩, begun, done⟩
      exact ⟨c, ⟨r, asked, started⟩, begun, done⟩
    · rintro ⟨c, ⟨r, asked, started⟩, begun, done⟩
      exact ⟨r, asked, c, started, (), begun, done⟩
  rw [whole]
  simp only [exists_start_iff, begin_eq_ok_iff]
  constructor
  · rintro ⟨_, ⟨unbarred, options, filter, search, opens, rfl⟩, begun, done⟩
    exact ⟨options, filter, search, opens, ⟨unbarred, begun⟩, done⟩
  · rintro ⟨options, filter, search, opens, meets, done⟩
    exact ⟨_, ⟨meets.directory, options, filter, search, opens, rfl⟩, meets.root, done⟩

theorem listing_eq_ok_iff {text : Text} : h.listing cwd s = .ok text ↔
    ∃ found, h.entries cwd s = .ok found ∧
      text = Text.joined [s.separator] (found.map (·.path.text)) := by
  unfold listing
  rw [Pattern.bind_eq_ok_iff]
  simp [pure, Except.pure, eq_comm]

theorem search_eq_ok_iff {argv : List Text} {text : Text} : h.search cwd argv = .ok text ↔
    ∃ s, Settings.read argv = .ok s ∧ h.listing cwd s = .ok text := by
  unfold search
  simp only [Pattern.bind_eq_ok_iff, Pattern.mapError_eq_ok_iff]

end Host

namespace Command

variable {fs : FileSystem} {cwd : List Text} {s : Settings}

theorem entries_eq_ok_iff {found : List Entry} : entries fs cwd s = .ok found ↔
    ∃ options filter search, s.Opens fs cwd options filter search ∧
      (search.drain (Lister.plain.world filter fs cwd)).1.failure = none ∧
      (search.drain (Lister.plain.world filter fs cwd)).1.entries = found := by
  have meets (search : Search) : (Host.plain fs).Meets cwd s search := ⟨rfl, fun _ _ => rfl⟩
  rw [entries, Pattern.mapError_eq_ok_iff, Host.entries_eq_ok_iff]
  simp only [meets, true_and]
  rfl

theorem listing_eq_ok_iff {text : Text} : listing fs cwd s = .ok text ↔
    ∃ found, entries fs cwd s = .ok found ∧
      text = Text.joined [s.separator] (found.map (·.path.text)) := by
  simp only [listing, entries, Pattern.mapError_eq_ok_iff, Host.listing_eq_ok_iff]

theorem plain_listing_eq_ok_iff {text : Text} :
    (Host.plain fs).listing cwd s = .ok text ↔ listing fs cwd s = .ok text :=
  Pattern.mapError_eq_ok_iff.symm

theorem search_eq_ok_iff {argv : List Text} {text : Text} : search fs cwd argv = .ok text ↔
    ∃ s, Settings.read argv = .ok s ∧ listing fs cwd s = .ok text := by
  simp only [search, listing, Pattern.mapError_eq_ok_iff, Host.search_eq_ok_iff]

end Command
end Wildpath
