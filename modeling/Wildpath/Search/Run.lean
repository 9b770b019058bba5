import Wildpath.Search.World
import Wildpath.Pattern.Parser

/-!
# Running a search

A search gives its entries one by one. Between two entries it may list directories, which the
report tells. No path is reported twice, and what was once passed over stays passed over.
-/

set_option autoImplicit false

namespace Wildpath

structure Listed where
  directory : Path
  hint : Option Text
  deriving DecidableEq

structure ListingError where
  directory : Path
  cause : FileError

def ListingError.message (e : ListingError) : Text :=
  "Cannot list '".toList ++ e.directory.text ++ "': ".toList ++ e.cause.message

structure Search where
  options : Options
  pending : List Task
  /-- The paths that were found, reported or not. -/
  seen : List Path

namespace Search

/-- How often the pattern goes up from the root before anything else. -/
def ascents (segments : List Pattern) : Nat := (segments.takeWhile Pattern.isParent).length

/-- The first task: an anchored pattern is held against the absolute path of the root, a relative
one against what is below the root, moved up as often as the pattern begins with `..`. -/
def firstTask (cwd : List Text) (root : Path) (segments : List Pattern) : Task :=
  if Pattern.isAnchored segments then
    let root := root.absolute cwd
    .start root ([] :: root.parts) segments
  else
    match ascents segments with
    | 0 => .start root [] segments
    | count => .start (root.ascend count) [] (segments.drop count)

/-- Opens a search. Nothing is read before the first entry is asked for. -/
def start (cwd : List Text) (root : Path) (pattern : Text) (options : Options) :
    Except Fault Search := do
  let segments ← Pattern.parse pattern
  return ⟨options, [firstTask cwd root segments], []⟩

/-- The path that a search asks about before anything else. -/
def awaited? (s : Search) : Option Path :=
  match s.pending with
  | .start root _ _ :: _ => some root
  | _ => none

inductive Event where
  | ended
  | quiet
  | listed (l : Listed)
  | entry (e : Entry)
  | failed (l : Listed) (error : ListingError)

def proceed (s : Search) (pending : List Task) : Search := { s with pending }

def pass (s : Search) (e : Entry) (pending : List Task) : Search :=
  { s with pending, seen := e.path :: s.seen }

def step (s : Search) (answers : Answers) : Event × Search :=
  match s.pending with
  | [] => (.ended, s)
  | task :: rest =>
    match task.perform answers s.options with
    | .quiet tasks => (.quiet, s.proceed (tasks ++ rest))
    | .found e tasks =>
      if e.path ∈ s.seen then (.quiet, s.proceed (tasks ++ rest))
      else if s.options.wanted.admits e then (.entry e, s.pass e (tasks ++ rest))
      else (.quiet, s.pass e (tasks ++ rest))
    | .listed directory hint tasks => (.listed ⟨directory.path, hint⟩, s.proceed (tasks ++ rest))
    | .failed directory hint error =>
      (.failed ⟨directory.path, hint⟩ ⟨directory.path, error⟩, s.proceed [])

def Event.goesOn : Event → Bool
  | .ended => false
  | .failed .. => false
  | _ => true

theorem later_of_step {world : World} {s after : Search} {event : Event}
    (h : s.step world.toAnswers = (event, after)) (going : event.goesOn = true) :
    Pending.Later (⟨after.pending⟩ : Pending world) ⟨s.pending⟩ := by
  unfold step at h
  split at h
  · cases h
    cases going
  · next task rest pending =>
    have later := Pending.later_perform world s.options task rest
    rw [pending]
    split at h
    · next performed =>
      rw [performed] at later
      cases h
      exact later
    · next performed =>
      rw [performed] at later
      split at h
      · cases h
        exact later
      · split at h <;> cases h <;> exact later
    · next performed =>
      rw [performed] at later
      cases h
      exact later
    · cases h
      cases going

inductive Outcome where
  | entry (e : Entry)
  | ended
  | failed (error : ListingError)

structure Report where
  listed : List Listed
  outcome : Outcome

def Report.after (l : Listed) (r : Report) : Report := { r with listed := l :: r.listed }

/-- Steps until an entry is found or nothing more is. -/
def next (s : Search) (world : World) : Report × Search :=
  match h : s.step world.toAnswers with
  | (.ended, after) => (⟨[], .ended⟩, after)
  | (.failed l error, after) => (⟨[l], .failed error⟩, after)
  | (.entry e, after) => (⟨[], .entry e⟩, after)
  | (.quiet, after) =>
    have := later_of_step h rfl
    after.next world
  | (.listed l, after) =>
    have := later_of_step h rfl
    let (report, final) := after.next world
    (report.after l, final)
termination_by (⟨s.pending⟩ : Pending world)
decreasing_by all_goals assumption

theorem later_of_next {world : World} {s later : Search} {report : Report} {e : Entry}
    (h : s.next world = (report, later)) (found : report.outcome = .entry e) :
    Pending.Later (⟨later.pending⟩ : Pending world) ⟨s.pending⟩ := by
  fun_induction next s world generalizing report later with
  | case1 => cases h; cases found
  | case2 => cases h; cases found
  | case3 s e after stepped => cases h; exact later_of_step stepped rfl
  | case4 s after _ first ih => exact (ih h found).trans first
  | case5 s l after _ first inner final run ih =>
    cases h
    exact (ih run found).trans first

structure Rest where
  entries : List Entry
  listed : List Listed
  failure : Option ListingError

def drain (s : Search) (world : World) : Rest × Search :=
  match h : s.next world with
  | (⟨listed, .ended⟩, later) => (⟨[], listed, none⟩, later)
  | (⟨listed, .failed error⟩, later) => (⟨[], listed, some error⟩, later)
  | (⟨listed, .entry e⟩, later) =>
    have := later_of_next h rfl
    let (rest, final) := later.drain world
    (⟨e :: rest.entries, listed ++ rest.listed, rest.failure⟩, final)
termination_by (⟨s.pending⟩ : Pending world)
decreasing_by assumption

end Search
end Wildpath
