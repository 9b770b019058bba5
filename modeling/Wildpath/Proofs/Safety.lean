import Wildpath.Search.Run
import Wildpath.Proofs.Canonical
import Wildpath.Proofs.Matching
import Wildpath.Proofs.Opening
import Wildpath.Proofs.Reach

/-!
# Searches in a world that changes

Between two steps of a search anything may happen: files come and go, a listing contradicts the one
before, a directory cannot be listed any more. Whatever the listings were, every entry that was
reported ends a way down from the root on which each entry was given by a listing of the one before,
and the names on the way match the pattern. The listings themselves are made nowhere else.
-/

set_option autoImplicit false

namespace Wildpath

open Pattern (Matches Leaves)

/-- The world at one moment. The lister may answer what it likes, but what it gives for a directory
is one level deeper. -/
structure Moment where
  fs : FileSystem
  cwd : List Text
  children : Entry → Option Text → Except FileError (List Entry)
  deeper : ∀ directory hint all, children directory hint = .ok all →
    ∀ child ∈ all, child.depth = directory.depth + 1

def Moment.answers (m : Moment) (excludes : Entry → Bool) : Answers :=
  ⟨m.fs.rootEntry m.cwd, m.children, excludes⟩

/-- The listing that a task asks for: the directory and the hint. -/
def Task.asks? (options : Options) : Task → Option (Entry × Option Text)
  | .descend entry (segment :: _) =>
    if mayDescend options entry then some (entry, segment.hint?) else none
  | _ => none

theorem Task.asks?_eq_some {options : Options} {task : Task} {d : Entry} {hint : Option Text}
    (asked : task.asks? options = some (d, hint)) :
    mayDescend options d = true ∧
      ∃ segment segments, task = .descend d (segment :: segments) ∧ hint = segment.hint? := by
  cases task with
  | descend e segments =>
    cases segments with
    | nil => cases asked
    | cons segment segments =>
      cases may : mayDescend options e with
      | false => simp [asks?, may] at asked
      | true =>
        simp only [asks?, may, if_true, Option.some.injEq, Prod.mk.injEq] at asked
        obtain ⟨rfl, rfl⟩ := asked
        exact ⟨may, segment, segments, rfl, rfl⟩
  | _ => cases asked

def Step.asked? : Step → Option (Entry × Option Text)
  | .listed directory hint _ => some (directory, hint)
  | .failed directory hint _ => some (directory, hint)
  | _ => none

theorem Task.asked?_perform (answers : Answers) (options : Options) (task : Task) :
    (task.perform answers options).asked? = task.asks? options := by
  cases task with
  | start root names segments =>
    simp only [perform]
    cases answers.rootEntry root <;> rfl
  | visit entry names segments =>
    cases names with
    | nil =>
      simp only [perform]
      split <;> rfl
    | cons name names => cases segments <;> rfl
  | descend entry segments =>
    cases segments with
    | nil => rfl
    | cons segment segments =>
      cases may : mayDescend options entry with
      | false => simp [perform, asks?, may, Step.asked?]
      | true =>
        simp only [perform, asks?, may, if_true]
        cases answers.children entry segment.hint? with
        | ok children => rfl
        | error error => cases options.strict <;> rfl
  | offer children segments =>
    cases children with
    | nil => rfl
    | cons child children =>
      simp only [perform]
      cases answers.excludes child <;> rfl

namespace Search

def asks? (s : Search) : Option (Entry × Option Text) :=
  s.pending.head?.bind (Task.asks? s.options)

def Event.reported? : Event → Option Entry
  | .entry e => some e
  | _ => none

def Outcome.reported? : Outcome → Option Entry
  | .entry e => some e
  | _ => none

def Event.listed? : Event → Option Listed
  | .listed l => some l
  | .failed l _ => some l
  | _ => none

theorem listed?_step (s : Search) (answers : Answers) :
    (s.step answers).1.listed? = s.asks?.map fun q => ⟨q.1.path, q.2⟩ := by
  unfold step asks?
  cases s.pending with
  | nil => rfl
  | cons task rest =>
    simp only [List.head?_cons, Option.bind_some]
    rw [← Task.asked?_perform answers s.options task]
    cases task.perform answers s.options with
    | quiet tasks => rfl
    | found e tasks =>
      simp only [Step.asked?]
      split
      · rfl
      · split <;> rfl
    | listed directory hint tasks => rfl
    | failed directory hint error => rfl

theorem step_spec {s : Search} {task : Task} {rest : List Task} (pending : s.pending = task :: rest)
    (answers : Answers) :
    (s.step answers).2.options = s.options ∧
    (∀ new ∈ (s.step answers).2.pending,
      new ∈ (task.perform answers s.options).tasks ∨ new ∈ rest) ∧
    (∀ p ∈ s.seen, p ∈ (s.step answers).2.seen) ∧
    ∀ e ∈ (s.step answers).1.reported?, (∃ tasks, task.perform answers s.options = .found e tasks) ∧
      s.options.wanted.admits e = true ∧ e.path ∉ s.seen ∧ e.path ∈ (s.step answers).2.seen := by
  unfold step
  simp only [pending]
  cases performed : task.perform answers s.options with
  | quiet tasks => simp [proceed, Step.tasks, Event.reported?]
  | listed directory hint tasks => simp [proceed, Step.tasks, Event.reported?]
  | failed directory hint error => simp [proceed, Event.reported?]
  | found e tasks =>
    simp only [Step.tasks]
    split
    · simp [proceed, Event.reported?]
    · next unseen =>
      split
      · next admitted => simpa [pass, Event.reported?, admitted, unseen] using fun p h => Or.inr h
      · simpa [pass, Event.reported?] using fun p h => Or.inr h

end Search

structure Call where
  directory : Entry
  hint : Option Text
  answer : Except FileError (List Entry)

def Call.listed (call : Call) : Listed := ⟨call.directory.path, call.hint⟩

def Moment.call (m : Moment) (asked : Entry × Option Text) : Call :=
  ⟨asked.1, asked.2, m.children asked.1 asked.2⟩

/-- What stays the same while a search goes on. The names are those of the base, which the segments
are held against first. -/
structure Quest where
  options : Options
  excludes : Entry → Bool
  names : List Text
  segments : List Pattern

namespace Quest

variable (q : Quest)

/-- The names that are held against the segments at the end of a way down. -/
def way (below : List Entry) : List Waypoint :=
  waypoints true q.names ++ waypoints q.options.hidden (below.map (·.name))

def Opens (e : Entry) : Prop := e.isDirectory = true ∧ ∀ depth ∈ q.options.maxDepth, e.depth < depth

/-- A way down from the top: each entry was given by a listing of the one before. -/
inductive Descent (calls : List Call) (top : Entry) : List Entry → Entry → Prop where
  | top : Descent calls top [] top
  | down {below : List Entry} {e child : Entry} {hint : Option Text} {all : List Entry} :
    Descent calls top below e → q.Opens e → ⟨e, hint, .ok all⟩ ∈ calls → child ∈ all →
    q.excludes child = false → Descent calls top (below ++ [child]) child

def Finds (calls : List Call) (top e : Entry) : Prop :=
  ∃ below, q.Descent calls top below e ∧ Matches q.segments (q.way below)

/-- The directory ends a way down whose names match the segments before the one that gives the hint.
A `**` that gives the hint may have been matched too, since it stays. -/
def Allows (calls : List Call) (top : Entry) (call : Call) : Prop :=
  q.Opens call.directory ∧
  ∃ below before segment after, q.Descent calls top below call.directory ∧
    q.segments = before ++ segment :: after ∧ call.hint = segment.hint? ∧
    (Matches before (q.way below) ∨
      segment = .globstar ∧ Matches (before ++ [.globstar]) (q.way below))

/-- What is known of a task that is still to be done. -/
inductive Due (calls : List Call) (top : Entry) : Task → Prop where
  | visit {below : List Entry} {way : List Waypoint} {e : Entry} {names : List Text}
    {segments : List Pattern} : q.Descent calls top below e → Leaves q.segments way segments →
    way ++ waypoints (q.options.hidden || e.depth == 0) names = q.way below →
    Due calls top (.visit e names segments)
  | descend {below : List Entry} {e : Entry} {segments : List Pattern} :
    q.Descent calls top below e → Leaves q.segments (q.way below) segments →
    Due calls top (.descend e segments)
  | offer {below children : List Entry} {segments : List Pattern} :
    Leaves q.segments (q.way below) segments → (∀ child ∈ children, child.depth ≠ 0) →
    (∀ child ∈ children, q.excludes child = false →
      q.Descent calls top (below ++ [child]) child) → Due calls top (.offer children segments)

variable {q} {calls calls' : List Call} {top : Entry}

theorem mayDescend_iff {e : Entry} : Task.mayDescend q.options e = true ↔ q.Opens e := by
  unfold Task.mayDescend Opens
  cases q.options.maxDepth <;> simp

theorem way_append (below : List Entry) (child : Entry) :
    q.way (below ++ [child]) = q.way below ++ [⟨child.name, q.options.hidden⟩] := by
  simp [way, waypoints]

theorem Descent.mono (more : ∀ call ∈ calls, call ∈ calls') {below : List Entry} {e : Entry}
    (h : q.Descent calls top below e) : q.Descent calls' top below e := by
  induction h with
  | top => exact .top
  | down _ opens given member kept ih => exact .down ih opens (more _ given) member kept

theorem Finds.mono (more : ∀ call ∈ calls, call ∈ calls') {e : Entry}
    (h : q.Finds calls top e) : q.Finds calls' top e := by
  obtain ⟨below, descent, matched⟩ := h
  exact ⟨below, descent.mono more, matched⟩

theorem Due.mono (more : ∀ call ∈ calls, call ∈ calls') {task : Task}
    (h : q.Due calls top task) : q.Due calls' top task := by
  cases h with
  | visit descent left same => exact .visit (descent.mono more) left same
  | descend descent left => exact .descend (descent.mono more) left
  | offer left deep descents =>
    exact .offer left deep fun child member kept => (descents child member kept).mono more

theorem Due.visitName {below : List Entry} {way : List Waypoint} {e : Entry} {name : Text}
    {names : List Text} {segment : Pattern} {segments : List Pattern}
    (descent : q.Descent calls top below e) (left : Leaves q.segments way (segment :: segments))
    (same : way ++ waypoints (q.options.hidden || e.depth == 0) (name :: names) = q.way below) :
    ∀ task ∈ Task.visitName (q.options.hidden || e.depth == 0) e name names segment segments,
      q.Due calls top task := by
  have shift : (way ++ [⟨name, q.options.hidden || e.depth == 0⟩]) ++
      waypoints (q.options.hidden || e.depth == 0) names = q.way below := by
    rw [← same]
    simp [waypoints]
  intro task member
  unfold Task.visitName at member
  split at member
  · rcases List.mem_cons.mp member with rfl | member
    · exact .visit descent left.aside same
    · split at member
      · next spanned =>
        cases List.mem_singleton.mp member
        exact .visit descent (left.span (Waypoint.spanned_iff.mpr spanned)) shift
      · cases member
  · split at member
    · next named =>
      subst named
      cases List.mem_singleton.mp member
      exact .visit descent (.anchor (w := ⟨_, _⟩) left) shift
    · cases member
  · split at member
    · next accepted =>
      cases List.mem_singleton.mp member
      exact .visit descent (.component (w := ⟨_, _⟩) accepted left) shift
    · cases member
  · cases member

theorem Due.offered {below : List Entry} {e : Entry} {segment : Pattern} {segments : List Pattern}
    {m : Moment} {all : List Entry} (descent : q.Descent calls top below e) (opens : q.Opens e)
    (left : Leaves q.segments (q.way below) (segment :: segments))
    (answered : m.children e segment.hint? = .ok all)
    (listed : ⟨e, segment.hint?, .ok all⟩ ∈ calls) :
    q.Due calls top (.offer all (segment :: segments)) := by
  refine .offer left (fun child given => ?_) fun child given kept => ?_
  · have := m.deeper e segment.hint? all answered child given
    omega
  · exact .down descent opens listed given kept

theorem Due.asked {task : Task} (due : q.Due calls top task) {m : Moment} {call : Call}
    (asked : call ∈ (task.asks? q.options).map m.call) : q.Allows calls top call := by
  cases due with
  | visit => cases asked
  | offer => cases asked
  | @descend below e segments descent left =>
    cases segments with
    | nil => cases asked
    | cons segment segments =>
      cases may : Task.mayDescend q.options e with
      | false => simp [Task.asks?, may] at asked
      | true =>
        simp only [Task.asks?, may, if_true, Option.map_some, Option.mem_some] at asked
        subst asked
        obtain ⟨before, same, read⟩ := left.matchesUpTo
        refine ⟨mayDescend_iff.mp may, below, before, segment, segments, descent, same, rfl, ?_⟩
        rcases read with read | ⟨after, next, read⟩
        · exact Or.inl read
        · exact Or.inr ⟨(List.cons.inj next).1, read⟩

theorem Due.found {task : Task} (due : q.Due calls top task) {answers : Answers} {e : Entry}
    {tasks : List Task} (performed : task.perform answers q.options = .found e tasks) :
    q.Finds calls top e := by
  cases due with
  | @visit below way entry names segments descent left same =>
    cases names with
    | nil =>
      simp only [Task.perform] at performed
      split at performed
      · next ended =>
        cases performed
        obtain rfl : way = q.way below := by simpa [waypoints] using same
        exact ⟨below, descent, left.matches ended⟩
      · cases performed
    | cons name names => cases segments <;> cases performed
  | @descend below entry segments descent left =>
    cases segments with
    | nil => cases performed
    | cons segment segments =>
      simp only [Task.perform] at performed
      split at performed
      · split at performed
        · cases performed
        · split at performed <;> cases performed
      · cases performed
  | @offer below children segments left deep descents =>
    cases children with
    | nil => cases performed
    | cons child children =>
      simp only [Task.perform] at performed
      split at performed <;> cases performed

theorem Due.tasks {task : Task} (due : q.Due calls top task) {m : Moment}
    (more : ∀ call ∈ calls, call ∈ calls')
    (listed : ∀ call ∈ (task.asks? q.options).map m.call, call ∈ calls') :
    ∀ new ∈ (task.perform (m.answers q.excludes) q.options).tasks, q.Due calls' top new := by
  intro new member
  cases due with
  | @visit below way e names segments descent left same =>
    have descent := descent.mono more
    cases names with
    | nil =>
      obtain rfl : way = q.way below := by simpa [waypoints] using same
      have : new = .descend e segments := by
        simp only [Task.perform] at member
        split at member <;> exact List.mem_singleton.mp member
      rw [this]
      exact .descend descent left
    | cons name names =>
      cases segments with
      | nil => cases member
      | cons segment segments => exact Due.visitName descent left same new member
  | @descend below e segments descent left =>
    cases segments with
    | nil => cases member
    | cons segment segments =>
      cases may : Task.mayDescend q.options e with
      | false => simp [Task.perform, may, Step.tasks] at member
      | true =>
        simp only [Task.asks?, may, if_true, Option.map_some, Option.mem_some, Moment.call,
          forall_eq'] at listed
        simp only [Task.perform, may, if_true, Moment.answers] at member
        cases answered : m.children e segment.hint? with
        | error error =>
          simp only [answered] at member
          split at member <;> cases member
        | ok all =>
          rw [answered] at listed
          simp only [answered] at member
          rw [List.mem_singleton.mp member]
          exact Due.offered (descent.mono more) (mayDescend_iff.mp may) left answered listed
  | @offer below children segments left deep descents =>
    cases children with
    | nil => cases member
    | cons child children =>
      obtain ⟨childDeep, deep⟩ := List.forall_mem_cons.mp deep
      obtain ⟨childDescent, descents⟩ := List.forall_mem_cons.mp descents
      have rest : q.Due calls' top (.offer children segments) :=
        .offer left deep fun child given kept => (descents child given kept).mono more
      simp only [Task.perform, Moment.answers] at member
      cases kept : q.excludes child with
      | true =>
        simp only [kept, if_true] at member
        rwa [List.mem_singleton.mp member]
      | false =>
        simp only [kept, Bool.false_eq_true, if_false] at member
        rcases List.mem_cons.mp member with rfl | member
        · refine .visit ((childDescent kept).mono more) left ?_
          simp [way_append, waypoints, childDeep]
        · rwa [List.mem_singleton.mp member]

end Quest

/-- A search with what has come of it so far, the latest first. -/
structure Progress where
  search : Search
  calls : List Call
  entries : List Entry

namespace Progress

/-- One step of the search, at the given moment. -/
def step (excludes : Entry → Bool) (p : Progress) (m : Moment) : Progress :=
  let answered := p.search.step (m.answers excludes)
  ⟨answered.2, (p.search.asks?.map m.call).toList ++ p.calls,
    answered.1.reported?.toList ++ p.entries⟩

def run (excludes : Entry → Bool) (p : Progress) (moments : List Moment) : Progress :=
  moments.foldl (step excludes) p

/-- No path is reported twice, only entries of the wanted kind are reported, and each ends a way
down that matches. So does each directory that was listed, by the listings before. -/
structure Safe (q : Quest) (top? : Option Entry) (p : Progress) : Prop where
  distinct : (p.entries.map (·.path)).Nodup
  wanted : ∀ e ∈ p.entries, q.options.wanted.admits e = true
  finds : ∀ e ∈ p.entries, ∃ top ∈ top?, q.Finds p.calls top e
  allows : ∀ later call earlier, p.calls = later ++ call :: earlier →
    ∃ top ∈ top?, q.Allows earlier top call

structure Sound (q : Quest) (top? : Option Entry) (p : Progress) : Prop where
  safe : p.Safe q top?
  options : p.search.options = q.options
  due : ∀ task ∈ p.search.pending, ∃ top ∈ top?, q.Due p.calls top task
  seen : ∀ e ∈ p.entries, e.path ∈ p.search.seen

variable {q : Quest} {top? : Option Entry} {p : Progress}

theorem step_of_nil (pending : p.search.pending = []) (m : Moment) :
    p.step q.excludes m = p := by
  simp [Progress.step, Search.step, Search.asks?, pending, Search.Event.reported?]

theorem mem_entries_step {m : Moment} {e : Entry} (member : e ∈ (p.step q.excludes m).entries) :
    e ∈ (p.search.step (m.answers q.excludes)).1.reported? ∨ e ∈ p.entries :=
  (List.mem_append.mp member).imp_left Option.mem_toList.mp

theorem mem_calls_step {m : Moment} {call : Call} (member : call ∈ p.calls) :
    call ∈ (p.step q.excludes m).calls :=
  List.mem_append_right _ member

section Task
variable {task : Task} {rest : List Task}

theorem calls_step (sound : p.Sound q top?) (pending : p.search.pending = task :: rest)
    (m : Moment) :
    (p.step q.excludes m).calls = ((task.asks? q.options).map m.call).toList ++ p.calls := by
  simp [Progress.step, Search.asks?, pending, sound.options]

theorem Sound.safe_step (sound : p.Sound q top?) (pending : p.search.pending = task :: rest)
    (m : Moment) : (p.step q.excludes m).Safe q top? := by
  obtain ⟨-, -, -, reported⟩ := Search.step_spec pending (m.answers q.excludes)
  rw [sound.options] at reported
  obtain ⟨top, looked, due⟩ := sound.due task (by simp [pending])
  constructor
  case distinct =>
    change (List.map (·.path) ((p.search.step (m.answers q.excludes)).1.reported?.toList ++
      p.entries)).Nodup
    cases event : (p.search.step (m.answers q.excludes)).1.reported? with
    | none => exact sound.safe.distinct
    | some e =>
      obtain ⟨-, -, unseen, -⟩ := reported e event
      refine List.nodup_cons.mpr ⟨fun doubled => ?_, sound.safe.distinct⟩
      obtain ⟨other, member, same⟩ := List.mem_map.mp doubled
      refine unseen ?_
      rw [← show other.path = e.path from same]
      exact sound.seen other member
  case wanted =>
    intro e member
    rcases mem_entries_step member with new | old
    · exact (reported e new).2.1
    · exact sound.safe.wanted e old
  case finds =>
    intro e member
    rcases mem_entries_step member with new | old
    · obtain ⟨tasks, performed⟩ := (reported e new).1
      exact ⟨top, looked, (due.found performed).mono fun _ => mem_calls_step⟩
    · obtain ⟨top, looked, found⟩ := sound.safe.finds e old
      exact ⟨top, looked, found.mono fun _ => mem_calls_step⟩
  case allows =>
    intro later call earlier same
    rw [calls_step sound pending] at same
    cases asked : (task.asks? q.options).map m.call with
    | none =>
      rw [asked] at same
      exact sound.safe.allows later call earlier same
    | some new =>
      rw [asked] at same
      cases later with
      | nil =>
        obtain ⟨rfl, rfl⟩ := List.cons.inj same
        exact ⟨top, looked, due.asked asked⟩
      | cons first later => exact sound.safe.allows later call earlier (List.cons.inj same).2

end Task

/-- Whatever the world is at the moment, a step keeps to what can be relied on. -/
theorem Sound.step (sound : p.Sound q top?) (m : Moment) : (p.step q.excludes m).Sound q top? := by
  cases pending : p.search.pending with
  | nil => rwa [step_of_nil pending]
  | cons task rest =>
    obtain ⟨options, tasks, grown, reported⟩ := Search.step_spec pending (m.answers q.excludes)
    rw [sound.options] at options tasks
    refine ⟨sound.safe_step pending m, options, fun new member => ?due, fun e member => ?seen⟩
    case due =>
      rcases tasks new member with new' | old
      · obtain ⟨top, looked, due⟩ := sound.due task (by simp [pending])
        refine ⟨top, looked, due.tasks (fun _ => mem_calls_step) (fun call listed => ?_) new new'⟩
        rw [calls_step sound pending]
        exact List.mem_append_left _ (Option.mem_toList.mpr listed)
      · obtain ⟨top, looked, due⟩ := sound.due new (by simp [pending, old])
        exact ⟨top, looked, due.mono fun _ => mem_calls_step⟩
    case seen =>
      rcases mem_entries_step member with new | old
      · exact (reported e new).2.2.2
      · exact grown _ (sound.seen e old)

theorem Sound.run (sound : p.Sound q top?) (moments : List Moment) :
    (p.run q.excludes moments).Sound q top? := by
  induction moments generalizing p with
  | nil => exact sound
  | cons m moments ih => exact ih (sound.step m)

theorem safe_of_idle (calls : p.calls = []) (entries : p.entries = []) : p.Safe q top? := by
  constructor <;> simp [calls, entries]

theorem sound_first (options : Options) (excludes : Entry → Bool) (base : Path)
    (names : List Text) (segments : List Pattern) (m : Moment) :
    (step excludes ⟨⟨options, [.start base names segments], []⟩, [], []⟩ m).Sound
      ⟨options, excludes, names, segments⟩ (m.fs.rootEntry m.cwd base) := by
  cases rooted : m.fs.rootEntry m.cwd base with
  | none =>
    have first : step excludes ⟨⟨options, [.start base names segments], []⟩, [], []⟩ m =
        ⟨⟨options, [], []⟩, [], []⟩ := by
      simp [step, Search.step, Task.perform, Moment.answers, Search.asks?, Task.asks?, rooted,
        Search.Event.reported?, Search.proceed]
    rw [first]
    exact ⟨safe_of_idle rfl rfl, rfl, by simp, by simp⟩
  | some top =>
    have first : step excludes ⟨⟨options, [.start base names segments], []⟩, [], []⟩ m =
        ⟨⟨options, [.visit top names segments], []⟩, [], []⟩ := by
      simp [step, Search.step, Task.perform, Moment.answers, Search.asks?, Task.asks?, rooted,
        Search.Event.reported?, Search.proceed]
    obtain ⟨-, -, -, shallow⟩ := FileSystem.stands_rootEntry rooted
    have due : (⟨options, excludes, names, segments⟩ : Quest).Due [] top
        (.visit top names segments) :=
      .visit .top .start (by simp [Quest.way, waypoints, shallow])
    rw [first]
    exact ⟨safe_of_idle rfl rfl, rfl, by simpa using due, by simp⟩

theorem step_of_event {excludes : Entry → Bool} {m : Moment} {s after : Search}
    {event : Search.Event} (stepped : s.step (m.answers excludes) = (event, after))
    (calls : List Call) (entries : List Entry) :
    ∃ new, step excludes ⟨s, calls, entries⟩ m =
        ⟨after, new ++ calls, event.reported?.toList ++ entries⟩ ∧
      new.reverse.map Call.listed = event.listed?.toList := by
  refine ⟨(s.asks?.map m.call).toList, by simp [step, stepped], ?_⟩
  have asked := Search.listed?_step s (m.answers excludes)
  rw [stepped] at asked
  rw [asked]
  cases s.asks? <;> rfl

/-- Drawing an entry is a number of steps, and the listings it reports are those that were made. -/
theorem exists_run_eq_next (excludes : Entry → Bool) (m : Moment) (world : World)
    (same : world.toAnswers = m.answers excludes) (s : Search) (calls : List Call)
    (entries : List Entry) :
    ∃ n new, run excludes ⟨s, calls, entries⟩ (List.replicate n m) =
        ⟨(s.next world).2, new ++ calls, (s.next world).1.outcome.reported?.toList ++ entries⟩ ∧
      new.reverse.map Call.listed = (s.next world).1.listed := by
  fun_induction Search.next s world generalizing calls entries with
  | case1 s after stepped =>
    obtain ⟨new, now, told⟩ := step_of_event (same ▸ stepped) calls entries
    exact ⟨1, new, now, told⟩
  | case2 s l error after stepped =>
    obtain ⟨new, now, told⟩ := step_of_event (same ▸ stepped) calls entries
    exact ⟨1, new, now, told⟩
  | case3 s e after stepped =>
    obtain ⟨new, now, told⟩ := step_of_event (same ▸ stepped) calls entries
    exact ⟨1, new, now, told⟩
  | case4 s after stepped first ih =>
    obtain ⟨new, now, told⟩ := step_of_event (same ▸ stepped) calls entries
    obtain ⟨n, more, later, told'⟩ := ih (new ++ calls) entries
    refine ⟨n + 1, more ++ new, ?_, ?_⟩
    · rw [List.replicate_succ, run, List.foldl_cons, now, List.append_assoc]
      exact later
    · rw [List.reverse_append, List.map_append, told, told']
      rfl
  | case5 s l after stepped first report final drawn ih =>
    obtain ⟨new, now, told⟩ := step_of_event (same ▸ stepped) calls entries
    obtain ⟨n, more, later, told'⟩ := ih (new ++ calls) entries
    rw [drawn] at later told'
    refine ⟨n + 1, more ++ new, ?_, ?_⟩
    · rw [List.replicate_succ, run, List.foldl_cons, now, List.append_assoc]
      exact later
    · rw [List.reverse_append, List.map_append, told, told']
      rfl

/-- Whatever happens in the world while a search goes on, at every point what it reported and listed
can be relied on. -/
theorem run_safe (cwd : List Text) (root : Path) {pattern : Text} {segments : List Pattern}
    (parsed : Pattern.parse pattern = .ok segments) (options : Options) (excludes : Entry → Bool)
    (moments : List Moment) :
    ∃ s, Search.start cwd root pattern options = .ok s ∧
      (run excludes ⟨s, [], []⟩ moments).Safe
        ⟨options, excludes, Search.baseNames cwd root segments, Search.remaining segments⟩
        (moments.head?.bind fun m => m.fs.rootEntry m.cwd (Search.base cwd root segments)) := by
  refine ⟨_, Search.start_eq_ok_iff.mpr ⟨segments, parsed, rfl⟩, ?_⟩
  cases moments with
  | nil => exact safe_of_idle rfl rfl
  | cons m moments =>
    have first := sound_first options excludes (Search.base cwd root segments)
      (Search.baseNames cwd root segments) (Search.remaining segments) m
    exact (first.run moments).safe

end Progress

/-- A moment at which every directory has one subdirectory, without end. -/
def Moment.endless : Moment where
  fs := .sample
  cwd := []
  children directory _ :=
    .ok [⟨directory.path.child ['z'], ['z'], true, directory.depth + 1⟩]
  deeper directory hint all answered child member := by
    cases answered
    rw [List.mem_singleton.mp member]

/-- A moment at which no directory can be listed. -/
def Moment.barred : Moment where
  fs := .empty
  cwd := []
  children directory _ := .error ⟨.denied, directory.path.text⟩
  deeper directory hint all answered := by cases answered

theorem Progress.run_safe_endless :
    ∃ s, Search.start [] ⟨.relative, []⟩ "**/z".toList .standard = .ok s ∧
      (run (fun e => e.depth == 7) ⟨s, [], []⟩
        (List.replicate 9 .endless ++ [.barred] ++ List.replicate 90 .endless)).Safe
        ⟨.standard, fun e => e.depth == 7, [], [.globstar, .component [.text ['z']]]⟩
        (some ⟨⟨.relative, []⟩, [], true, 0⟩) := by
  have parsed : Pattern.parse "**/z".toList = .ok [.globstar, .component [.text ['z']]] :=
    Pattern.parse_eq_ok_iff.mpr (by cbv)
  have rooted : Moment.endless.fs.rootEntry Moment.endless.cwd ⟨.relative, []⟩ =
      some ⟨⟨.relative, []⟩, [], true, 0⟩ := by
    rw [FileSystem.rootEntry, Moment.endless, FileSystem.resolve_sample]
    decide
  obtain ⟨s, opens, safe⟩ := run_safe [] ⟨.relative, []⟩ parsed .standard (fun e => e.depth == 7)
    (List.replicate 9 .endless ++ [.barred] ++ List.replicate 90 .endless)
  refine ⟨s, opens, ?_⟩
  rw [← rooted]
  exact safe

end Wildpath
