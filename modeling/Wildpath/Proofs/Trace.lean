import Wildpath.Search.Run
import Wildpath.Proofs.Fresh

/-!
# The trace of a search

In a world that stays as it is, a task has a trace: the entries found and the directories listed
while the task and everything that comes of it is carried out. The trace of a task is put together
from the traces of smaller tasks, so what a search does can be said of lists, by induction on
tasks. Drawing entries from a search reads its trace from the front: doubles are passed over, and
nothing is read after a failure.
-/

set_option autoImplicit false

namespace Wildpath

/-- What shows on the outside while a task is carried out. -/
inductive Sign where
  | found (entry : Entry)
  | listed (directory : Entry) (hint : Option Text)
  | failed (directory : Entry) (hint : Option Text) (error : FileError)

def Step.signs : Step → List Sign
  | .quiet _ => []
  | .found entry _ => [.found entry]
  | .listed directory hint _ => [.listed directory hint]
  | .failed directory hint error => [.failed directory hint error]

namespace Task

variable (world : World) (options : Options)

/-- The signs of a task, followed by those of the tasks that take its place. -/
def trace (task : Task) : List Sign :=
  (task.perform world.toAnswers options).signs ++
    (task.perform world.toAnswers options).tasks.attach.flatMap fun ⟨new, _⟩ => trace new
termination_by (wellFounded_smaller world.toAnswers (Pending.rank world)).wrap task
decreasing_by
  rename_i member
  exact smaller_perform (Pending.ranked world) options task _ member

variable {world options}

theorem height_child_lt {directory child : Entry} {hint : Option Text} {children : List Entry}
    (isDir : directory.isDirectory = true) (h : world.children directory hint = .ok children)
    (member : child ∈ children) :
    height (Pending.rank world) child < height (Pending.rank world) directory := by
  have ranked := Pending.ranked world directory hint children h child member
  simp only [height, isDir, if_true]
  split
  · next childDir =>
    have := ranked childDir
    omega
  · omega

theorem mem_visitName {hidden : Bool} {entry : Entry} {name : Text} {names : List Text}
    {segment : Pattern} {segments : List Pattern} {task : Task}
    (h : task ∈ visitName hidden entry name names segment segments) :
    task = .visit entry (name :: names) segments ∨
      task = .visit entry names (segment :: segments) ∨ task = .visit entry names segments := by
  unfold visitName at h
  split at h
  · rcases List.mem_cons.mp h with rfl | h
    · exact Or.inl rfl
    · split at h
      · exact Or.inr (Or.inl (List.mem_singleton.mp h))
      · cases h
  · split at h
    · exact Or.inr (Or.inr (List.mem_singleton.mp h))
    · cases h
  · split at h
    · exact Or.inr (Or.inr (List.mem_singleton.mp h))
    · cases h
  · cases h

/-- Induction on visits: first on what lies below the entry, then on the names that are left, for
all segments at once. -/
theorem names_induction {P : Entry → List Text → List Pattern → Prop} (world : World)
    (exhausted : ∀ entry segments, (∀ hint children, entry.isDirectory = true →
      world.children entry hint = .ok children →
        ∀ child ∈ children, P child [child.name] segments) → P entry [] segments)
    (named : ∀ entry name names segments, (∀ left, P entry names left) →
      P entry (name :: names) segments)
    (entry : Entry) (names : List Text) (segments : List Pattern) : P entry names segments := by
  induction bound : height (Pending.rank world) entry using Nat.strongRecOn
    generalizing entry names segments with
  | _ bound ih =>
    subst bound
    induction names generalizing segments with
    | nil =>
      refine exhausted entry segments fun hint children isDir listed child member => ?_
      exact ih _ (height_child_lt isDir listed member) child [child.name] segments rfl
    | cons name names shorter => exact named entry name names segments shorter

/-- Induction on visits: first on what lies below the entry, then on the names and the segments
that are left. -/
theorem visit_induction {P : Entry → List Text → List Pattern → Prop} (world : World)
    (exhausted : ∀ entry segments, (∀ hint children, entry.isDirectory = true →
      world.children entry hint = .ok children →
        ∀ child ∈ children, P child [child.name] segments) → P entry [] segments)
    (stuck : ∀ entry name names, P entry (name :: names) [])
    (named : ∀ entry name names segment segments, P entry (name :: names) segments →
      P entry names (segment :: segments) → P entry names segments →
        P entry (name :: names) (segment :: segments))
    (entry : Entry) (names : List Text) (segments : List Pattern) : P entry names segments := by
  induction entry, names, segments using names_induction world with
  | exhausted entry segments below => exact exhausted entry segments below
  | named entry name names segments shorter =>
    induction segments with
    | nil => exact stuck entry name names
    | cons segment segments fewer =>
      exact named entry name names segment segments fewer (shorter (segment :: segments))
        (shorter segments)

theorem trace_eq (task : Task) :
    trace world options task = (task.perform world.toAnswers options).signs ++
      (task.perform world.toAnswers options).tasks.flatMap (trace world options) := by
  rw [trace]
  simp [List.flatMap_subtype]

theorem trace_start (root : Path) (names : List Text) (segments : List Pattern) :
    trace world options (.start root names segments) =
      match world.rootEntry root with
      | none => []
      | some entry => trace world options (.visit entry names segments) := by
  rw [trace_eq]
  cases found : world.rootEntry root <;> simp [perform, found, Step.signs, Step.tasks]

theorem trace_visit_nil (entry : Entry) (segments : List Pattern) :
    trace world options (.visit entry [] segments) =
      (if segments.all Pattern.isGlobstar then [.found entry] else []) ++
        trace world options (.descend entry segments) := by
  rw [trace_eq]
  simp only [perform]
  split <;> simp [Step.signs, Step.tasks]

@[simp] theorem trace_visit_stuck (entry : Entry) (name : Text) (names : List Text) :
    trace world options (.visit entry (name :: names) []) = [] := by
  rw [trace_eq]
  simp [perform, Step.signs, Step.tasks]

theorem trace_visit_cons (entry : Entry) (name : Text) (names : List Text) (segment : Pattern)
    (segments : List Pattern) :
    trace world options (.visit entry (name :: names) (segment :: segments)) =
      (visitName (options.hidden || entry.depth == 0) entry name names segment segments).flatMap
        (trace world options) := by
  rw [trace_eq]
  simp [perform, Step.signs, Step.tasks]

@[simp] theorem trace_descend_nil (entry : Entry) :
    trace world options (.descend entry []) = [] := by
  rw [trace_eq]
  simp [perform, Step.signs, Step.tasks]

theorem trace_descend_shut {entry : Entry} (shut : mayDescend options entry = false)
    (segments : List Pattern) : trace world options (.descend entry segments) = [] := by
  cases segments with
  | nil => simp
  | cons segment segments =>
    rw [trace_eq]
    simp [perform, shut, Step.signs, Step.tasks]

theorem trace_descend_ok {entry : Entry} (may : mayDescend options entry = true)
    {segment : Pattern} {children : List Entry}
    (h : world.children entry segment.hint? = .ok children) (segments : List Pattern) :
    trace world options (.descend entry (segment :: segments)) =
      .listed entry segment.hint? ::
        trace world options (.offer children (segment :: segments)) := by
  rw [trace_eq]
  simp [perform, may, h, Step.signs, Step.tasks]

theorem trace_descend_error {entry : Entry} (may : mayDescend options entry = true)
    {segment : Pattern} {error : FileError}
    (h : world.children entry segment.hint? = .error error) (segments : List Pattern) :
    trace world options (.descend entry (segment :: segments)) =
      if options.strict then [.failed entry segment.hint? error]
      else [.listed entry segment.hint?] := by
  rw [trace_eq]
  cases strict : options.strict <;> simp [perform, may, h, strict, Step.signs, Step.tasks]

theorem trace_offer (children : List Entry) (segments : List Pattern) :
    trace world options (.offer children segments) =
      (children.filter fun child => !world.excludes child).flatMap fun child =>
        trace world options (.visit child [child.name] segments) := by
  induction children with
  | nil =>
    rw [trace_eq]
    simp [perform, Step.signs, Step.tasks]
  | cons child children ih =>
    rw [trace_eq]
    cases excluded : world.excludes child <;>
      simp [perform, excluded, Step.signs, Step.tasks, ih]

/-- Going on below an entry comes to nothing, ends at a directory that cannot be listed, or leads to
the children that no filter excludes. -/
theorem trace_descend_cases (world : World) (options : Options) (entry : Entry)
    (segments : List Pattern) :
    (segments = [] ∨ mayDescend options entry = false) ∧
        trace world options (.descend entry segments) = [] ∨
      (∃ segment later error, segments = segment :: later ∧ mayDescend options entry = true ∧
        world.children entry segment.hint? = .error error ∧
        trace world options (.descend entry segments) =
          if options.strict then [.failed entry segment.hint? error]
          else [.listed entry segment.hint?]) ∨
      ∃ segment later all, segments = segment :: later ∧ mayDescend options entry = true ∧
        world.children entry segment.hint? = .ok all ∧
        trace world options (.descend entry segments) = .listed entry segment.hint? ::
          (all.filter fun child => !world.excludes child).flatMap fun child =>
            trace world options (.visit child [child.name] segments) := by
  cases segments with
  | nil => exact Or.inl ⟨Or.inl rfl, trace_descend_nil entry⟩
  | cons segment later =>
    cases may : mayDescend options entry with
    | false => exact Or.inl ⟨Or.inr rfl, trace_descend_shut may _⟩
    | true =>
      right
      cases answered : world.children entry segment.hint? with
      | error error =>
        exact Or.inl ⟨segment, later, error, rfl, rfl, answered, trace_descend_error may answered _⟩
      | ok all =>
        refine Or.inr ⟨segment, later, all, rfl, rfl, answered, ?_⟩
        rw [trace_descend_ok may answered, trace_offer]

theorem flatMap_filter_of_nil {α β : Type} {f : α → List β} {keep : α → Bool} {l : List α}
    (h : ∀ a ∈ l, keep a = false → f a = []) : (l.filter keep).flatMap f = l.flatMap f := by
  induction l with
  | nil => rfl
  | cons a l ih =>
    have ih := ih fun b hb => h b (List.mem_cons_of_mem a hb)
    cases kept : keep a with
    | true => simp [kept, ih]
    | false => simp [kept, ih, h a List.mem_cons_self kept]

/-- What holds of the signs that an entry can give, and of the entries below it, holds of a whole
trace. -/
theorem forall_trace {P : Entry → Prop} {Q : Sign → Prop} (found : ∀ e, P e → Q (.found e))
    (listed : ∀ e hint, P e → mayDescend options e = true → Q (.listed e hint))
    (failed : ∀ e hint error, P e → mayDescend options e = true →
      world.children e hint = .error error → options.strict = true → Q (.failed e hint error))
    (child : ∀ e hint children c, P e → e.isDirectory = true →
      world.children e hint = .ok children → c ∈ children → world.excludes c = false → P c)
    {e : Entry} (start : P e) (names : List Text) (segments : List Pattern) :
    ∀ sign ∈ trace world options (.visit e names segments), Q sign := by
  induction e, names, segments using visit_induction world with
  | exhausted e segments below =>
    intro sign member
    rw [trace_visit_nil, List.mem_append] at member
    rcases member with member | member
    · split at member
      · rw [List.mem_singleton.mp member]
        exact found e start
      · cases member
    · rcases trace_descend_cases world options e segments with ⟨-, same⟩ |
        ⟨segment, later, error, rfl, may, answered, same⟩ |
        ⟨segment, later, children, rfl, may, answered, same⟩
      · rw [same] at member
        cases member
      · rw [same] at member
        split at member
        · next strict =>
          rw [List.mem_singleton.mp member]
          exact failed e _ error start may answered strict
        · rw [List.mem_singleton.mp member]
          exact listed e _ start may
      · have isDir : e.isDirectory = true := (Bool.and_eq_true_iff.mp may).1
        rw [same] at member
        rcases List.mem_cons.mp member with rfl | member
        · exact listed e _ start may
        · obtain ⟨c, kept, member⟩ := List.mem_flatMap.mp member
          obtain ⟨given, kept⟩ := List.mem_filter.mp kept
          have started := child e _ children c start isDir answered given (by simpa using kept)
          exact below _ children isDir answered c given started sign member
  | stuck e name names =>
    intro sign member
    simp at member
  | named e name names segment segments first second third =>
    intro sign member
    rw [trace_visit_cons] at member
    obtain ⟨task, taken, member⟩ := List.mem_flatMap.mp member
    rcases mem_visitName taken with rfl | rfl | rfl
    · exact first start sign member
    · exact second start sign member
    · exact third start sign member

end Task

namespace Sign

def entry : Sign → Entry
  | .found entry => entry
  | .listed directory _ => directory
  | .failed directory _ _ => directory

def found? : Sign → Option Entry
  | .found entry => some entry
  | _ => none

def listed? : Sign → Option Listed
  | .found _ => none
  | .listed directory hint => some ⟨directory.path, hint⟩
  | .failed directory hint _ => some ⟨directory.path, hint⟩

def failure? : Sign → Option ListingError
  | .failed directory _ error => some ⟨directory.path, error⟩
  | _ => none

/-- The signs up to the first failure, which is the last one. -/
def untilFailure : List Sign → List Sign
  | [] => []
  | sign :: signs => if sign.failure?.isSome then [sign] else sign :: untilFailure signs

theorem mem_found_iff {x : Entry} {signs : List Sign} :
    x ∈ signs.filterMap found? ↔ .found x ∈ signs := by
  rw [List.mem_filterMap]
  constructor
  · rintro ⟨sign, member, same⟩
    cases sign with
    | found e =>
      cases same
      exact member
    | _ => cases same
  · exact fun member => ⟨_, member, rfl⟩

def Calm (signs : List Sign) : Prop := ∀ sign ∈ signs, sign.failure? = none

theorem Calm.untilFailure {signs : List Sign} (calm : Calm signs) : untilFailure signs = signs := by
  induction signs with
  | nil => rfl
  | cons sign signs ih =>
    obtain ⟨first, others⟩ := List.forall_mem_cons.mp calm
    simp [Sign.untilFailure, first, ih others]

theorem calm_iff_untilFailure {signs : List Sign} :
    Calm signs ↔ (untilFailure signs).findSome? failure? = none := by
  constructor
  · intro calm
    rw [calm.untilFailure]
    exact List.findSome?_eq_none_iff.mpr calm
  · intro h
    induction signs with
    | nil => simp [Calm]
    | cons sign signs ih =>
      cases failure : sign.failure? with
      | some error => simp [Sign.untilFailure, failure] at h
      | none =>
        simp only [Sign.untilFailure, failure, Option.isSome_none, Bool.false_eq_true, if_false,
          List.findSome?_cons] at h
        exact List.forall_mem_cons.mpr ⟨failure, ih h⟩

end Sign

namespace Search

/-- What lies before a search in a world that stays as it is. -/
structure Outlook where
  wanted : Wanted
  seen : List Path
  signs : List Sign

def outlook (s : Search) (world : World) : Outlook :=
  ⟨s.options.wanted, s.seen, s.pending.flatMap (Task.trace world s.options)⟩

namespace Outlook

def read (wanted : Wanted) (seen : List Path) : List Sign → Report × Outlook
  | [] => (⟨[], .ended⟩, ⟨wanted, seen, []⟩)
  | .found e :: signs =>
    if e.path ∈ seen then read wanted seen signs
    else if wanted.admits e then (⟨[], .entry e⟩, ⟨wanted, e.path :: seen, signs⟩)
    else read wanted (e.path :: seen) signs
  | .listed directory hint :: signs =>
    let (report, later) := read wanted seen signs
    (report.after ⟨directory.path, hint⟩, later)
  | .failed directory hint error :: _ =>
    (⟨[⟨directory.path, hint⟩], .failed ⟨directory.path, error⟩⟩, ⟨wanted, seen, []⟩)

def next (o : Outlook) : Report × Outlook := read o.wanted o.seen o.signs

def rest (o : Outlook) : Rest :=
  let signs := Sign.untilFailure o.signs
  ⟨(fresh o.seen (signs.filterMap Sign.found?)).filter o.wanted.admits,
    signs.filterMap Sign.listed?, signs.findSome? Sign.failure?⟩

theorem rest_of_calm {o : Outlook} (calm : Sign.Calm o.signs) :
    o.rest = ⟨(fresh o.seen (o.signs.filterMap Sign.found?)).filter o.wanted.admits,
      o.signs.filterMap Sign.listed?, none⟩ := by
  have none := Sign.calm_iff_untilFailure.mp calm
  simp only [rest, calm.untilFailure] at none ⊢
  rw [none]

def following (o : Outlook) : Event → Report × Outlook
  | .ended => (⟨[], .ended⟩, o)
  | .quiet => o.next
  | .listed l => (o.next.1.after l, o.next.2)
  | .entry e => (⟨[], .entry e⟩, o)
  | .failed l error => (⟨[l], .failed error⟩, o)

end Outlook

theorem next_outlook_of_step {world : World} {s after : Search} {event : Event}
    (h : s.step world.toAnswers = (event, after)) :
    (s.outlook world).next = (after.outlook world).following event := by
  unfold step at h
  split at h
  · next pending =>
    cases h
    simp [outlook, pending, Outlook.next, Outlook.read, Outlook.following]
  · next task rest pending =>
    have signs := @Task.trace_eq world s.options task
    split at h
    · next tasks performed =>
      cases h
      simp only [performed, Step.signs, Step.tasks] at signs
      simp [outlook, pending, signs, proceed, Outlook.following]
    · next e tasks performed =>
      simp only [performed, Step.signs, Step.tasks] at signs
      have before : (s.outlook world).next = Outlook.read s.options.wanted s.seen
          (.found e :: ((tasks ++ rest).flatMap (Task.trace world s.options))) := by
        simp [outlook, pending, signs, Outlook.next]
      rw [before, Outlook.read]
      split at h
      · next doubled =>
        cases h
        simp [doubled, outlook, proceed, Outlook.following, Outlook.next]
      · next unseen =>
        split at h
        · next admitted =>
          cases h
          simp [unseen, admitted, outlook, pass, Outlook.following]
        · next passed =>
          cases h
          simp [unseen, passed, outlook, pass, Outlook.following, Outlook.next]
    · next directory hint tasks performed =>
      cases h
      simp only [performed, Step.signs, Step.tasks] at signs
      simp [outlook, pending, signs, proceed, Outlook.following, Outlook.next, Outlook.read]
    · next directory hint error performed =>
      cases h
      simp only [performed, Step.signs, Step.tasks] at signs
      simp [outlook, pending, signs, proceed, Outlook.following, Outlook.next, Outlook.read]

theorem next_outlook (world : World) (s : Search) :
    (s.outlook world).next = ((s.next world).1, (s.next world).2.outlook world) := by
  fun_induction next s world with
  | case1 s after stepped => rw [next_outlook_of_step stepped, Outlook.following]
  | case2 s l error after stepped => rw [next_outlook_of_step stepped, Outlook.following]
  | case3 s e after stepped => rw [next_outlook_of_step stepped, Outlook.following]
  | case4 s after stepped first ih => rw [next_outlook_of_step stepped, Outlook.following, ih]
  | case5 s l after stepped first report final run ih =>
    rw [next_outlook_of_step stepped, Outlook.following, ih, run]

def Report.before (report : Report) (rest : Rest) : Rest :=
  match report.outcome with
  | .entry e => ⟨e :: rest.entries, report.listed ++ rest.listed, rest.failure⟩
  | .ended => ⟨[], report.listed, none⟩
  | .failed error => ⟨[], report.listed, some error⟩

namespace Outlook

theorem rest_nil (wanted : Wanted) (seen : List Path) :
    rest ⟨wanted, seen, []⟩ = ⟨[], [], none⟩ := by
  simp [rest, Sign.untilFailure, fresh]

theorem rest_found (wanted : Wanted) (seen : List Path) (e : Entry) (signs : List Sign) :
    rest ⟨wanted, seen, .found e :: signs⟩ =
      if e.path ∈ seen then rest ⟨wanted, seen, signs⟩
      else
        let later := rest ⟨wanted, e.path :: seen, signs⟩
        if wanted.admits e then { later with entries := e :: later.entries } else later := by
  simp only [rest, Sign.untilFailure, Sign.failure?, Option.isSome_none, Bool.false_eq_true,
    if_false, List.filterMap_cons, List.findSome?_cons, Sign.found?, Sign.listed?, fresh]
  split
  · rfl
  · cases admitted : wanted.admits e <;> simp [admitted]

theorem rest_listed (wanted : Wanted) (seen : List Path) (directory : Entry)
    (hint : Option Text) (signs : List Sign) :
    rest ⟨wanted, seen, .listed directory hint :: signs⟩ =
      let later := rest ⟨wanted, seen, signs⟩
      { later with listed := ⟨directory.path, hint⟩ :: later.listed } := by
  simp [rest, Sign.untilFailure, Sign.failure?, List.filterMap_cons, List.findSome?_cons,
    Sign.found?, Sign.listed?]

theorem rest_failed (wanted : Wanted) (seen : List Path) (directory : Entry)
    (hint : Option Text) (error : FileError) (signs : List Sign) :
    rest ⟨wanted, seen, .failed directory hint error :: signs⟩ =
      ⟨[], [⟨directory.path, hint⟩], some ⟨directory.path, error⟩⟩ := by
  simp [rest, Sign.untilFailure, Sign.failure?, List.filterMap_cons, List.findSome?_cons,
    Sign.found?, Sign.listed?, fresh]

theorem rest_eq_before (o : Outlook) : o.rest = o.next.1.before o.next.2.rest := by
  obtain ⟨wanted, seen, signs⟩ := o
  simp only [next]
  fun_induction read wanted seen signs with
  | case1 seen => simp [rest_nil, Report.before]
  | case2 seen e signs doubled ih => rw [rest_found, if_pos doubled, ih]
  | case3 seen e signs unseen admitted => simp [rest_found, unseen, admitted, Report.before]
  | case4 seen e signs unseen passed ih => simp [rest_found, unseen, passed, ih]
  | case5 seen directory hint signs report later run ih =>
    simp only [run] at ih
    rw [rest_listed, ih]
    cases outcome : report.outcome <;> simp [Report.before, Report.after, outcome]
  | case6 seen directory hint error signs => simp [rest_failed, Report.before]

end Outlook

/-- Draining a search reads its trace up to the first failure. -/
theorem drain_eq_rest (world : World) (s : Search) :
    (s.drain world).1 = (s.outlook world).rest := by
  fun_induction drain s world with
  | case1 s listed later ended =>
    rw [Outlook.rest_eq_before, next_outlook, ended, Report.before]
  | case2 s listed error later failed =>
    rw [Outlook.rest_eq_before, next_outlook, failed, Report.before]
  | case3 s listed e later found first rest final drained ih =>
    rw [Outlook.rest_eq_before, next_outlook, found, Report.before, ← ih, drained]

theorem drain_next (world : World) (s : Search) :
    (s.drain world).1 = (s.next world).1.before ((s.next world).2.drain world).1 := by
  rw [drain_eq_rest, drain_eq_rest, Outlook.rest_eq_before, next_outlook]

def reports (world : World) (s : Search) : Nat → List Report
  | 0 => []
  | n + 1 => (s.next world).1 :: reports world (s.next world).2 n

/-- Searches with one outlook cannot be told apart, draw for draw. -/
theorem reports_eq_of_outlook {world world' : World} {s s' : Search}
    (same : s.outlook world = s'.outlook world') (n : Nat) :
    s.reports world n = s'.reports world' n := by
  induction n generalizing s s' with
  | zero => rfl
  | succ n ih =>
    have next := congrArg Outlook.next same
    rw [next_outlook, next_outlook] at next
    obtain ⟨report, later⟩ := Prod.mk.inj next
    rw [reports, reports, report, ih later]

end Search
end Wildpath
