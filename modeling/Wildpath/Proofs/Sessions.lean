import Wildpath.Proofs.Exactness
import Wildpath.Proofs.Steps
import Wildpath.Session

/-!
# Cursors side by side

Drawing from a cursor bit by bit gives what draining it at once gives, from the front: the entries
and the listings so far begin those of the whole, and where the cursor ends or fails they are all of
it. After that, or once it is closed, it is asleep for good. What is done to other cursors in
between makes no difference, as long as the file system stays as it is.
-/

set_option autoImplicit false

namespace Wildpath

namespace Search

/-- A search that gave no entry has nothing left to do. -/
theorem idle_of_next {world : World} {s : Search}
    (none : (s.next world).1.outcome.reported? = none) : (s.next world).2.pending = [] := by
  fun_induction next s world with
  | case1 s after stepped => exact idle_of_step stepped rfl
  | case2 s l error after stepped => exact idle_of_step stepped rfl
  | case3 s e after stepped => cases none
  | case4 s after stepped first ih => exact ih none
  | case5 s l after stepped first report final run ih =>
    rw [run] at ih
    exact ih none

theorem idle_of_drain (world : World) (s : Search) : (s.drain world).2.pending = [] := by
  fun_induction drain s world with
  | case1 s listed later ended =>
    have idle := @idle_of_next world s
    rw [ended] at idle
    exact idle rfl
  | case2 s listed error later failed =>
    have idle := @idle_of_next world s
    rw [failed] at idle
    exact idle rfl
  | case3 s listed e later found first rest final drained ih =>
    rw [drained] at ih
    exact ih

end Search

namespace Cursor

theorem drain_next (c : Cursor) (fs : FileSystem) (cwd : List Text) :
    (c.drain fs cwd).1 = (c.next fs cwd).1.before ((c.next fs cwd).2.drain fs cwd).1 :=
  Search.drain_next (c.world fs cwd) c.search

theorem drain_of_idle {c : Cursor} (idle : c.search.pending = []) (fs : FileSystem) (cwd : List Text) :
    (c.drain fs cwd).1 = ⟨[], [], none⟩ :=
  Search.drain_of_idle (c.world fs cwd) idle

end Cursor

namespace Session

/-- The cursor that an action is about. -/
def Action.cursor? : Action → Option Text
  | .start id _ => some id
  | .next id => some id
  | .drain id => some id
  | .close id => some id
  | _ => none

def Action.draws : Action → Bool
  | .next _ => true
  | .drain _ => true
  | _ => false

def Action.closes : Action → Bool
  | .close _ => true
  | _ => false

namespace Answer

def entries : Answer → List Entry
  | .report r => r.outcome.reported?.toList
  | .rest r => r.entries
  | _ => []

def listed : Answer → List Listed
  | .report r => r.listed
  | .rest r => r.listed
  | _ => []

def failure? : Answer → Option ListingError
  | .report ⟨_, .failed error⟩ => some error
  | .rest r => r.failure
  | _ => none

/-- Does the answer tell that the cursor came to its end? -/
def ends : Answer → Bool
  | .report r => r.outcome.reported?.isNone
  | .rest _ => true
  | _ => false

/-- The answer gives no entry, no listing and no failure. -/
def Silent (a : Answer) : Prop := a.entries = [] ∧ a.listed = [] ∧ a.failure? = none

end Answer

/-- An action together with the answer to it. -/
structure Exchange where
  action : Action
  answer : Answer

/-- After the exchange the cursor is closed or at its end. -/
def Exchange.stops (e : Exchange) : Bool := e.action.closes || e.answer.ends

/-- One draw is answered by a report, and drawing all by the rest. -/
def Exchange.Answered : Exchange → Prop
  | ⟨.next _, answer⟩ => ∃ r, answer = .report r
  | ⟨.drain _, answer⟩ => ∃ r, answer = .rest r
  | _ => True

/-- What a session tells about a cursor while it runs. -/
def told (s : Session) (id : Text) (acts : List Action) : List Exchange :=
  (List.zipWith Exchange.mk acts (s.run acts)).filter fun e => e.action.cursor? = some id

/-- Each draw is answered, and what is told about a cursor is what the whole run of it gives, as far as
it has been drawn. -/
structure Refines (whole : Search.Rest) (told : List Exchange) : Prop where
  answered : ∀ e ∈ told, e.Answered
  entries : told.flatMap (·.answer.entries) <+: whole.entries
  listed : told.flatMap (·.answer.listed) <+: whole.listed
  failed : ∀ e ∈ told, ∀ error, e.answer.failure? = some error → whole.failure = some error
  /-- Nothing is listed but to draw from the cursor. -/
  drawn : ∀ e ∈ told, e.answer.listed ≠ [] → e.action.draws = true
  /-- Where the cursor comes to its end by itself, all of the whole has been told. -/
  complete : ∀ before e after, told = before ++ e :: after → (∀ d ∈ before, d.stops = false) →
    e.answer.ends = true →
    (before ++ [e]).flatMap (·.answer.entries) = whole.entries ∧
      (before ++ [e]).flatMap (·.answer.listed) = whole.listed ∧ e.answer.failure? = whole.failure
  spent : ∀ before e after, told = before ++ e :: after → e.stops = true →
    ∀ d ∈ after, d.answer.Silent

namespace Refines

variable {whole : Search.Rest} {told : List Exchange} {e : Exchange}

theorem nil (whole : Search.Rest) : Refines whole [] where
  answered := by simp
  entries := List.nil_prefix
  listed := List.nil_prefix
  failed := by simp
  drawn := by simp
  complete := by simp
  spent := by simp

/-- Of a run that gives nothing nothing is ever told. -/
theorem silent (h : Refines ⟨[], [], none⟩ told) : ∀ d ∈ told, d.answer.Silent := by
  intro d member
  refine ⟨List.flatMap_eq_nil_iff.mp (List.prefix_nil.mp h.entries) d member,
    List.flatMap_eq_nil_iff.mp (List.prefix_nil.mp h.listed) d member, ?_⟩
  cases failure : d.answer.failure? with
  | none => rfl
  | some error => cases h.failed d member error failure

theorem cons (later : Refines whole told) (answered : e.Answered) (goes : e.stops = false)
    (drawn : e.action.draws = true) (unfailed : e.answer.failure? = none) :
    Refines ⟨e.answer.entries ++ whole.entries, e.answer.listed ++ whole.listed, whole.failure⟩
      (e :: told) where
  answered := List.forall_mem_cons.mpr ⟨answered, later.answered⟩
  entries := List.prefix_append_right_inj _ |>.mpr later.entries
  listed := List.prefix_append_right_inj _ |>.mpr later.listed
  failed := by
    refine List.forall_mem_cons.mpr ⟨fun error failure => ?_, later.failed⟩
    rw [unfailed] at failure
    cases failure
  drawn := List.forall_mem_cons.mpr ⟨fun _ => drawn, later.drawn⟩
  complete before last after same running ends := by
    cases before with
    | nil =>
      obtain ⟨rfl, rfl⟩ := List.cons.inj same
      simp [Exchange.stops, ends] at goes
    | cons first before =>
      obtain ⟨rfl, rest⟩ := List.cons.inj same
      obtain ⟨entries, listed, failure⟩ :=
        later.complete before last after rest (List.forall_mem_cons.mp running).2 ends
      exact ⟨congrArg (_ ++ ·) entries, congrArg (_ ++ ·) listed, failure⟩
  spent before last after same stops := by
    cases before with
    | nil =>
      obtain ⟨rfl, rfl⟩ := List.cons.inj same
      rw [goes] at stops
      cases stops
    | cons first before => exact later.spent before last after (List.cons.inj same).2 stops

/-- The exchange after which the cursor gives nothing more. -/
theorem stop (later : Refines ⟨[], [], none⟩ told) (answered : e.Answered) (stops : e.stops = true)
    (drawn : e.answer.listed ≠ [] → e.action.draws = true)
    (own : e.answer.Silent ∧ e.answer.ends = false ∨
      e.answer.entries = whole.entries ∧ e.answer.listed = whole.listed ∧
        e.answer.failure? = whole.failure) :
    Refines whole (e :: told) := by
  have entries : told.flatMap (·.answer.entries) = [] := List.prefix_nil.mp later.entries
  have listed : told.flatMap (·.answer.listed) = [] := List.prefix_nil.mp later.listed
  constructor
  case answered => exact List.forall_mem_cons.mpr ⟨answered, later.answered⟩
  case entries =>
    rw [List.flatMap_cons, entries, List.append_nil]
    rcases own with ⟨⟨own, -⟩, -⟩ | ⟨own, -⟩
    · rw [own]
      exact List.nil_prefix
    · exact own ▸ List.prefix_rfl
  case listed =>
    rw [List.flatMap_cons, listed, List.append_nil]
    rcases own with ⟨⟨-, own, -⟩, -⟩ | ⟨-, own, -⟩
    · rw [own]
      exact List.nil_prefix
    · exact own ▸ List.prefix_rfl
  case failed =>
    refine List.forall_mem_cons.mpr ⟨fun error failure => ?_, fun d member error failure => ?_⟩
    · rcases own with ⟨⟨-, -, own⟩, -⟩ | ⟨-, -, own⟩
      · rw [own] at failure
        cases failure
      · exact own.symm.trans failure
    · rw [(later.silent d member).2.2] at failure
      cases failure
  case drawn => exact List.forall_mem_cons.mpr ⟨drawn, later.drawn⟩
  case complete =>
    intro before last after same running ends
    cases before with
    | nil =>
      obtain ⟨rfl, rfl⟩ := List.cons.inj same
      rcases own with ⟨-, goes⟩ | own
      · rw [goes] at ends
        cases ends
      · simpa using own
    | cons first before =>
      obtain ⟨rfl, -⟩ := List.cons.inj same
      have goes := running e List.mem_cons_self
      rw [stops] at goes
      cases goes
  case spent =>
    intro before last after same stops
    cases before with
    | nil =>
      obtain ⟨-, rfl⟩ := List.cons.inj same
      exact later.silent
    | cons first before => exact later.spent before last after (List.cons.inj same).2 stops

theorem report {r : Search.Report} {id : Text} (later : Refines whole told)
    (idle : r.outcome.reported? = none → whole = ⟨[], [], none⟩) :
    Refines (r.before whole) (⟨.next id, .report r⟩ :: told) := by
  obtain ⟨listed, outcome⟩ := r
  cases outcome with
  | entry found =>
    exact later.cons (e := ⟨.next id, .report ⟨listed, .entry found⟩⟩) ⟨_, rfl⟩ rfl rfl rfl
  | ended =>
    rw [idle rfl] at later
    exact later.stop ⟨_, rfl⟩ rfl (fun _ => rfl) (Or.inr ⟨rfl, rfl, rfl⟩)
  | failed error =>
    rw [idle rfl] at later
    exact later.stop ⟨_, rfl⟩ rfl (fun _ => rfl) (Or.inr ⟨rfl, rfl, rfl⟩)

end Refines

theorem told_cons (s : Session) (id : Text) (a : Action) (acts : List Action) :
    s.told id (a :: acts) =
      if a.cursor? = some id then ⟨a, (s.act a).1⟩ :: (s.act a).2.told id acts
      else (s.act a).2.told id acts := by
  simp [told, run, List.filter_cons]

theorem cursor?_withCursor (s : Session) (id : Text) (c : Cursor) :
    (s.withCursor id c).cursor? id = some c := by
  simp [cursor?, withCursor]

theorem cursor?_withCursor_of_ne (s : Session) {id other : Text} (apart : other ≠ id) (c : Cursor) :
    (s.withCursor other c).cursor? id = s.cursor? id := by
  have unchanged : (s.cursors.filter (·.1 != other)).find? (·.1 == id) =
      s.cursors.find? (·.1 == id) := by
    rw [List.find?_filter]
    congr 1
    funext entry
    by_cases named : entry.1 = id
    · simp [named, Ne.symm apart]
    · simp [named]
  have passed : (other == id) = false := beq_eq_false_iff_ne.mpr apart
  simp only [cursor?, withCursor, List.find?_cons, passed, unchanged]

/-- A cursor cannot tell the one session from the other. -/
structure Agrees (id : Text) (s s' : Session) : Prop where
  fs : s.fs = s'.fs
  cwd : s.cwd = s'.cwd
  cursor : s.cursor? id = s'.cursor? id

theorem agrees_alone (s : Session) (id : Text) (c : Cursor) :
    Agrees id (s.withCursor id c) ⟨s.fs, s.cwd, [(id, c)]⟩ := by
  refine ⟨rfl, rfl, ?_⟩
  rw [cursor?_withCursor]
  simp [cursor?]

theorem Agrees.trans {id : Text} {a b c : Session} (h : Agrees id a b) (h' : Agrees id b c) :
    Agrees id a c :=
  ⟨h.fs.trans h'.fs, h.cwd.trans h'.cwd, h.cursor.trans h'.cursor⟩

/-- All that an action on a cursor changes is the cursor. -/
theorem act_cases (s : Session) {a : Action} {id : Text} (about : a.cursor? = some id) :
    (s.act a).2 = s ∨ ∃ c, (s.act a).2 = s.withCursor id c := by
  cases a with
  | start name request =>
    cases about
    simp only [act]
    cases Cursor.start s.fs s.cwd request with
    | ok c => exact Or.inr ⟨c, rfl⟩
    | error e => exact Or.inl rfl
  | next name =>
    cases about
    simp only [act]
    cases s.cursor? id with
    | none => exact Or.inl rfl
    | some c => exact Or.inr ⟨_, rfl⟩
  | drain name =>
    cases about
    simp only [act]
    cases s.cursor? id with
    | none => exact Or.inl rfl
    | some c => exact Or.inr ⟨_, rfl⟩
  | close name =>
    cases about
    simp only [act]
    cases s.cursor? id with
    | none => exact Or.inl rfl
    | some c => exact Or.inr ⟨_, rfl⟩
  | _ => cases about

/-- What is done to another cursor leaves the cursor where it is. -/
theorem agrees_act {s : Session} {id : Text} {a : Action} (static : a.cursor? ≠ none)
    (other : a.cursor? ≠ some id) : Agrees id (s.act a).2 s := by
  obtain ⟨name, about⟩ := Option.ne_none_iff_exists'.mp static
  rcases s.act_cases about with same | ⟨c, replaced⟩
  · rw [same]
    exact ⟨rfl, rfl, rfl⟩
  · rw [replaced]
    refine ⟨rfl, rfl, cursor?_withCursor_of_ne s (fun same => ?_) c⟩
    rw [about, same] at other
    exact other rfl

theorem Agrees.act {id : Text} {s s' : Session} (agrees : Agrees id s s') {a : Action}
    (own : a.cursor? = some id) :
    (s.act a).1 = (s'.act a).1 ∧ Agrees id (s.act a).2 (s'.act a).2 := by
  have replaced : ∀ c, Agrees id (s.withCursor id c) (s'.withCursor id c) := fun c =>
    ⟨agrees.fs, agrees.cwd, by rw [cursor?_withCursor, cursor?_withCursor]⟩
  obtain ⟨fs, cwd, cursor⟩ := agrees
  cases a with
  | start name request =>
    cases own
    simp only [Session.act, fs, cwd]
    cases Cursor.start s'.fs s'.cwd request with
    | ok c => exact ⟨rfl, replaced c⟩
    | error e => exact ⟨rfl, fs, cwd, cursor⟩
  | next name =>
    cases own
    simp only [Session.act, fs, cwd, cursor]
    cases s'.cursor? id with
    | none => exact ⟨rfl, fs, cwd, cursor⟩
    | some c => exact ⟨rfl, replaced _⟩
  | drain name =>
    cases own
    simp only [Session.act, fs, cwd, cursor]
    cases s'.cursor? id with
    | none => exact ⟨rfl, fs, cwd, cursor⟩
    | some c => exact ⟨rfl, replaced _⟩
  | close name =>
    cases own
    simp only [Session.act, cursor]
    cases s'.cursor? id with
    | none => exact ⟨rfl, fs, cwd, cursor⟩
    | some c => exact ⟨rfl, replaced _⟩
  | _ => cases own

/-- What is told about a cursor is told too where nothing else is done. -/
theorem told_eq_told_filter {id : Text} {s s' : Session} (agrees : Agrees id s s')
    {acts : List Action} (static : ∀ a ∈ acts, a.cursor? ≠ none) :
    s.told id acts = s'.told id (acts.filter (·.cursor? = some id)) := by
  induction acts generalizing s s' with
  | nil => rfl
  | cons a acts ih =>
    obtain ⟨first, others⟩ := List.forall_mem_cons.mp static
    by_cases own : a.cursor? = some id
    · obtain ⟨same, after⟩ := agrees.act own
      rw [told_cons, if_pos own, List.filter_cons_of_pos (by simpa using own), told_cons, if_pos own,
        same, ih after others]
    · rw [told_cons, if_neg own, List.filter_cons_of_neg (by simpa using own),
        ih ((agrees_act first own).trans agrees) others]

/-- What is told about a cursor is what draining it would give. -/
theorem refines_told {s : Session} {id : Text} {c : Cursor} (opened : s.cursor? id = some c)
    {acts : List Action} (static : ∀ a ∈ acts, a.cursor? ≠ none)
    (kept : ∀ request, .start id request ∉ acts) :
    Refines (c.drain s.fs s.cwd).1 (s.told id acts) := by
  -- For any cursor, wherever it is in its run: the whole is then what is left of that run, and each
  -- exchange takes its part from the front.
  induction acts generalizing s c with
  | nil => exact .nil _
  | cons a acts ih =>
    obtain ⟨first, others⟩ := List.forall_mem_cons.mp static
    have later : ∀ request, .start id request ∉ acts :=
      fun request member => kept request (List.mem_cons_of_mem a member)
    rw [told_cons]
    by_cases own : a.cursor? = some id
    · rw [if_pos own]
      cases a with
      | start name request =>
        cases own
        exact absurd List.mem_cons_self (kept request)
      | next name =>
        cases own
        have acted : s.act (.next id) = (.report (c.next s.fs s.cwd).1,
            s.withCursor id (c.next s.fs s.cwd).2) := by
          simp only [act, opened]
        have more := ih (cursor?_withCursor s id (c.next s.fs s.cwd).2) others later
        rw [acted, c.drain_next]
        exact more.report fun none => Cursor.drain_of_idle (Search.idle_of_next none) _ _
      | drain name =>
        cases own
        have acted : s.act (.drain id) = (.rest (c.drain s.fs s.cwd).1,
            s.withCursor id (c.drain s.fs s.cwd).2) := by
          simp only [act, opened]
        have more := ih (cursor?_withCursor s id (c.drain s.fs s.cwd).2) others later
        rw [Cursor.drain_of_idle (Search.idle_of_drain _ _)] at more
        rw [acted]
        exact more.stop ⟨_, rfl⟩ rfl (fun _ => rfl) (Or.inr ⟨rfl, rfl, rfl⟩)
      | close name =>
        cases own
        have acted : s.act (.close id) = (.done, s.withCursor id c.close) := by
          simp only [act, opened]
        have more := ih (cursor?_withCursor s id c.close) others later
        rw [Cursor.drain_of_idle rfl] at more
        rw [acted]
        exact more.stop trivial rfl (fun told => absurd rfl told) (Or.inl ⟨⟨rfl, rfl, rfl⟩, rfl⟩)
      | _ => cases own
    · rw [if_neg own]
      have unchanged : Agrees id (s.act a).2 s := agrees_act first own
      have more := ih (unchanged.cursor.trans opened) others later
      rwa [unchanged.fs, unchanged.cwd] at more

/-- In an unchanging file system, whatever else a session does with any other cursors, what it tells
about a cursor is what it tells where there is no other. Each draw is answered, and the answers are a
part of what draining the cursor would give, all of it as soon as the cursor comes to its end, and
nothing more after that. -/
theorem told_refines (s : Session) (id : Text) (root : Path) {pattern : Text}
    {segments : List Pattern} (parsed : Pattern.parse pattern = .ok segments) (options : Options)
    (l : Lister) (filter : Option Filter) {acts : List Action}
    (static : ∀ a ∈ acts, a.cursor? ≠ none) (kept : ∀ request, .start id request ∉ acts) :
    ∃ search, Search.start s.cwd root pattern options = .ok search ∧
      ((s.withCursor id ⟨search, l, filter⟩).told id acts =
        told ⟨s.fs, s.cwd, [(id, ⟨search, l, filter⟩)]⟩ id
          (acts.filter (·.cursor? = some id))) ∧
      Refines (Cursor.drain ⟨search, l, filter⟩ s.fs s.cwd).1
        ((s.withCursor id ⟨search, l, filter⟩).told id acts) ∧
      ∀ request, Cursor.start s.fs s.cwd request = .ok ⟨search, l, filter⟩ →
        s.run (.start id request :: acts) =
          .opened id :: (s.withCursor id ⟨search, l, filter⟩).run acts := by
  refine ⟨_, Search.start_eq_ok_iff.mpr ⟨segments, parsed, rfl⟩, ?alone, ?refines, ?started⟩
  case alone => exact told_eq_told_filter (agrees_alone s id _) static
  case refines => exact refines_told (cursor?_withCursor s id _) static kept
  case started =>
    intro request started
    simp only [run, act, started]

theorem told_refines_sample :
    ∃ search, Search.start [] ⟨.relative, [['a']]⟩ "**".toList .standard = .ok search ∧
      Refines (Cursor.drain ⟨search, .plain, none⟩ .sample []).1
        ((withCursor ⟨.sample, [], []⟩ ['p'] ⟨search, .plain, none⟩).told ['p']
          [.next ['p'], .start ['q'] (.plain ⟨.relative, []⟩ "*".toList true false), .drain ['q'],
            .next ['p'], .close ['q'], .close ['p'], .drain ['p']]) := by
  have parsed : Pattern.parse "**".toList = .ok [.globstar] := Pattern.parse_eq_ok_iff.mpr (by cbv)
  have static : ∀ a ∈ [Action.next ['p'],
      .start ['q'] (.plain ⟨.relative, []⟩ "*".toList true false), .drain ['q'], .next ['p'],
      .close ['q'], .close ['p'], .drain ['p']], a.cursor? ≠ none := by decide
  obtain ⟨search, started, -, refines, -⟩ := told_refines ⟨.sample, [], []⟩ ['p']
    ⟨.relative, [['a']]⟩ parsed .standard .plain none static (by simp)
  exact ⟨search, started, refines⟩

end Session
end Wildpath
