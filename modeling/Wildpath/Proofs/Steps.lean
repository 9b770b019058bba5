import Wildpath.Proofs.Safety

/-!
# Searches step by step

Draining a search is carrying out its steps in a row: each event of a step goes in front of what
draining gives after it. In a world in which directories have a rank the steps run out. What an entry
hands down to what is listed there holds of every entry that a search goes on with.
-/

set_option autoImplicit false

namespace Wildpath

namespace Search

/-- The search after a number of steps. -/
def after (answers : Answers) (s : Search) : Nat → Search
  | 0 => s
  | n + 1 => after answers (s.step answers).2 n

/-- The events of the first steps, one for each step. -/
def events (answers : Answers) (s : Search) : Nat → List Event
  | 0 => []
  | n + 1 => (s.step answers).1 :: events answers (s.step answers).2 n

/-- What draining gives where the event comes first. -/
def Event.before (event : Event) (rest : Rest) : Rest :=
  match event with
  | .ended => ⟨[], [], none⟩
  | .quiet => rest
  | .listed l => { rest with listed := l :: rest.listed }
  | .entry e => { rest with entries := e :: rest.entries }
  | .failed l error => ⟨[], [l], some error⟩

theorem after_succ (answers : Answers) (s : Search) (n : Nat) :
    s.after answers (n + 1) = ((s.after answers n).step answers).2 := by
  induction n generalizing s with
  | zero => rfl
  | succ n ih => exact ih (s.step answers).2

/-- What every step keeps, a number of steps keep. -/
theorem after_induction {P : Search → Prop} {answers : Answers} {s : Search} (start : P s)
    (step : ∀ s, P s → P (s.step answers).2) (n : Nat) : P (s.after answers n) := by
  induction n with
  | zero => exact start
  | succ n ih =>
    rw [after_succ]
    exact step _ ih

theorem step_of_idle {s : Search} (idle : s.pending = []) (answers : Answers) :
    s.step answers = (.ended, s) := by
  simp [step, idle]

/-- Only a search that has nothing left to do, or has nothing left after the step, does not go on. -/
theorem idle_of_step {answers : Answers} {s after : Search} {event : Event}
    (h : s.step answers = (event, after)) (stops : event.goesOn = false) : after.pending = [] := by
  unfold step at h
  split at h
  · next idle =>
    cases h
    exact idle
  · split at h
    · cases h
      cases stops
    · split at h
      · cases h
        cases stops
      · split at h <;> cases h <;> cases stops
    · cases h
      cases stops
    · cases h
      rfl

/-- In a world that grounds it, a search comes to its end after some number of steps. -/
theorem exists_after_idle (world : World) (s : Search) :
    ∃ n, (s.after world.toAnswers n).pending = [] := by
  cases goes : (s.step world.toAnswers).1.goesOn with
  | false => exact ⟨1, idle_of_step (Prod.eta _).symm goes⟩
  | true =>
    have later := later_of_step (Prod.eta _).symm goes
    obtain ⟨n, idle⟩ := exists_after_idle world (s.step world.toAnswers).2
    exact ⟨n + 1, idle⟩
termination_by (⟨s.pending⟩ : Pending world)
decreasing_by exact later

theorem drain_step (world : World) (s : Search) :
    (s.drain world).1 = (s.step world.toAnswers).1.before
      ((s.step world.toAnswers).2.drain world).1 := by
  rw [drain_eq_rest, drain_eq_rest, Outlook.rest_eq_before,
    next_outlook_of_step (Prod.eta _).symm]
  cases (s.step world.toAnswers).1 with
  | listed l =>
    rw [Outlook.rest_eq_before ((s.step world.toAnswers).2.outlook world)]
    simp only [Outlook.following, Report.before, Report.after, Event.before]
    split <;> rfl
  | quiet => exact (Outlook.rest_eq_before _).symm
  | _ => rfl

theorem drain_of_idle (world : World) {s : Search} (idle : s.pending = []) :
    (s.drain world).1 = ⟨[], [], none⟩ := by
  rw [drain_step, step_of_idle idle]
  rfl

/-- Draining begins with the events of the first steps and goes on from the search that they leave. -/
theorem drain_eq_foldr (world : World) (s : Search) (n : Nat) :
    (s.drain world).1 = (s.events world.toAnswers n).foldr Event.before
      ((s.after world.toAnswers n).drain world).1 := by
  induction n generalizing s with
  | zero => rfl
  | succ n ih => rw [drain_step, ih, events, List.foldr_cons, after]

/-- A search with nothing left to do after some steps has given the events of those. -/
theorem drain_of_idle_after {world : World} {s : Search} (n : Nat)
    (idle : (s.after world.toAnswers n).pending = []) :
    (s.drain world).1 = (s.events world.toAnswers n).foldr Event.before ⟨[], [], none⟩ := by
  rw [drain_eq_foldr world s n, drain_of_idle world idle]

/-- Once nothing is left to do, nothing ever is. -/
theorem after_of_idle {s : Search} (idle : s.pending = []) (answers : Answers) (n : Nat) :
    s.after answers n = s := by
  induction n with
  | zero => rfl
  | succ n ih => rw [after, step_of_idle idle, ih]

/-- A search that still has something to do has gone on until now. -/
theorem goesOn_of_mem_events {answers : Answers} {s : Search} {n : Nat}
    (busy : (s.after answers n).pending ≠ []) :
    ∀ event ∈ s.events answers n, event.goesOn = true := by
  induction n generalizing s with
  | zero => simp [events]
  | succ n ih =>
    refine List.forall_mem_cons.mpr ⟨?_, ih busy⟩
    cases goes : (s.step answers).1.goesOn with
    | true => rfl
    | false =>
      have idle := idle_of_step (Prod.eta (s.step answers)).symm goes
      refine absurd ?_ busy
      rw [after, after_of_idle idle, idle]

theorem foldr_before {events : List Event} (going : ∀ event ∈ events, event.goesOn = true)
    (rest : Rest) : events.foldr Event.before rest =
      ⟨events.filterMap Event.reported? ++ rest.entries, events.filterMap Event.listed? ++ rest.listed,
        rest.failure⟩ := by
  induction events with
  | nil => rfl
  | cons event events ih =>
    obtain ⟨first, others⟩ := List.forall_mem_cons.mp going
    rw [List.foldr_cons, ih others]
    cases event with
    | ended => cases first
    | failed l error => cases first
    | quiet => rfl
    | listed l => rfl
    | entry e => rfl

end Search

/-- What the world answers about the base leads to entries that were reached, what it lists of these
is offered, and what is offered and not excluded is reached. -/
structure Answers.Carries (answers : Answers) (base : Path) (reached offered : Entry → Prop) :
    Prop where
  top : ∀ e, answers.rootEntry base = some e → reached e
  child : ∀ e hint all, reached e → e.isDirectory = true → answers.children e hint = .ok all →
    ∀ child ∈ all, offered child
  kept : ∀ child, offered child → answers.excludes child = false → reached child

variable {answers : Answers} {base : Path} {reached offered : Entry → Prop} {options : Options}

/-- The task is about the base, about an entry that was reached, or about entries that are offered. -/
def Task.Concerns (base : Path) (reached offered : Entry → Prop) : Task → Prop
  | .start root _ _ => root = base
  | .visit e _ _ => reached e
  | .descend e _ => reached e
  | .offer children _ => ∀ child ∈ children, offered child

/-- What takes the place of a task is about such entries too. -/
theorem Task.Concerns.perform {task : Task} (concerns : task.Concerns base reached offered)
    (carries : answers.Carries base reached offered) :
    ∀ new ∈ (task.perform answers options).tasks, new.Concerns base reached offered := by
  intro new member
  cases task with
  | start root names segments =>
    obtain rfl : root = base := concerns
    simp only [Task.perform] at member
    split at member
    · cases member
    · next top rooted =>
      rw [List.mem_singleton.mp member]
      exact carries.top top rooted
  | visit e names segments =>
    cases names with
    | nil =>
      simp only [Task.perform] at member
      split at member <;> obtain rfl := List.mem_singleton.mp member <;> exact concerns
    | cons name names =>
      cases segments with
      | nil => cases member
      | cons segment segments => rcases mem_visitName member with rfl | rfl | rfl <;> exact concerns
  | descend e segments =>
    cases segments with
    | nil => cases member
    | cons segment segments =>
      cases may : mayDescend options e with
      | false => simp [Task.perform, may, Step.tasks] at member
      | true =>
        have isDir : e.isDirectory = true := (Bool.and_eq_true_iff.mp may).1
        simp only [Task.perform, may, if_true] at member
        split at member
        · next all listed =>
          rw [List.mem_singleton.mp member]
          exact carries.child e _ all concerns isDir listed
        · split at member <;> cases member
  | offer children segments =>
    cases children with
    | nil => cases member
    | cons child children =>
      obtain ⟨first, others⟩ := List.forall_mem_cons.mp concerns
      simp only [Task.perform] at member
      split at member
      · rwa [List.mem_singleton.mp member]
      · next kept =>
        rcases List.mem_cons.mp member with rfl | member
        · exact carries.kept child first (Bool.eq_false_iff.mpr kept)
        · rwa [List.mem_singleton.mp member]

namespace Search

def Concerns (base : Path) (reached offered : Entry → Prop) (s : Search) : Prop :=
  ∀ task ∈ s.pending, task.Concerns base reached offered

theorem Concerns.step {s : Search} (concerns : s.Concerns base reached offered)
    (carries : answers.Carries base reached offered) :
    (s.step answers).2.Concerns base reached offered := by
  cases pending : s.pending with
  | nil => rwa [step_of_idle pending]
  | cons task rest =>
    rw [Concerns, pending] at concerns
    obtain ⟨first, others⟩ := List.forall_mem_cons.mp concerns
    obtain ⟨-, given, -, -⟩ := step_spec pending answers
    intro new member
    rcases given new member with member | member
    · exact first.perform carries new member
    · exact others new member

theorem Concerns.after {s : Search} (concerns : s.Concerns base reached offered)
    (carries : answers.Carries base reached offered) (n : Nat) :
    (s.after answers n).Concerns base reached offered :=
  after_induction concerns (fun _ held => held.step carries) n

theorem concerns_opened (options : Options) (base : Path) (names : List Text)
    (segments : List Pattern) (reached offered : Entry → Prop) :
    (⟨options, [.start base names segments], []⟩ : Search).Concerns base reached offered := by
  intro task member
  rw [List.mem_singleton.mp member]
  rfl

end Search
end Wildpath
