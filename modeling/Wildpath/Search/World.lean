import Wildpath.Search.Task
import Wildpath.Search.Worklist

/-!
# Worlds in which every search ends

A world is grounded if directories have a rank that falls from a directory to its subdirectories.
In such a world every task is replaced by smaller ones, so the tasks run out, whatever the pattern.
-/

set_option autoImplicit false

namespace Wildpath

namespace Answers

/-- Going from a directory to a subdirectory lowers the rank. -/
def Ranked (answers : Answers) (rank : Entry → Nat) : Prop :=
  ∀ directory hint children, answers.children directory hint = .ok children →
    ∀ child ∈ children, child.isDirectory = true → rank child < rank directory

def Grounded (answers : Answers) : Prop := ∃ rank, answers.Ranked rank

end Answers

structure World extends Answers where
  grounded : toAnswers.Grounded

namespace Task

variable (answers : Answers) (rank : Entry → Nat)

/-- The height that may be left below an entry. -/
def height (entry : Entry) : Nat := if entry.isDirectory then rank entry + 1 else 0

def maxHeight : List Entry → Nat
  | [] => 0
  | entry :: rest => max (height rank entry) (maxHeight rest)

/-- Two numbers that fall, the first one before the second, from a task to those that replace it. -/
def weight : Task → Nat × Nat
  | .start root names segments =>
    (2 * ((answers.rootEntry root).elim 0 (height rank)), names.length + segments.length + 2)
  | .visit entry names segments => (2 * height rank entry, names.length + segments.length + 1)
  | .descend entry _ => (2 * height rank entry, 0)
  | .offer children _ => (2 * maxHeight rank children + 1, children.length)

def Smaller (a b : Task) : Prop :=
  Prod.Lex (· < ·) (· < ·) (weight answers rank a) (weight answers rank b)

theorem wellFounded_smaller : WellFounded (Smaller answers rank) :=
  InvImage.wf (weight answers rank)
    (Prod.lex ⟨_, Nat.lt_wfRel.wf⟩ ⟨_, Nat.lt_wfRel.wf⟩).wf

variable {answers rank}

theorem smaller_of {a b : Task}
    (h : (weight answers rank a).1 < (weight answers rank b).1 ∨
      (weight answers rank a).1 ≤ (weight answers rank b).1 ∧
        (weight answers rank a).2 < (weight answers rank b).2) : Smaller answers rank a b := by
  refine Prod.lex_def.mpr ?_
  omega

theorem maxHeight_le {children : List Entry} {bound : Nat}
    (h : ∀ child ∈ children, height rank child ≤ bound) : maxHeight rank children ≤ bound := by
  induction children with
  | nil => exact Nat.zero_le _
  | cons child rest ih =>
    simp only [maxHeight]
    have := h child List.mem_cons_self
    have := ih fun c hc => h c (List.mem_cons_of_mem child hc)
    omega

theorem maxHeight_children (ranked : answers.Ranked rank) {directory : Entry}
    {hint : Option Text} {children : List Entry}
    (h : answers.children directory hint = .ok children) :
    maxHeight rank children ≤ rank directory := by
  refine maxHeight_le fun child member => ?_
  unfold height
  split
  · next isDir => exact ranked directory hint children h child member isDir
  · exact Nat.zero_le _

theorem smaller_visitName {hidden : Bool} {entry : Entry} {name : Text} {names : List Text}
    {segment : Pattern} {segments : List Pattern} {task : Task}
    (h : task ∈ visitName hidden entry name names segment segments) :
    Smaller answers rank task (.visit entry (name :: names) (segment :: segments)) := by
  unfold visitName at h
  split at h
  · rcases List.mem_cons.mp h with rfl | h
    · exact smaller_of (Or.inr ⟨by simp [weight], by simp [weight]⟩)
    · split at h
      · rcases List.mem_singleton.mp h with rfl
        exact smaller_of (Or.inr ⟨by simp [weight], by simp [weight]⟩)
      · cases h
  · split at h
    · rcases List.mem_singleton.mp h with rfl
      exact smaller_of (Or.inr ⟨by simp [weight], by simp [weight]; omega⟩)
    · cases h
  · split at h
    · rcases List.mem_singleton.mp h with rfl
      exact smaller_of (Or.inr ⟨by simp [weight], by simp [weight]; omega⟩)
    · cases h
  · cases h

/-- Every task is replaced by smaller ones. -/
theorem smaller_perform (ranked : answers.Ranked rank) (options : Options) (task : Task) :
    ∀ new ∈ (perform answers options task).tasks, Smaller answers rank new task := by
  intro new member
  match task with
  | .start root names segments =>
    simp only [perform] at member
    split at member
    · cases member
    · next entry found =>
      rcases List.mem_singleton.mp member with rfl
      exact smaller_of (Or.inr ⟨by simp [weight, found], by simp [weight]⟩)
  | .visit entry [] segments =>
    simp only [perform] at member
    split at member <;>
    · rcases List.mem_singleton.mp member with rfl
      exact smaller_of (Or.inr ⟨by simp [weight], by simp [weight]⟩)
  | .visit _ (_ :: _) [] => cases member
  | .visit entry (name :: names) (segment :: segments) => exact smaller_visitName member
  | .descend _ [] => cases member
  | .descend entry (segment :: segments) =>
    simp only [perform] at member
    split at member
    · next may =>
      split at member
      · next children listed =>
        rcases List.mem_singleton.mp member with rfl
        have isDir : entry.isDirectory = true := by simp [mayDescend] at may; exact may.1
        have := maxHeight_children ranked listed
        refine smaller_of (Or.inl ?_)
        simp only [weight, height, isDir, if_true]
        omega
      · split at member <;> cases member
    · cases member
  | .offer [] _ => cases member
  | .offer (child :: children) segments =>
    have rest : Smaller answers rank (.offer children segments)
        (.offer (child :: children) segments) := by
      refine smaller_of (Or.inr ⟨?_, by simp [weight]⟩)
      simp only [weight, maxHeight]
      omega
    simp only [perform] at member
    split at member
    · rcases List.mem_singleton.mp member with rfl
      exact rest
    · rcases List.mem_cons.mp member with rfl | member
      · refine smaller_of (Or.inl ?_)
        simp only [weight, maxHeight]
        omega
      · rcases List.mem_singleton.mp member with rfl
        exact rest

end Task

/-- The tasks of a search that goes on in the given world. -/
structure Pending (world : World) where
  tasks : List Task

namespace Pending

noncomputable def rank (world : World) : Entry → Nat := world.grounded.choose

theorem ranked (world : World) : world.toAnswers.Ranked (rank world) :=
  world.grounded.choose_spec

/-- One or more tasks were carried out. -/
def Later {world : World} (a b : Pending world) : Prop :=
  Relation.TransGen (Worklist.Shrinks (Task.Smaller world.toAnswers (rank world))) a.tasks b.tasks

instance {world : World} : WellFoundedRelation (Pending world) where
  rel := Later
  wf := InvImage.wf Pending.tasks
    (Worklist.wellFounded_shrinks (Task.wellFounded_smaller _ _)).transGen

theorem later_perform (world : World) (options : Options) (task : Task) (rest : List Task) :
    Later (⟨(task.perform world.toAnswers options).tasks ++ rest⟩ : Pending world)
      ⟨task :: rest⟩ :=
  .single (.head (Task.smaller_perform (ranked world) options task))

end Pending
end Wildpath
