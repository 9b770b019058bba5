/-!
# Worklists

A worklist whose first item is replaced by any number of smaller items, over and over, runs empty:
where the order on items is well-founded, so is the order on worklists.
-/

set_option autoImplicit false

namespace Wildpath.Worklist

variable {α : Type} {smaller : α → α → Prop}

/-- `Shrinks smaller after before`: the first item was replaced by smaller ones. -/
inductive Shrinks (smaller : α → α → Prop) : List α → List α → Prop where
  | head {item : α} {new rest : List α} (h : ∀ x ∈ new, smaller x item) :
    Shrinks smaller (new ++ rest) (item :: rest)

theorem acc_nil : Acc (Shrinks smaller) [] :=
  ⟨_, fun _ h => by cases h⟩

theorem acc_append {new rest : List α}
    (h : ∀ x ∈ new, ∀ l, Acc (Shrinks smaller) l → Acc (Shrinks smaller) (x :: l))
    (acc : Acc (Shrinks smaller) rest) : Acc (Shrinks smaller) (new ++ rest) := by
  induction new with
  | nil => exact acc
  | cons x new ih =>
    exact h x List.mem_cons_self _ (ih fun y hy => h y (List.mem_cons_of_mem x hy))

theorem acc_cons (wf : WellFounded smaller) (item : α) :
    ∀ l, Acc (Shrinks smaller) l → Acc (Shrinks smaller) (item :: l) := by
  induction item using wf.induction with
  | h item ih =>
    intro l acc
    constructor
    intro after h
    cases h with
    | head h => exact acc_append (fun x hx => ih x (h x hx)) acc

theorem wellFounded_shrinks (wf : WellFounded smaller) : WellFounded (Shrinks smaller) := by
  refine ⟨fun l => ?_⟩
  induction l with
  | nil => exact acc_nil
  | cons item l ih => exact acc_cons wf item l ih

end Wildpath.Worklist
