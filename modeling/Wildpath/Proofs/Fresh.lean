import Wildpath.FileSystem.Listing

/-!
# First occurrences

A search reports a path the first time it is found. Dropping the later finds keeps every path and
commutes with every selection that treats entries with one path alike.
-/

set_option autoImplicit false

namespace Wildpath.Search

/-- The entries whose paths are not seen yet, each path once. -/
def fresh (seen : List Path) : List Entry → List Entry
  | [] => []
  | e :: rest => if e.path ∈ seen then fresh seen rest else e :: fresh (e.path :: seen) rest

theorem fresh_sublist (seen : List Path) (l : List Entry) : (fresh seen l).Sublist l := by
  induction l generalizing seen with
  | nil => exact List.Sublist.slnil
  | cons e rest ih =>
    simp only [fresh]
    split
    · exact (ih seen).cons e
    · exact (ih (e.path :: seen)).cons_cons e

theorem path_mem_fresh_iff {seen : List Path} {l : List Entry} {p : Path} :
    p ∈ (fresh seen l).map (·.path) ↔ p ∈ l.map (·.path) ∧ p ∉ seen := by
  induction l generalizing seen with
  | nil => simp [fresh]
  | cons e rest ih =>
    simp only [fresh]
    split
    · next doubled =>
      rw [ih, List.map_cons, List.mem_cons]
      constructor
      · rintro ⟨member, unseen⟩
        exact ⟨Or.inr member, unseen⟩
      · rintro ⟨rfl | member, unseen⟩
        · exact absurd doubled unseen
        · exact ⟨member, unseen⟩
    · next unseen =>
      simp only [List.map_cons, List.mem_cons, ih, not_or]
      constructor
      · rintro (rfl | ⟨member, other⟩)
        · exact ⟨Or.inl rfl, unseen⟩
        · exact ⟨Or.inr member, other.2⟩
      · rintro ⟨same | member, new⟩
        · exact Or.inl same
        · by_cases same : p = e.path
          · exact Or.inl same
          · exact Or.inr ⟨member, same, new⟩

theorem nodup_fresh (seen : List Path) (l : List Entry) :
    ((fresh seen l).map (·.path)).Nodup := by
  induction l generalizing seen with
  | nil => simp [fresh]
  | cons e rest ih =>
    simp only [fresh]
    split
    · exact ih seen
    · rw [List.map_cons, List.nodup_cons]
      refine ⟨fun member => ?_, ih (e.path :: seen)⟩
      exact (path_mem_fresh_iff.mp member).2 List.mem_cons_self

theorem mem_fresh_iff {l : List Entry} (told : ∀ a ∈ l, ∀ b ∈ l, a.path = b.path → a = b)
    {e : Entry} : e ∈ fresh [] l ↔ e ∈ l := by
  constructor
  · exact fun member => (fresh_sublist [] l).subset member
  · intro member
    have kept : e.path ∈ (fresh [] l).map (·.path) :=
      path_mem_fresh_iff.mpr ⟨List.mem_map_of_mem member, by simp⟩
    obtain ⟨first, member', same⟩ := List.mem_map.mp kept
    have : first = e := told first ((fresh_sublist [] l).subset member') e member same
    rwa [← this]

theorem fresh_congr {seen seen' : List Path} (same : ∀ p, p ∈ seen ↔ p ∈ seen')
    (l : List Entry) : fresh seen l = fresh seen' l := by
  induction l generalizing seen seen' with
  | nil => rfl
  | cons e rest ih =>
    have more : ∀ p, p ∈ e.path :: seen ↔ p ∈ e.path :: seen' := by simp [same]
    simp only [fresh, same, ih same, ih more]

theorem fresh_cons_of_absent {seen : List Path} {p : Path} {l : List Entry}
    (absent : ∀ e ∈ l, e.path ≠ p) : fresh (p :: seen) l = fresh seen l := by
  induction l generalizing seen with
  | nil => rfl
  | cons e rest ih =>
    have ne : e.path ≠ p := absent e List.mem_cons_self
    have absent' : ∀ a ∈ rest, a.path ≠ p := fun a h => absent a (List.mem_cons_of_mem e h)
    have swap : fresh (e.path :: p :: seen) rest = fresh (p :: e.path :: seen) rest :=
      fresh_congr (by simp [or_left_comm]) rest
    simp only [fresh, List.mem_cons, ne, false_or, swap, ih absent']

theorem fresh_map (change : Entry → Entry) (kept : ∀ e, (change e).path = e.path)
    (seen : List Path) (l : List Entry) : fresh seen (l.map change) = (fresh seen l).map change := by
  induction l generalizing seen with
  | nil => rfl
  | cons e rest ih =>
    simp only [List.map_cons, fresh, kept, ih]
    split <;> rfl

/-- Selecting commutes with dropping the later finds if the path decides the selection. -/
theorem filter_fresh {keep : Entry → Bool} {seen : List Path} {l : List Entry}
    (told : ∀ a ∈ l, ∀ b ∈ l, a.path = b.path → keep a = keep b) :
    (fresh seen l).filter keep = fresh seen (l.filter keep) := by
  induction l generalizing seen with
  | nil => rfl
  | cons e rest ih =>
    have ih : ∀ seen, (fresh seen rest).filter keep = fresh seen (rest.filter keep) :=
      fun seen => ih fun a ha b hb =>
        told a (List.mem_cons_of_mem e ha) b (List.mem_cons_of_mem e hb)
    cases kept : keep e with
    | true =>
      simp only [fresh, List.filter_cons, kept, if_true]
      split
      · exact ih seen
      · rw [List.filter_cons, if_pos kept, ih]
    | false =>
      -- nothing that is kept has the path of an entry that is not
      have absent : ∀ a ∈ rest.filter keep, a.path ≠ e.path := by
        intro a member same
        obtain ⟨member, kept'⟩ := List.mem_filter.mp member
        have := told a (List.mem_cons_of_mem e member) e List.mem_cons_self same
        rw [kept, kept'] at this
        cases this
      simp only [fresh, List.filter_cons, kept, Bool.false_eq_true, if_false]
      split
      · exact ih seen
      · rw [List.filter_cons, kept, if_neg Bool.false_ne_true, ih, fresh_cons_of_absent absent]

/-- What is seen before drops out of what is left otherwise. -/
theorem fresh_seen_append (old seen : List Path) (l : List Entry) :
    fresh (old ++ seen) l = (fresh seen l).filter fun e => e.path ∉ old := by
  induction l generalizing seen with
  | nil => rfl
  | cons e rest ih =>
    have shift : fresh (e.path :: (old ++ seen)) rest = fresh (old ++ e.path :: seen) rest :=
      fresh_congr (by simp [or_left_comm]) rest
    by_cases doubled : e.path ∈ seen
    · simp only [fresh, List.mem_append, doubled, or_true, if_true, ih]
    · by_cases before : e.path ∈ old
      · have same : fresh (old ++ seen) rest = fresh (old ++ e.path :: seen) rest := by
          apply fresh_congr
          intro p
          simp only [List.mem_append, List.mem_cons]
          constructor
          · exact fun h => h.imp_right Or.inr
          · intro h
            rcases h with h | rfl | h
            · exact Or.inl h
            · exact Or.inl before
            · exact Or.inr h
        simp only [fresh, List.mem_append, before, doubled, true_or, if_true, if_false, same, ih,
          List.filter_cons, not_true_eq_false, decide_false, Bool.false_eq_true]
      · simp only [fresh, List.mem_append, before, doubled, or_self, if_false, shift, ih,
          List.filter_cons, not_false_eq_true, decide_true, if_true]

theorem fresh_append (seen : List Path) (l l' : List Entry) :
    fresh seen (l ++ l') = fresh seen l ++ fresh (l.map (·.path) ++ seen) l' := by
  induction l generalizing seen with
  | nil => rfl
  | cons e rest ih =>
    rw [List.cons_append, List.map_cons, List.cons_append, fresh, fresh]
    split
    · next doubled =>
      rw [ih]
      congr 1
      apply fresh_congr
      simp [doubled]
    · rw [ih, List.cons_append]
      congr 2
      apply fresh_congr
      simp [or_left_comm]

theorem fresh_mono {l l' : List Entry} (seen : List Path) (h : l <+: l') :
    fresh seen l <+: fresh seen l' := by
  obtain ⟨rest, rfl⟩ := h
  rw [fresh_append]
  exact List.prefix_append _ _

/-- Of a second list only the paths that the first one does not have are left. -/
theorem fresh_append_eq (l l' : List Entry) :
    fresh [] (l ++ l') = fresh [] l ++ (fresh [] l').filter fun e => e.path ∉ l.map (·.path) := by
  rw [fresh_append, fresh_seen_append]

theorem path_mem_iff_of_fresh_eq {l m : List Entry} (h : fresh [] l = fresh [] m) (p : Path) :
    p ∈ l.map (·.path) ↔ p ∈ m.map (·.path) := by
  have left := @path_mem_fresh_iff [] l p
  have right := @path_mem_fresh_iff [] m p
  rw [h] at left
  simpa using left.symm.trans right

theorem fresh_append_congr {l l' m m' : List Entry} (h : fresh [] l = fresh [] m)
    (h' : fresh [] l' = fresh [] m') : fresh [] (l ++ l') = fresh [] (m ++ m') := by
  rw [fresh_append_eq, fresh_append_eq, h, h']
  congr 1
  apply List.filter_congr
  intro e _
  exact decide_eq_decide.mpr (not_congr (path_mem_iff_of_fresh_eq h e.path))

/-- Nothing is left of a second list whose paths the first one has. -/
theorem fresh_append_of_covered {l l' : List Entry}
    (covered : ∀ e ∈ l', e.path ∈ l.map (·.path)) : fresh [] (l ++ l') = fresh [] l := by
  have none : (fresh [] l').filter (fun e => e.path ∉ l.map (·.path)) = [] := by
    apply List.filter_eq_nil_iff.mpr
    intro e member
    simpa using covered e ((fresh_sublist [] l').subset member)
  rw [fresh_append_eq, none, List.append_nil]

theorem fresh_append_of_apart {l l' : List Entry}
    (apart : ∀ e ∈ l', e.path ∉ l.map (·.path)) :
    fresh [] (l ++ l') = fresh [] l ++ fresh [] l' := by
  have all : (fresh [] l').filter (fun e => e.path ∉ l.map (·.path)) = fresh [] l' := by
    apply List.filter_eq_self.mpr
    intro e member
    exact decide_eq_true (apart e ((fresh_sublist [] l').subset member))
  rw [fresh_append_eq, all]

theorem fresh_flatMap_of_apart {α : Type} {f : α → List Entry} {l : List α}
    (apart : l.Pairwise fun a b => ∀ x ∈ f a, ∀ d ∈ f b, x.path ≠ d.path) :
    fresh [] (l.flatMap f) = l.flatMap fun a => fresh [] (f a) := by
  induction l with
  | nil => rfl
  | cons a l ih =>
    obtain ⟨first, others⟩ := List.pairwise_cons.mp apart
    rw [List.flatMap_cons, List.flatMap_cons, fresh_append_of_apart, ih others]
    intro d later doubled
    obtain ⟨b, member, given⟩ := List.mem_flatMap.mp later
    obtain ⟨x, found, same⟩ := List.mem_map.mp doubled
    exact first b member x found d given same

end Wildpath.Search
