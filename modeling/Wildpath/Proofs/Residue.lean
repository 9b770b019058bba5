import Wildpath.Proofs.Matching

/-!
# What a name leaves of the segments

A search takes the names on the way one by one. Each name leaves some ends of the segments, one for
every way to take it, and the shorter ends come first. Two runs over the same names may cross: where
the one that was behind overtakes the other, the other could have gone the same way. So what a
longer end of the segments matches, a shorter end matches as soon as it matches a row of names that
goes on from there.
-/

set_option autoImplicit false

namespace Wildpath.Pattern

/-- What is left of the segments after a name, in the order in which a search goes on with it. -/
def after (w : Waypoint) : List Pattern → List (List Pattern)
  | .globstar :: segments =>
    after w segments ++ if w.Spanned then [.globstar :: segments] else []
  | .anchor name :: segments => if w.name = name then [segments] else []
  | .component pieces :: segments => if acceptsName w.free pieces w.name then [segments] else []
  | _ => []

variable {w : Waypoint} {left right segments : List Pattern}

theorem matches_cons_iff {way : List Waypoint} :
    Matches segments (w :: way) ↔ ∃ left ∈ after w segments, Matches left way := by
  induction segments with
  | nil => simp [after, Matches.nil_iff]
  | cons segment segments ih =>
    cases segment with
    | globstar =>
      rw [Matches.globstar_cons_iff, ih]
      by_cases spanned : w.Spanned
      · simp [after, spanned, or_and_right, exists_or]
      · simp [after, spanned]
    | anchor name =>
      rw [Matches.anchor_cons_iff]
      by_cases same : w.name = name <;> simp [after, same]
    | component pieces =>
      rw [Matches.component_cons_iff]
      by_cases accepted : acceptsName w.free pieces w.name = true <;> simp [after, accepted]
    | _ =>
      apply iff_of_false
      · intro h
        cases h
      · simp [after]

theorem matches_cons_of_taken (taken : after w segments = [left]) {way : List Waypoint} :
    Matches segments (w :: way) ↔ Matches left way := by
  rw [matches_cons_iff, taken]
  simp

theorem not_matches_of_refused (refused : after w segments = []) {way : List Waypoint} :
    ¬ Matches segments (w :: way) := by
  rw [matches_cons_iff, refused]
  simp

/-- Does the row of names match? Each name is taken by every segment that may take it. -/
instance Matches.decidable : (way : List Waypoint) → (segments : List Pattern) →
    Decidable (Matches segments way)
  | [], _ => decidable_of_iff _ Matches.nil_right_iff.symm
  | w :: way, segments =>
    letI := Matches.decidable way
    decidable_of_iff (∃ left ∈ after w segments, Matches left way) matches_cons_iff.symm

/-- A segment that is not `**` takes the name and is done, or does not take it, whatever follows. -/
theorem after_of_named {segment : Pattern} (named : segment ≠ .globstar) (w : Waypoint) :
    (∀ later, after w (segment :: later) = [later]) ∨ ∀ later, after w (segment :: later) = [] := by
  cases segment with
  | globstar => exact absurd rfl named
  | anchor name => by_cases same : w.name = name <;> simp [after, same]
  | component pieces =>
    by_cases accepted : acceptsName w.free pieces w.name = true <;> simp [after, accepted]
  | _ => simp [after]

theorem suffix_of_mem_after (h : left ∈ after w segments) : left <:+ segments := by
  induction segments with
  | nil => simp [after] at h
  | cons segment segments ih =>
    have tail : segments <:+ segment :: segments := List.suffix_cons segment segments
    cases segment with
    | globstar =>
      rcases List.mem_append.mp h with h | h
      · exact (ih h).trans tail
      · split at h
        · rcases List.mem_singleton.mp h with rfl
          exact List.suffix_rfl
        · cases h
    | anchor name =>
      simp only [after] at h
      split at h
      · rwa [List.mem_singleton.mp h]
      · cases h
    | component pieces =>
      simp only [after] at h
      split at h
      · rwa [List.mem_singleton.mp h]
      · cases h
    | _ => simp [after] at h

/-- The shorter ends come first. -/
theorem pairwise_after (w : Waypoint) (segments : List Pattern) :
    (after w segments).Pairwise (· <:+ ·) := by
  induction segments with
  | nil => simp [after]
  | cons segment segments ih =>
    cases segment with
    | globstar =>
      apply List.pairwise_append.mpr
      refine ⟨ih, by split <;> simp, ?_⟩
      intro left member whole member'
      split at member'
      · rw [List.mem_singleton.mp member']
        exact (suffix_of_mem_after member).trans (List.suffix_cons _ _)
      · cases member'
    | anchor name => simp only [after]; split <;> simp
    | component pieces => simp only [after]; split <;> simp
    | _ => simp [after]

/-- What a name leaves of the segments, it leaves of any end of them that is longer. -/
theorem mem_after_of_suffix (h : left ∈ after w segments) (inner : right <:+ segments)
    (further : left <:+ right) (ne : left ≠ right) : left ∈ after w right := by
  induction segments with
  | nil => simp [after] at h
  | cons segment segments ih =>
    rcases List.suffix_cons_iff.mp inner with rfl | within
    · exact h
    · have short : left.length < right.length :=
        Nat.lt_of_le_of_ne further.length_le fun same => ne (further.eq_of_length same)
      have long : right.length ≤ segments.length := within.length_le
      have own : left ≠ segments := by
        intro same
        rw [same] at short
        omega
      cases segment with
      | globstar =>
        rcases List.mem_append.mp h with h | h
        · exact ih h within
        · split at h
          · rw [List.mem_singleton.mp h, List.length_cons] at short
            omega
          · cases h
      | anchor name =>
        simp only [after] at h
        split at h
        · exact absurd (List.mem_singleton.mp h) own
        · cases h
      | component pieces =>
        simp only [after] at h
        split at h
        · exact absurd (List.mem_singleton.mp h) own
        · cases h
      | _ => simp [after] at h

namespace Matches

variable {u v x : List Waypoint}

/-- Two runs over the same names, one from the segments and one from an end of them: either they
cross, or the one that was ahead is still ahead. -/
theorem exchange (inner : left <:+ right) (hl : Matches left (u ++ v))
    (hr : Matches right (u ++ x)) : Matches left (u ++ x) ∨
      ∃ left' right', left' <:+ right' ∧ Matches left' v ∧ Matches right' x ∧
        ∀ z, Matches left' z → Matches left (u ++ z) := by
  induction u generalizing left right with
  | nil => exact Or.inr ⟨left, right, inner, hl, hr, fun _ h => h⟩
  | cons w u ih =>
    obtain ⟨left', leftTaken, hl⟩ := matches_cons_iff.mp hl
    obtain ⟨right', rightTaken, hr⟩ := matches_cons_iff.mp hr
    have leftEnd := (suffix_of_mem_after leftTaken).trans inner
    have back : ∀ z, Matches left' (u ++ z) → Matches left (w :: (u ++ z)) :=
      fun z h => matches_cons_iff.mpr ⟨left', leftTaken, h⟩
    by_cases ahead : left' <:+ right'
    · rcases ih ahead hl hr with h | ⟨left'', right'', inner', hl', hr', forth⟩
      · exact Or.inl (back x h)
      · exact Or.inr ⟨left'', right'', inner', hl', hr', fun z h => back z (forth z h)⟩
    · -- the run over the longer segments overtakes, so the other one could have taken its step
      have ends := List.suffix_or_suffix_of_suffix leftEnd (suffix_of_mem_after rightTaken)
      have overtaken : right' <:+ left' := ends.resolve_left ahead
      have reached := overtaken.trans (suffix_of_mem_after leftTaken)
      have ne : right' ≠ left := by
        intro same
        apply ahead
        rw [same]
        exact suffix_of_mem_after leftTaken
      have taken := mem_after_of_suffix rightTaken inner reached ne
      exact Or.inl (matches_cons_iff.mpr ⟨right', taken, hr⟩)

theorem of_suffix_nil (inner : left <:+ right) (h : Matches right []) : Matches left [] := by
  rw [nil_right_iff, List.all_eq_true] at h ⊢
  intro segment member
  exact h segment (inner.subset member)

/-- If an end of the segments matches a row of names that goes on, it matches the row so far as soon
as all the segments do. -/
theorem of_prefix (inner : left <:+ right) (hl : Matches left (u ++ v)) (hr : Matches right u) :
    Matches left u := by
  rw [← List.append_nil u] at hr ⊢
  rcases exchange inner hl hr with h | ⟨left', right', inner', -, ended, forth⟩
  · exact h
  · exact forth [] (of_suffix_nil inner' ended)

theorem of_last_spanned {a b : Waypoint} (spanned : b.Spanned) (inner : left <:+ right)
    (hl : Matches left [a]) (hr : Matches right [b]) : Matches left [b] := by
  obtain ⟨left', leftTaken, -⟩ := matches_cons_iff.mp hl
  obtain ⟨right', rightTaken, ended⟩ := matches_cons_iff.mp hr
  by_cases ahead : left <:+ right'
  · have only := nil_right_iff.mp (of_suffix_nil ahead ended)
    cases left with
    | nil => simp [after] at leftTaken
    | cons segment segments =>
      obtain ⟨first, others⟩ := Bool.and_eq_true_iff.mp (List.all_cons ▸ only)
      cases segment with
      | globstar =>
        exact @globstar [b] [] segments (by simpa using spanned) (nil_right_iff.mpr others)
      | _ => cases first
  · have overtaken : right' <:+ left :=
      (List.suffix_or_suffix_of_suffix inner (suffix_of_mem_after rightTaken)).resolve_left ahead
    have ne : right' ≠ left := by
      intro same
      rw [same] at ahead
      exact ahead List.suffix_rfl
    have taken := mem_after_of_suffix rightTaken inner overtaken ne
    exact matches_cons_iff.mpr ⟨right', taken, ended⟩

/-- Where one name after a row is matched by an end of the segments, any other that `**` may span is
matched by it as soon as all the segments match it. -/
theorem of_sibling {a b : Waypoint} (spanned : b.Spanned) (inner : left <:+ right)
    (hl : Matches left (u ++ [a])) (hr : Matches right (u ++ [b])) : Matches left (u ++ [b]) := by
  rcases exchange inner hl hr with h | ⟨left', right', inner', hl', hr', forth⟩
  · exact h
  · exact forth [b] (of_last_spanned spanned inner' hl' hr')

end Matches
end Wildpath.Pattern
