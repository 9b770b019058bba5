import Wildpath.Proofs.Descent
import Wildpath.Proofs.Joining
import Wildpath.Proofs.Seats

/-!
# One `**` after another

A `**` directly after another one adds nothing. With two of them a search goes every way that it goes
with one, and then some of these ways again: where both stand before a name, the first one may take it
after the second one has taken it already. So each entry is found for the first time at the same place
in the order, and the same directories are listed, though not as often.
-/

set_option autoImplicit false

namespace Wildpath

namespace Sign

/-- The same entries are found for the first time, in the same order, and the same signs are shown. -/
structure Alike (signs signs' : List Sign) : Prop where
  found : Search.fresh [] (signs.filterMap found?) = Search.fresh [] (signs'.filterMap found?)
  shown : ∀ sign, sign ∈ signs ↔ sign ∈ signs'

namespace Alike

variable {signs signs' more more' : List Sign}

theorem refl (signs : List Sign) : Alike signs signs := ⟨rfl, fun _ => Iff.rfl⟩

theorem trans {signs'' : List Sign} (h : Alike signs signs') (h' : Alike signs' signs'') :
    Alike signs signs'' :=
  ⟨h.found.trans h'.found, fun sign => (h.shown sign).trans (h'.shown sign)⟩

theorem append (h : Alike signs signs') (h' : Alike more more') :
    Alike (signs ++ more) (signs' ++ more') where
  found := by
    rw [List.filterMap_append, List.filterMap_append]
    exact Search.fresh_append_congr h.found h'.found
  shown sign := by rw [List.mem_append, List.mem_append, h.shown, h'.shown]

theorem flatMap {α : Type} {f g : α → List Sign} {l : List α} (h : ∀ a ∈ l, Alike (f a) (g a)) :
    Alike (l.flatMap f) (l.flatMap g) := by
  induction l with
  | nil => exact refl []
  | cons a l ih =>
    obtain ⟨first, others⟩ := List.forall_mem_cons.mp h
    rw [List.flatMap_cons, List.flatMap_cons]
    exact first.append (ih others)

/-- Signs that were all shown before change nothing. -/
theorem absorb (shown : ∀ sign ∈ more, sign ∈ signs) : Alike (signs ++ more) signs where
  found := by
    rw [List.filterMap_append]
    apply Search.fresh_append_of_covered
    intro e member
    rw [mem_found_iff] at member
    exact List.mem_map_of_mem (mem_found_iff.mpr (shown _ member))
  shown sign := by
    rw [List.mem_append]
    exact or_iff_left_of_imp (shown sign)

theorem calm_iff (h : Alike signs signs') : Calm signs ↔ Calm signs' :=
  forall_congr' fun sign => imp_congr_left (h.shown sign)

end Alike
end Sign

namespace Task

open Sign (Alike)

variable {world : World} {options : Options}

/-- Below an entry two ends of the segments come to the same if they begin with the same segment and
come to the same at every child. -/
theorem alike_descend {entry : Entry} {segment : Pattern} {left right : List Pattern}
    (inside : ∀ hint all, entry.isDirectory = true → world.children entry hint = .ok all →
      ∀ child ∈ all, Alike (trace world options (.visit child [child.name] (segment :: left)))
        (trace world options (.visit child [child.name] (segment :: right)))) :
    Alike (trace world options (.descend entry (segment :: left)))
      (trace world options (.descend entry (segment :: right))) := by
  cases may : mayDescend options entry with
  | false =>
    rw [trace_descend_shut may, trace_descend_shut may]
    exact Alike.refl []
  | true =>
    have isDir : entry.isDirectory = true := (Bool.and_eq_true_iff.mp may).1
    cases listed : world.children entry segment.hint? with
    | error error =>
      rw [trace_descend_error may listed, trace_descend_error may listed]
      exact Alike.refl _
    | ok all =>
      rw [trace_descend_ok may listed, trace_descend_ok may listed, trace_offer, trace_offer]
      apply (Alike.refl [_]).append
      apply Alike.flatMap
      intro child member
      exact inside _ all isDir listed child (List.mem_filter.mp member).1

/-- A second `**` in front of a first one adds nothing to a visit, wherever the two stand. -/
theorem alike_doubled (entry : Entry) (names : List Text) (before after : List Pattern) :
    Alike (trace world options (.visit entry names (before ++ .globstar :: .globstar :: after)))
      (trace world options (.visit entry names (before ++ .globstar :: after))) := by
  induction entry, names, before using names_induction world with
  | exhausted entry before inside =>
    rw [trace_visit_nil, trace_visit_nil]
    apply Alike.append
    · have same : (before ++ .globstar :: .globstar :: after).all Pattern.isGlobstar =
          (before ++ .globstar :: after).all Pattern.isGlobstar := by
        simp [Pattern.isGlobstar]
      rw [same]
      exact Alike.refl _
    · cases before with
      | nil => exact alike_descend inside
      | cons segment before => exact alike_descend inside
  | named entry name names before shorter =>
    induction before with
    | nil =>
      simp only [List.nil_append]
      rw [trace_visit_globstar entry name names (.globstar :: after)]
      split
      · next spanned =>
        -- what the first `**` finds after it took the name, the second one has found before
        apply Alike.absorb
        intro sign member
        have once := ((shorter []).shown sign).mp member
        rw [trace_visit_globstar, if_pos spanned]
        exact List.mem_append_right _ once
      · exact Alike.absorb (by simp)
    | cons segment before fewer =>
      simp only [List.cons_append]
      by_cases spans : segment = .globstar
      · subst spans
        rw [trace_visit_globstar, trace_visit_globstar entry name names (before ++ .globstar :: after)]
        apply fewer.append
        split
        · exact shorter (.globstar :: before)
        · exact Alike.refl []
      · rw [trace_visit_after, trace_visit_after]
        rcases Pattern.after_of_named spans ⟨name, options.hidden || entry.depth == 0⟩ with
          taken | refused
        · rw [taken, taken, List.flatMap_singleton, List.flatMap_singleton]
          exact shorter before
        · rw [refused, refused]
          exact Alike.refl []

/-- A block of `**` comes to the same as one of them. -/
theorem alike_repeated (entry : Entry) (names : List Text) (before after : List Pattern) (n : Nat) :
    Alike (trace world options (.visit entry names
        (before ++ .globstar :: (List.replicate n .globstar ++ after))))
      (trace world options (.visit entry names (before ++ .globstar :: after))) := by
  induction n with
  | zero => exact Alike.refl _
  | succ n ih =>
    rw [List.replicate_succ, List.cons_append]
    exact (alike_doubled entry names before _).trans ih

end Task

namespace Search

open Pattern (globstar)

variable (before after : List Pattern)

/-! Where a search starts, and with which names, is decided by the segments before the first `**`. -/

theorem ascents_globstar : ascents (before ++ globstar :: after) = ascents before :=
  ascents_append rfl

theorem isAnchored_globstar :
    Pattern.isAnchored (before ++ globstar :: after) = Pattern.isAnchored before := by
  cases before with
  | nil => rfl
  | cons segment before => cases segment <;> rfl

theorem base_globstar (cwd : List Text) (root : Path) :
    base cwd root (before ++ globstar :: after) = base cwd root before := by
  simp only [base, isAnchored_globstar, ascents_globstar]

theorem baseNames_globstar (cwd : List Text) (root : Path) :
    baseNames cwd root (before ++ globstar :: after) = baseNames cwd root before := by
  simp only [baseNames, isAnchored_globstar]

theorem remaining_globstar :
    remaining (before ++ globstar :: after) = remaining before ++ globstar :: after := by
  simp only [remaining, isAnchored_globstar, ascents_globstar]
  split
  · rfl
  · exact List.drop_append_of_le_length (ascents_le_length before)

/-- Patterns that are the same but for a block of `**` in the place of one `**` give the same entries
in the same order, unless their searches end at a directory that cannot be listed. If one of them ends
so, the other one does. -/
theorem drain_repeated (world : World) (cwd : List Text) (root : Path) (options : Options)
    {pattern pattern' : Text} {before after : List Pattern} {n : Nat}
    (parsed : Pattern.parse pattern = .ok (before ++ globstar :: after))
    (parsed' : Pattern.parse pattern' = .ok (before ++ List.replicate (n + 1) globstar ++ after)) :
    ∃ s s', start cwd root pattern options = .ok s ∧ start cwd root pattern' options = .ok s' ∧
      ((s.drain world).1.failure = none ↔ (s'.drain world).1.failure = none) ∧
      (options.strict = false ∨ (s.drain world).1.failure = none →
        (s.drain world).1.entries = (s'.drain world).1.entries) := by
  rw [List.append_assoc, List.replicate_succ, List.cons_append] at parsed'
  refine ⟨_, _, start_eq_ok_iff.mpr ⟨_, parsed, rfl⟩, start_eq_ok_iff.mpr ⟨_, parsed', rfl⟩, ?_⟩
  rw [base_globstar, base_globstar, baseNames_globstar, baseNames_globstar, remaining_globstar,
    remaining_globstar]
  have alike : Sign.Alike
      ((⟨options, [.start (base cwd root before) (baseNames cwd root before)
        (remaining before ++ globstar :: (List.replicate n globstar ++ after))], []⟩ :
          Search).outlook world).signs
      ((⟨options, [.start (base cwd root before) (baseNames cwd root before)
        (remaining before ++ globstar :: after)], []⟩ : Search).outlook world).signs := by
    rw [outlook_opened, outlook_opened]
    cases world.rootEntry (base cwd root before) with
    | none => exact Sign.Alike.refl []
    | some top => exact Task.alike_repeated top _ _ after n
  constructor
  · rw [drain_eq_rest, drain_eq_rest]
    exact Sign.calm_iff_untilFailure.symm.trans (alike.calm_iff.symm.trans
      Sign.calm_iff_untilFailure)
  · intro calm
    have calm := calm_signs calm
    rw [drain_opened world options _ _ _ rfl calm,
      drain_opened world options _ _ _ rfl (alike.calm_iff.mpr calm), alike.found]

theorem drain_repeated_sample :
    ∃ s s', start [] ⟨.relative, []⟩ "a/**/x".toList .standard = .ok s ∧
      start [] ⟨.relative, []⟩ "a/**/**/**/x".toList .standard = .ok s' ∧
      (s.drain (Lister.plain.world none .sample [])).1.entries =
        (s'.drain (Lister.plain.world none .sample [])).1.entries := by
  have parsed : Pattern.parse "a/**/x".toList =
      .ok ([.component [.text ['a']]] ++ globstar :: [.component [.text ['x']]]) :=
    Pattern.parse_eq_ok_iff.mpr (by cbv)
  have parsed' : Pattern.parse "a/**/**/**/x".toList =
      .ok ([.component [.text ['a']]] ++ List.replicate 3 globstar ++ [.component [.text ['x']]]) :=
    Pattern.parse_eq_ok_iff.mpr (by cbv)
  obtain ⟨s, s', opens, opens', -, same⟩ := drain_repeated (Lister.plain.world none .sample []) []
    ⟨.relative, []⟩ .standard parsed parsed'
  exact ⟨s, s', opens, opens', same (Or.inl rfl)⟩

end Search
end Wildpath
