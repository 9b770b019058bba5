import Wildpath.Proofs.Descent
import Wildpath.Proofs.Narrowing
import Wildpath.Proofs.Seats

/-!
# The order of what is found

A search finds an entry once for every way in which the segments match its names, and reports the
first time. A directory that some way finds late is never reported after what lies below it, because
the way that found the entry below could have found the directory too. In the same way the entries of
one directory are reported in the order of its listing, where hidden names are not left out.
-/

set_option autoImplicit false

namespace Wildpath

open Pattern (Matches)

namespace Search

variable {R : Entry → Entry → Prop}

/-- All that follows an entry is in order with it, or was there before. -/
def InTurn (R : Entry → Entry → Prop) : List Entry → List Entry → Prop
  | _, [] => True
  | seen, e :: rest => (∀ d ∈ rest, R e d ∨ d ∈ seen) ∧ InTurn R (e :: seen) rest

theorem InTurn.mono {seen seen' l : List Entry} (h : InTurn R seen l)
    (more : ∀ e ∈ seen, e ∈ seen') : InTurn R seen' l := by
  induction l generalizing seen seen' with
  | nil => exact trivial
  | cons e rest ih =>
    obtain ⟨first, others⟩ := h
    constructor
    · intro d member
      exact (first d member).imp_right (more d)
    · apply ih others
      intro d member
      rcases List.mem_cons.mp member with rfl | member
      · exact List.mem_cons_self
      · exact List.mem_cons_of_mem e (more d member)

theorem InTurn.append (refl : ∀ e, R e e) {seen l l' : List Entry} (h : InTurn R seen l)
    (h' : InTurn R [] l') (between : ∀ x ∈ l, ∀ d ∈ l', R x d ∨ d ∈ seen ∨ d ∈ l) :
    InTurn R seen (l ++ l') := by
  induction l generalizing seen with
  | nil => exact h'.mono (by simp)
  | cons e rest ih =>
    obtain ⟨first, others⟩ := h
    constructor
    · intro d member
      rcases List.mem_append.mp member with member | member
      · exact first d member
      · rcases between e List.mem_cons_self d member with ordered | old | same
        · exact Or.inl ordered
        · exact Or.inr old
        · rcases List.mem_cons.mp same with rfl | later
          · exact Or.inl (refl d)
          · exact first d later
    · apply ih others
      intro x member d member'
      rcases between x (List.mem_cons_of_mem e member) d member' with ordered | old | same
      · exact Or.inl ordered
      · exact Or.inr (Or.inl (List.mem_cons_of_mem e old))
      · rcases List.mem_cons.mp same with rfl | later
        · exact Or.inr (Or.inl List.mem_cons_self)
        · exact Or.inr (Or.inr later)

theorem InTurn.flatMap {α : Type} (refl : ∀ e, R e e) {f : α → List Entry} {l : List α}
    (each : ∀ a ∈ l, InTurn R [] (f a))
    (between : l.Pairwise fun a b => ∀ x ∈ f a, ∀ d ∈ f b, R x d ∨ d ∈ f a) :
    InTurn R [] (l.flatMap f) := by
  induction l with
  | nil => exact trivial
  | cons a l ih =>
    obtain ⟨first, others⟩ := List.pairwise_cons.mp between
    rw [List.flatMap_cons]
    apply InTurn.append refl (each a List.mem_cons_self)
    · exact ih (fun b member => each b (List.mem_cons_of_mem a member)) others
    · intro x member d member'
      obtain ⟨b, given, member'⟩ := List.mem_flatMap.mp member'
      exact (first b given x member d member').imp_right Or.inr

/-- What is in turn is in order once later doubles are passed over. -/
theorem InTurn.pairwise_fresh {seen l : List Entry} (h : InTurn R seen l) :
    (fresh (seen.map (·.path)) l).Pairwise R := by
  induction l generalizing seen with
  | nil => exact List.Pairwise.nil
  | cons e rest ih =>
    obtain ⟨first, others⟩ := h
    have later := ih others
    rw [List.map_cons] at later
    rw [fresh]
    split
    · next doubled =>
      have same : ∀ p, p ∈ e.path :: seen.map (·.path) ↔ p ∈ seen.map (·.path) := by
        intro p
        rw [List.mem_cons, or_iff_right_of_imp]
        intro first
        rwa [first]
      rwa [fresh_congr same] at later
    · refine List.pairwise_cons.mpr ⟨?_, later⟩
      intro d member
      have unseen : d.path ∉ e.path :: seen.map (·.path) :=
        (path_mem_fresh_iff.mp (List.mem_map_of_mem member)).2
      apply (first d ((fresh_sublist _ rest).subset member)).resolve_right
      intro old
      exact unseen (List.mem_cons_of_mem _ (List.mem_map_of_mem old))

end Search

/-- An order of entries that a search keeps: an entry stands before what is below it, and what is
below one entry of a listing before what is below a later one. If two entries below a directory are
out of order, every run that finds the first one can find the other one instead. -/
structure World.Keeps (world : World) (options : Options) (R : Entry → Entry → Prop) : Prop where
  refl : ∀ e, R e e
  above : ∀ e names x, world.Leads options e names x → R e x
  beside : ∀ e all, world.children e none = .ok all → all.Pairwise fun a b =>
    ∀ names names' x d, world.Leads options a names x → world.Leads options b names' d → R x d
  crossing : ∀ e names names' x d, world.Leads options e names x →
    world.Leads options e names' d → R x d ∨ ∀ way left right, left <:+ right →
      Matches left (way ++ waypoints options.hidden names) →
      Matches right (way ++ waypoints options.hidden names') →
      Matches left (way ++ waypoints options.hidden names')

namespace Task

variable {world : World} {options : Options} {R : Entry → Entry → Prop}

theorem inTurn_descend (steady : world.Steady) (keeps : world.Keeps options R) {entry : Entry}
    {segments : List Pattern} (inside : ∀ child ∈ world.offered options entry, Search.InTurn R []
      ((trace world options (.visit child [child.name] segments)).filterMap Sign.found?)) :
    Search.InTurn R [] ((trace world options (.descend entry segments)).filterMap Sign.found?) := by
  rw [found_descend steady]
  apply Search.InTurn.flatMap keeps.refl inside
  apply (World.pairwise_offered (keeps.beside entry)).imp
  intro a b apart x found d found'
  obtain ⟨names, leads⟩ := leads_of_found steady found
  obtain ⟨names', leads'⟩ := leads_of_found steady found'
  exact Or.inl (apart names names' x d leads leads')

/-- What a visit finds is in turn for every order that a search keeps. -/
theorem inTurn_visit (steady : world.Steady) (keeps : world.Keeps options R) (entry : Entry)
    (names : List Text) (segments : List Pattern) : Search.InTurn R []
      ((trace world options (.visit entry names segments)).filterMap Sign.found?) := by
  induction entry, names, segments using names_induction world with
  | exhausted entry segments inside =>
    have below : Search.InTurn R []
        ((trace world options (.descend entry segments)).filterMap Sign.found?) := by
      apply inTurn_descend steady keeps
      intro child given
      obtain ⟨all, may, listed, member, -⟩ := World.mem_offered_iff.mp given
      exact inside none all (Bool.and_eq_true_iff.mp may).1 listed child member
    have after : ∀ d ∈ (trace world options (.descend entry segments)).filterMap Sign.found?,
        R entry d := by
      intro d member
      have found : d ∈ (trace world options (.visit entry [] segments)).filterMap Sign.found? := by
        rw [trace_visit_nil, List.filterMap_append]
        exact List.mem_append_right _ member
      obtain ⟨names, leads⟩ := leads_of_found steady found
      exact keeps.above entry names d leads
    rw [trace_visit_nil, List.filterMap_append]
    split
    · apply Search.InTurn.append keeps.refl (by simp [Sign.found?, Search.InTurn]) below
      intro x member d member'
      obtain rfl : x = entry := by simpa [Sign.found?] using member
      exact Or.inl (after d member')
    · simpa using below
  | named entry name names segments shorter =>
    rw [trace_visit_after, List.filterMap_flatMap]
    apply Search.InTurn.flatMap keeps.refl
    · intro left _
      exact shorter left
    · apply (Pattern.pairwise_after _ segments).imp
      intro left right inner x found d found'
      obtain ⟨below, leads, matched⟩ :=
        (found_mem_steady_iff steady entry names left x).mp (Sign.mem_found_iff.mp found)
      obtain ⟨below', leads', matched'⟩ :=
        (found_mem_steady_iff steady entry names right d).mp (Sign.mem_found_iff.mp found')
      rcases keeps.crossing entry below below' x d leads leads' with ordered | crosses
      · exact Or.inl ordered
      · right
        rw [Sign.mem_found_iff, found_mem_steady_iff steady]
        exact ⟨below', leads', crosses _ left right inner matched matched'⟩

end Task

/-- The second path goes on from the first one. -/
def Path.Above (p q : Path) : Prop := p.Reaches q ∧ p ≠ q

/-- The paths lead to entries of one directory. -/
def Path.Siblings (p q : Path) : Prop :=
  ∃ (directory : Path) (a b : Text), p = directory.child a ∧ q = directory.child b

theorem Path.Siblings.eq_of_append {p : Path} {names names' : List Text}
    (h : Siblings { p with parts := p.parts ++ names } { p with parts := p.parts ++ names' }) :
    names = names' ∨ ∃ before a b, names = before ++ [a] ∧ names' = before ++ [b] := by
  obtain ⟨directory, a, b, first, second⟩ := h
  have first : p.parts ++ names = directory.parts ++ [a] := congrArg Path.parts first
  have second : p.parts ++ names' = directory.parts ++ [b] := congrArg Path.parts second
  have same : names.length = names'.length := by
    have long := congrArg List.length first
    have long' := congrArg List.length second
    simp only [List.length_append, List.length_singleton] at long long'
    omega
  rcases List.eq_nil_or_concat names with rfl | ⟨before, a', rfl⟩
  · exact Or.inl (List.length_eq_zero_iff.mp same.symm).symm
  · rcases List.eq_nil_or_concat names' with rfl | ⟨before', b', rfl⟩
    · simp at same
    · simp only [List.concat_eq_append, ← List.append_assoc] at first second ⊢
      have inits := (List.append_inj_left' first rfl).trans (List.append_inj_left' second rfl).symm
      right
      exact ⟨before, a', b', rfl, by rw [List.append_cancel_left inits]⟩

namespace World

variable {world : World} {options : Options}

section Steady
variable (steady : world.Steady)
include steady

/-- A search finds a directory before what is below it. -/
theorem keeps_above : world.Keeps options fun e d => ¬ d.path.Above e.path where
  refl e above := above.2 rfl
  above e names x leads above := by
    have path := leads.path_eq steady
    obtain ⟨reaches, ne⟩ := above
    have none : names <+: [] := by
      rw [path] at reaches
      exact Path.reaches_append_iff.mp (by simpa using reaches)
    rw [List.prefix_nil.mp none, List.append_nil] at path
    exact ne path
  beside e all listed := by
    apply (steady.pairwise_names listed).imp_of_mem
    intro a b ha hb ne names names' x d leads leads' above
    have reaches := above.1
    rw [leads.path_eq_of_child steady listed ha, leads'.path_eq_of_child steady listed hb,
      Path.reaches_append_iff, List.cons_prefix_cons] at reaches
    exact ne reaches.1.symm
  crossing e names names' x d leads leads' := by
    by_cases above : d.path.Above x.path
    · right
      intro way left right inner matched matched'
      have reaches := above.1
      rw [leads.path_eq steady, leads'.path_eq steady, Path.reaches_append_iff] at reaches
      obtain ⟨more, rfl⟩ := reaches
      rw [waypoints, List.map_append, ← List.append_assoc] at matched
      exact matched.of_prefix inner matched'
    · exact Or.inl above

/-- Where hidden names are not left out, a search finds the entries of a directory in the order of
its listing. -/
theorem keeps_listing (hidden : options.hidden = true) :
    world.Keeps options fun x d => x.path.Siblings d.path →
      x = d ∨ ∃ directory all, world.children directory none = .ok all ∧ [x, d].Sublist all where
  refl e _ := Or.inl rfl
  above e names x leads siblings := by
    rw [leads.path_eq steady] at siblings
    have siblings : Path.Siblings { e.path with parts := e.path.parts ++ [] }
        { e.path with parts := e.path.parts ++ names } := by
      simpa using siblings
    rcases siblings.eq_of_append with rfl | ⟨before, a, b, none, -⟩
    · cases leads
      exact Or.inl rfl
    · simp at none
  beside e all listed := by
    rw [List.pairwise_iff_forall_sublist]
    intro a b inOrder names names' x d leads leads' siblings
    have ha : a ∈ all := inOrder.subset (by simp)
    have hb : b ∈ all := inOrder.subset (by simp)
    have ne : a.name ≠ b.name :=
      List.pairwise_iff_forall_sublist.mp (steady.pairwise_names listed) inOrder
    rw [leads.path_eq_of_child steady listed ha, leads'.path_eq_of_child steady listed hb]
      at siblings
    rcases siblings.eq_of_append with same | ⟨before, n, n', same, same'⟩
    · exact absurd (List.cons.inj same).1 ne
    · -- a common directory below would have to be below both
      cases before with
      | nil =>
        obtain rfl : names = [] := (List.cons.inj same).2
        obtain rfl : names' = [] := (List.cons.inj same').2
        cases leads
        cases leads'
        exact Or.inr ⟨e, all, listed, inOrder⟩
      | cons first before =>
        have := (List.cons.inj same).1.trans (List.cons.inj same').1.symm
        exact absurd this ne
  crossing e names names' x d leads leads' := by
    by_cases siblings : x.path.Siblings d.path
    · rw [leads.path_eq steady, leads'.path_eq steady] at siblings
      right
      intro way left right inner matched matched'
      rcases siblings.eq_of_append with rfl | ⟨before, a, b, rfl, rfl⟩
      · exact matched
      · rw [waypoints, List.map_append, ← List.append_assoc] at matched matched' ⊢
        exact matched.of_sibling (Or.inl hidden) inner matched'
    · exact Or.inl fun h => absurd h siblings

end Steady
end World

theorem Lister.steady_unhinted (l : Lister) (fs : FileSystem) (cwd : List Text)
    (filter : Option Filter) : ((l.listing fs cwd).unhinted.world filter).Steady where
  unhinted _ _ := rfl
  placed directory all listed child member := by
    obtain ⟨-, -, name, node, -, rfl⟩ := Lister.mem_children listed member
    exact ⟨rfl, rfl⟩
  distinct directory all listed := by
    change l.children fs cwd directory none = .ok all at listed
    unfold Lister.children at listed
    split at listed
    · cases listed
    · split at listed
      · cases listed
      · next list given =>
        have apart := FileSystem.nodup_children given
        cases listed
        split
        · exact ((List.reverse_perm list).map _).nodup_iff.mpr apart
        · exact apart

theorem Sign.untilFailure_prefix (signs : List Sign) : untilFailure signs <+: signs := by
  induction signs with
  | nil => exact List.prefix_rfl
  | cons sign signs ih =>
    rw [untilFailure]
    split
    · exact ⟨signs, rfl⟩
    · exact List.cons_prefix_cons.mpr ⟨rfl, ih⟩

namespace Search

/-- What is given up to a failure is the beginning of what would be given without one. -/
theorem Outlook.rest_prefix (o : Outlook) :
    o.rest.entries <+: (fresh o.seen (o.signs.filterMap Sign.found?)).filter o.wanted.admits :=
  (fresh_mono o.seen ((Sign.untilFailure_prefix o.signs).filterMap Sign.found?)).filter _

theorem nodup_drain (world : World) (s : Search) :
    ((s.drain world).1.entries.map (·.path)).Nodup := by
  rw [drain_eq_rest]
  exact (List.filter_sublist.map _).nodup (nodup_fresh _ _)

variable {l : Lister} {fs : FileSystem} {cwd : List Text} {filter : Option Filter} {root : Path}
  {pattern : Text} {options : Options} {s : Search}

theorem pairwise_drain {R : Entry → Entry → Prop}
    (keeps : ((l.listing fs cwd).unhinted.world filter).Keeps options R)
    (opens : start cwd root pattern options = .ok s) :
    (s.drain (l.world filter fs cwd)).1.entries.Pairwise R := by
  have drained := @drain_eq_unhinted fs cwd l filter root pattern options s opens
  obtain ⟨segments, -, rfl⟩ := start_eq_ok_iff.mp opens
  rw [drained]
  apply List.Pairwise.sublist (Outlook.rest_prefix _).sublist
  rw [outlook_opened]
  apply List.Pairwise.filter
  apply @InTurn.pairwise_fresh R []
  cases ((l.listing fs cwd).unhinted.world filter).rootEntry (base cwd root segments) with
  | none => exact trivial
  | some top => exact Task.inTurn_visit (l.steady_unhinted fs cwd filter) keeps top _ _

/-- Every directory is reported before what is below it. Where hidden names are not left out, the
entries of a directory are reported in the order in which it is listed. -/
theorem drain_ordered (l : Lister) (fs : FileSystem) (filter : Option Filter)
    (opens : start cwd root pattern options = .ok s) :
    ((s.drain (l.world filter fs cwd)).1.entries.Pairwise fun a b => ¬ b.path.Above a.path) ∧
    (options.hidden = true →
      (s.drain (l.world filter fs cwd)).1.entries.Pairwise fun a b => a.path.Siblings b.path →
        ∃ directory all, l.children fs cwd directory none = .ok all ∧ [a, b].Sublist all) := by
  have steady := l.steady_unhinted fs cwd filter
  refine ⟨pairwise_drain (World.keeps_above steady) opens, fun hidden => ?_⟩
  have ordered := pairwise_drain (World.keeps_listing steady hidden) opens
  have apart := List.pairwise_map.mp (nodup_drain (l.world filter fs cwd) s)
  apply (ordered.and apart).imp
  intro a b both siblings
  obtain ⟨ordered, ne⟩ := both
  rcases ordered siblings with rfl | listed
  · exact absurd rfl ne
  · exact listed

theorem drain_ordered_sample :
    ∃ s, start [] ⟨.relative, []⟩ "**/a/**/*".toList .standard = .ok s ∧
      ((s.drain (Lister.plain.world none .sample [])).1.entries.Pairwise fun a b =>
        ¬ b.path.Above a.path) ∧
      (s.drain (Lister.plain.world none .sample [])).1.entries.Pairwise fun a b =>
        a.path.Siblings b.path → ∃ directory all,
          Lister.plain.children .sample [] directory none = .ok all ∧ [a, b].Sublist all := by
  have parsed : Pattern.parse "**/a/**/*".toList = .ok [.globstar, .component [.text ['a']],
      .globstar, .component [.star]] :=
    Pattern.parse_eq_ok_iff.mpr (by cbv)
  obtain ⟨s, opens⟩ : ∃ s, start [] ⟨.relative, []⟩ "**/a/**/*".toList .standard = .ok s :=
    ⟨_, start_eq_ok_iff.mpr ⟨_, parsed, rfl⟩⟩
  obtain ⟨above, listing⟩ := drain_ordered Lister.plain .sample none opens
  exact ⟨s, opens, above, listing rfl⟩

end Search
end Wildpath
