import Wildpath.Proofs.Canonical
import Wildpath.Proofs.Descent
import Wildpath.Proofs.Seats

/-!
# Limits of a search

The limit on the depth cuts a search short in the middle, the wanted kind only says what is
reported. Both are selections from a search without them: of its entries those no deeper than the
limit, or those of the kind, and of its listings those of directories above the limit.
-/

set_option autoImplicit false

namespace Wildpath

/-- Does a search that stops at the depth still show the sign? -/
def Sign.within (limit : Nat) : Sign → Bool
  | .found e => e.depth ≤ limit
  | .listed e _ => e.depth < limit
  | .failed e _ _ => e.depth < limit

namespace Task

variable {world : World} {options : Options} {limit : Nat}

theorem trace_congr {options' : Options}
    (same : ∀ task : Task, task.perform world.toAnswers options =
      task.perform world.toAnswers options') (task : Task) :
    trace world options task = trace world options' task := by
  induction task using (wellFounded_smaller world.toAnswers (Pending.rank world)).induction with
  | h task ih =>
    rw [trace_eq, trace_eq, same]
    congr 1
    apply List.flatMap_congr
    intro new member
    exact ih new (smaller_perform (Pending.ranked world) options' task new member)

theorem trace_wanted (wanted : Wanted) :
    trace world { options with wanted := wanted } = trace world options := by
  have same : ∀ task : Task, task.perform world.toAnswers { options with wanted := wanted } =
      task.perform world.toAnswers options := fun _ => rfl
  exact funext (trace_congr same)

section Deeper
variable (deeper : ∀ directory hint all, world.children directory hint = .ok all →
  ∀ child ∈ all, child.depth = directory.depth + 1)
include deeper

theorem within_trace_eq_false {entry : Entry} (deep : limit < entry.depth) (names : List Text)
    (segments : List Pattern) :
    ∀ sign ∈ trace world options (.visit entry names segments), sign.within limit = false := by
  refine forall_trace (P := fun e => limit < e.depth) ?found ?listed ?failed ?child deep names
    segments
  case found => exact fun e deep => decide_eq_false (by omega)
  case listed => exact fun e hint deep _ => decide_eq_false (by omega)
  case failed => exact fun e hint error deep _ _ _ => decide_eq_false (by omega)
  case child =>
    intro e hint all child deep _ listed member _
    have := deeper e hint all listed child member
    omega

/-- At the limit nothing is left of what an unlimited search does below. -/
theorem filter_trace_descend_deepest {entry : Entry} (deepest : entry.depth = limit)
    (segments : List Pattern) :
    (trace world options (.descend entry segments)).filter (·.within limit) = [] := by
  have shut : decide (entry.depth < limit) = false := decide_eq_false (by omega)
  rcases trace_descend_cases world options entry segments with ⟨-, same⟩ |
    ⟨segment, later, error, rfl, -, -, same⟩ | ⟨segment, later, all, rfl, -, listed, same⟩
  · rw [same, List.filter_nil]
  · rw [same]
    split <;> simp [Sign.within, shut]
  · rw [same, List.filter_cons_of_neg (by simp [Sign.within, shut])]
    apply List.filter_eq_nil_iff.mpr
    intro sign member
    obtain ⟨child, given, member⟩ := List.mem_flatMap.mp member
    have depth := deeper entry _ all listed child (List.mem_filter.mp given).1
    rw [within_trace_eq_false deeper (by omega) _ _ sign member]
    exact Bool.false_ne_true

omit deeper in
theorem trace_descend_limited {entry : Entry} (above : entry.depth < limit)
    {segments : List Pattern} (inside : ∀ hint all child, entry.isDirectory = true →
      world.children entry hint = .ok all → child ∈ all →
      trace world { options with maxDepth := some limit } (.visit child [child.name] segments) =
        (trace world { options with maxDepth := none } (.visit child [child.name] segments)).filter
          (·.within limit)) :
    trace world { options with maxDepth := some limit } (.descend entry segments) =
      (trace world { options with maxDepth := none } (.descend entry segments)).filter
        (·.within limit) := by
  have kept : decide (entry.depth < limit) = true := decide_eq_true above
  have same : mayDescend { options with maxDepth := some limit } entry =
      mayDescend { options with maxDepth := none } entry := by
    simp [mayDescend, above]
  rcases trace_descend_cases world { options with maxDepth := none } entry segments with
    ⟨rfl | shut, -⟩ | ⟨segment, later, error, rfl, may, refused, -⟩ |
    ⟨segment, later, all, rfl, may, listed, -⟩
  · simp
  · rw [trace_descend_shut shut, trace_descend_shut (same.trans shut), List.filter_nil]
  · rw [trace_descend_error may refused, trace_descend_error (same.trans may) refused]
    split <;> simp [Sign.within, kept]
  · have isDir : entry.isDirectory = true := (Bool.and_eq_true_iff.mp may).1
    rw [trace_descend_ok may listed, trace_descend_ok (same.trans may) listed, trace_offer,
      trace_offer, List.filter_cons_of_pos (by exact kept), List.filter_flatMap]
    congr 1
    apply List.flatMap_congr
    intro child member
    exact inside _ all child isDir listed (List.mem_filter.mp member).1

/-- A search that stops at a depth shows what an unlimited search shows down to there. -/
theorem trace_limited {entry : Entry} (shallow : entry.depth ≤ limit) (names : List Text)
    (segments : List Pattern) :
    trace world { options with maxDepth := some limit } (.visit entry names segments) =
      (trace world { options with maxDepth := none } (.visit entry names segments)).filter
        (·.within limit) := by
  induction entry, names, segments using names_induction world with
  | exhausted entry segments inside =>
    rw [trace_visit_nil, trace_visit_nil, List.filter_append]
    congr 1
    · split
      · simp [Sign.within, shallow]
      · rfl
    · rcases Nat.lt_or_eq_of_le shallow with above | deepest
      · apply trace_descend_limited above
        intro hint all child isDir listed member
        have depth := deeper entry hint all listed child member
        exact inside hint all isDir listed child member (by omega)
      · rw [filter_trace_descend_deepest deeper deepest]
        apply trace_descend_shut
        simp [mayDescend, deepest]
  | named entry name names segments shorter =>
    rw [trace_visit_after, trace_visit_after, List.filter_flatMap]
    apply List.flatMap_congr
    intro left _
    exact shorter left shallow

end Deeper
end Task

namespace Search

variable {l : Lister} {fs : FileSystem} {cwd : List Text} {filter : Option Filter}
  {options : Options} {base : Path} {names : List Text} {segments : List Pattern}

theorem signs_limited (limit : Nat) :
    ((⟨{ options with maxDepth := some limit }, [.start base names segments], []⟩ : Search).outlook
      (l.world filter fs cwd)).signs =
    ((⟨{ options with maxDepth := none }, [.start base names segments], []⟩ : Search).outlook
      (l.world filter fs cwd)).signs.filter (·.within limit) := by
  have deeper : ∀ directory hint all, (l.world filter fs cwd).children directory hint = .ok all →
      ∀ child ∈ all, child.depth = directory.depth + 1 := by
    intro directory hint all listed child member
    obtain ⟨-, -, name, node, -, rfl⟩ := Lister.mem_children listed member
    rfl
  rw [outlook_opened, outlook_opened]
  cases rooted : fs.rootEntry cwd base with
  | none => simp [Lister.world, Lister.answers, rooted]
  | some top =>
    obtain ⟨-, -, shallow⟩ := FileSystem.rootEntry_eq rooted
    have limited := @Task.trace_limited (l.world filter fs cwd) options limit deeper top (by omega)
      names segments
    simpa [Lister.world, Lister.answers, rooted] using limited

theorem drain_wanted (world : World) (wanted : Wanted) :
    ((⟨{ options with wanted := wanted }, [.start base names segments], []⟩ :
        Search).drain world).1 =
      let all := ((⟨{ options with wanted := .everything }, [.start base names segments], []⟩ :
        Search).drain world).1
      { all with entries := all.entries.filter wanted.admits } := by
  have everything : ∀ entries : List Entry, entries.filter Wanted.everything.admits = entries :=
    fun entries => List.filter_eq_self.mpr fun _ _ => rfl
  have same := (@Task.trace_wanted world options wanted).trans
    (@Task.trace_wanted world options .everything).symm
  simp only [drain_eq_rest, Outlook.rest, outlook, everything, same]

/-- Limits are selections. The search that stops at a depth gives the entries down to there, and
lists the directories above. The searches for directories and for other entries list the same
directories as the search for both, and share its entries out. -/
theorem drain_limited (l : Lister) (fs : FileSystem) (filter : Option Filter) {cwd : List Text}
    {root : Path} {pattern : Text} {segments : List Pattern}
    (parsed : Pattern.parse pattern = .ok segments) {options : Options} {s : Search}
    (opens : start cwd root pattern options = .ok s) :
    (options.maxDepth = none →
      options.strict = false ∨ (s.drain (l.world filter fs cwd)).1.failure = none →
      ∀ limit, ∃ s', start cwd root pattern { options with maxDepth := some limit } = .ok s' ∧
        (s'.drain (l.world filter fs cwd)).1 =
          ⟨(s.drain (l.world filter fs cwd)).1.entries.filter (·.depth ≤ limit),
            (s.drain (l.world filter fs cwd)).1.listed.filter fun d =>
              (directoryAt (Search.base cwd root segments) d.directory).depth < limit, none⟩) ∧
    (options.wanted = .everything → ∃ directories others,
      start cwd root pattern { options with wanted := .directories } = .ok directories ∧
      start cwd root pattern { options with wanted := .others } = .ok others ∧
      (directories.drain (l.world filter fs cwd)).1 = { (s.drain (l.world filter fs cwd)).1 with
        entries := (s.drain (l.world filter fs cwd)).1.entries.filter (·.isDirectory) } ∧
      (others.drain (l.world filter fs cwd)).1 = { (s.drain (l.world filter fs cwd)).1 with
        entries := (s.drain (l.world filter fs cwd)).1.entries.filter (!·.isDirectory) } ∧
      ((directories.drain (l.world filter fs cwd)).1.entries ++
        (others.drain (l.world filter fs cwd)).1.entries).Perm
          (s.drain (l.world filter fs cwd)).1.entries) := by
  obtain ⟨_, parsed', rfl⟩ := start_eq_ok_iff.mp opens
  rw [parsed] at parsed'
  cases parsed'
  constructor
  · intro unlimited calm limit
    have whole : options = { options with maxDepth := none } := by rw [← unlimited]
    have after := @signs_limited l fs cwd filter options (Search.base cwd root segments)
      (baseNames cwd root segments) (remaining segments) limit
    rw [← whole] at after
    have wanted : ({ options with maxDepth := some limit } : Options).wanted = options.wanted := rfl
    have listed : ∀ sign : Sign, sign.listed?.isSome = true →
        sign.within limit = decide (sign.entry.depth < limit) := by
      intro sign shown
      cases sign with
      | found e => cases shown
      | _ => rfl
    refine ⟨_, start_eq_ok_iff.mpr ⟨segments, parsed, rfl⟩, ?_⟩
    exact drain_selected rfl (fun e => e.depth ≤ limit) (fun e => e.depth < limit) wanted after
      (calm_signs calm) (fun _ => rfl) listed
  · intro both
    have whole : options = { options with wanted := .everything } := by rw [← both]
    have directories := @drain_wanted options (Search.base cwd root segments)
      (baseNames cwd root segments) (remaining segments) (l.world filter fs cwd) .directories
    have others := @drain_wanted options (Search.base cwd root segments)
      (baseNames cwd root segments) (remaining segments) (l.world filter fs cwd) .others
    rw [← whole] at directories others
    refine ⟨_, _, start_eq_ok_iff.mpr ⟨segments, parsed, rfl⟩,
      start_eq_ok_iff.mpr ⟨segments, parsed, rfl⟩, directories, others, ?_⟩
    rw [directories, others]
    exact List.filter_append_perm _ _

theorem drain_limited_sample :
    ∃ s s', start [] ⟨.relative, []⟩ "**/?/*".toList .standard = .ok s ∧
      start [] ⟨.relative, []⟩ "**/?/*".toList { Options.standard with maxDepth := some 2 } =
        .ok s' ∧
      (s'.drain (Lister.plain.world none .sample [])).1.entries =
        (s.drain (Lister.plain.world none .sample [])).1.entries.filter (·.depth ≤ 2) := by
  have parsed : Pattern.parse "**/?/*".toList = .ok [.globstar, .component [.anyChar],
      .component [.star]] :=
    Pattern.parse_eq_ok_iff.mpr (by cbv)
  obtain ⟨s, opens⟩ : ∃ s, start [] ⟨.relative, []⟩ "**/?/*".toList .standard = .ok s :=
    ⟨_, start_eq_ok_iff.mpr ⟨_, parsed, rfl⟩⟩
  obtain ⟨s', opens', given⟩ :=
    (drain_limited Lister.plain .sample none parsed opens).1 rfl (Or.inl rfl) 2
  exact ⟨s, s', opens, opens', by rw [given]⟩

end Search
end Wildpath
