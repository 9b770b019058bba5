import Wildpath.Proofs.Concealed
import Wildpath.Proofs.PathText
import Wildpath.Proofs.Pruning

/-!
# The paths that ignore rules are asked about

Ignore rules know an entry by the names that lead to it from the directory of the rules. A search may
spell the path of the entry from that directory as it was given, from its absolute form, or from a
directory further up. All spellings have one absolute form, because going up takes back the last name
however the path was put into normal form before, so the rules are asked about the same text.
-/

set_option autoImplicit false

namespace Wildpath

namespace Path

theorem dropCommon_append (front as bs : List Text) :
    dropCommon (front ++ as) (front ++ bs) = dropCommon as bs := by
  induction front with
  | nil => rfl
  | cons name front ih => simp [dropCommon, ih]

/-- The way to a path further down is the names that are added. -/
theorem relativeTo_of_below {cwd : List Text} {p base : Path} {names : List Text}
    (h : (p.absolute cwd).parts = (base.absolute cwd).parts ++ names) :
    p.relativeTo cwd base = ⟨.relative, names⟩ := by
  have dropped := dropCommon_append (base.absolute cwd).parts names []
  have ended : dropCommon names [] = (names, []) := by cases names <;> rfl
  rw [List.append_nil, ended] at dropped
  simp [relativeTo, h, dropped]

section Stack

variable {cwd : List Text} {names : List Text}

/-- The parts of the absolute form, the last one first. -/
theorem parts_absolute (cwd : List Text) (p : Path) :
    (p.absolute cwd).parts = ((p.anchored cwd).parts.foldl (pushPart true) []).reverse := by
  rw [absolute, normal, isAnchored_anchored]

theorem anchored_down (cwd : List Text) (p : Path) (names : List Text) :
    ((p.down names).anchored cwd).parts = (p.anchored cwd).parts ++ names := by
  by_cases h : p.anchor = .relative <;> simp [anchored, isAnchored, down, h]

theorem parts_absolute_down (cwd : List Text) (p : Path) (clean : parentName ∉ names) :
    ((p.down names).absolute cwd).parts = (p.absolute cwd).parts ++ names := by
  rw [parts_absolute, parts_absolute, anchored_down, List.foldl_append, foldl_pushPart clean,
    List.reverse_append, List.reverse_reverse]

/-- Going up takes the last names back, and has no effect at the top. -/
theorem foldl_pushPart_parents {before : List Text} (clean : parentName ∉ before) (count : Nat) :
    (List.replicate count parentName).foldl (pushPart true) before = before.drop count := by
  induction count generalizing before with
  | zero => rfl
  | succ count ih =>
    rw [List.replicate_succ, List.foldl_cons]
    cases before with
    | nil => simpa [pushPart] using ih List.not_mem_nil
    | cons last before =>
      obtain ⟨other, others⟩ := List.ne_and_not_mem_of_not_mem_cons clean
      simp [pushPart, other.symm, ih others]

/-- Behind other parts, the normal form of a relative path leads where the path does. -/
theorem foldl_pushPart_normal (before own parts : List Text) :
    (parts.foldl (pushPart false) own).reverse.foldl (pushPart true) before =
      parts.foldl (pushPart true) (own.reverse.foldl (pushPart true) before) := by
  induction parts generalizing own with
  | nil => rfl
  | cons part parts ih =>
    rw [List.foldl_cons, List.foldl_cons, ih]
    congr 1
    by_cases up : part = parentName
    · cases own with
      | nil => simp [pushPart, up]
      | cons last own =>
        by_cases stays : last = parentName
        · simp [pushPart, up, stays]
        · simp [pushPart, up, stays]
    · simp [pushPart, up]

theorem absolute_normal (cwd : List Text) (p : Path) : p.normal.absolute cwd = p.absolute cwd := by
  by_cases h : p.isAnchored = true
  · have whole : p.anchored cwd = p := if_pos h
    have own : p.normal = p.absolute cwd := by rw [absolute, whole]
    rw [own]
    exact absolute_of_clean cwd (isAnchored_absolute cwd p) (parent_notMem_absolute cwd p)
  · have relative : p.normal.isAnchored ≠ true := h
    have parts : p.normal.parts = (p.parts.foldl (pushPart false) []).reverse := by
      simp only [normal, Bool.eq_false_iff.mpr h]
    rw [absolute, absolute, anchored, anchored, if_neg h, if_neg relative, parts]
    simp only [normal, isAnchored, List.foldl_append]
    rw [show (Anchor.top != Anchor.relative) = true from rfl, foldl_pushPart_normal]
    rfl

/-- Moved up, a path is as many names shorter, as far as there are names. -/
theorem parts_absolute_ascend (cwd : List Text) (p : Path) (count : Nat) :
    ((p.ascend count).absolute cwd).parts =
      (p.absolute cwd).parts.take ((p.absolute cwd).parts.length - count) := by
  have clean : parentName ∉ (p.anchored cwd).parts.foldl (pushPart true) [] :=
    parent_notMem_foldl_pushPart List.not_mem_nil
  have moved : p.ascend count = (p.down (List.replicate count parentName)).normal := rfl
  rw [moved, absolute_normal, parts_absolute, parts_absolute, anchored_down, List.foldl_append,
    foldl_pushPart_parents clean, List.length_reverse, List.reverse_drop]

end Stack

/-- The entry lies at names below the base, as deep as there are names. -/
def Holds (base : Path) (e : Entry) : Prop :=
  ∃ names, (∀ name ∈ names, isName name = true) ∧ e.path = base.down names ∧
    e.depth = names.length

end Path

theorem parentName_notMem {names : List Text} (proper : ∀ name ∈ names, isName name = true) :
    parentName ∉ names := by
  intro member
  exact absurd (proper _ member) (by decide)

namespace Search

/-- A search that does not go up starts at the root, whether it is spelled out or not. -/
theorem parts_absolute_base (cwd : List Text) (root : Path) (segments : List Pattern) :
    ((base cwd root segments).absolute cwd).parts = (root.absolute cwd).parts.take
      ((root.absolute cwd).parts.length - ascents segments) := by
  unfold base
  split
  · next anchored =>
    have level : ascents segments = 0 := by
      cases segments with
      | nil => rfl
      | cons segment segments =>
        cases segment with
        | anchor => rfl
        | _ => cases anchored
    have fixed : (root.absolute cwd).absolute cwd = root.absolute cwd :=
      Path.absolute_of_clean cwd (Path.isAnchored_absolute cwd root)
        (Path.parent_notMem_absolute cwd root)
    rw [fixed, level, Nat.sub_zero, List.take_length]
  · split
    · next level => rw [level, Nat.sub_zero, List.take_length]
    · exact Path.parts_absolute_ascend cwd root (ascents segments)

theorem parts_absolute_base_level (cwd : List Text) (root : Path) {segments : List Pattern}
    (level : ascents segments = 0) :
    ((base cwd root segments).absolute cwd).parts = (root.absolute cwd).parts := by
  rw [parts_absolute_base, level, Nat.sub_zero, List.take_length]

end Search

namespace Filter

variable {cwd : List Text} {root : Path}

/-- The text that ignore rules are asked about, for an entry at names below their directory. -/
def ruledText (names : List Text) (directory : Bool) : Text :=
  Text.joined ['/'] names ++ if directory then ['/'] else []

theorem ruledPath?_of_below {names : List Text} (filled : names ≠ []) {e : Entry}
    (h : (e.path.absolute cwd).parts = (root.absolute cwd).parts ++ names) :
    ruledPath? root cwd e = some (ruledText names e.isDirectory) := by
  rw [ruledPath?, Path.relativeTo_of_below h, ruledText]
  simp only [if_neg filled]
  rw [Path.text_eq (Or.inr filled)]
  rfl

theorem byRules_of_root {e : Entry} (h : (e.path.absolute cwd).parts = (root.absolute cwd).parts)
    (rules : List Ignore.Rule) : byRules root rules cwd e = false := by
  have none : e.path.relativeTo cwd root = ⟨.relative, []⟩ :=
    Path.relativeTo_of_below (by rw [h, List.append_nil])
  simp [byRules, ruledPath?, none]

/-- Two entries at the same names below the directory of the rules are both spared or both not. -/
theorem spares_byRules {base base' : Path}
    (onRoot : (base.absolute cwd).parts = (root.absolute cwd).parts)
    (onRoot' : (base'.absolute cwd).parts = (root.absolute cwd).parts) (rules : List Ignore.Rule)
    {names : List Text} (proper : ∀ name ∈ names, isName name = true) {e e' : Entry}
    (spelled : e.path = base.down names) (deep : e.depth = names.length)
    (spelled' : e'.path = base'.down names) (deep' : e'.depth = names.length)
    (kind : e.isDirectory = e'.isDirectory) :
    (byRules root rules).spares cwd e = (byRules root rules).spares cwd e' := by
  induction names using List.reverseRecOn generalizing e e' with
  | nil => rw [spares_of_depth deep, spares_of_depth deep']
  | append_singleton names name ih =>
    have clean := parentName_notMem proper
    have below : (e.path.absolute cwd).parts = (root.absolute cwd).parts ++ (names ++ [name]) := by
      rw [spelled, Path.parts_absolute_down cwd base clean, onRoot]
    have below' : (e'.path.absolute cwd).parts = (root.absolute cwd).parts ++ (names ++ [name]) := by
      rw [spelled', Path.parts_absolute_down cwd base' clean, onRoot']
    have own : byRules root rules cwd e = byRules root rules cwd e' := by
      rw [byRules, byRules, ruledPath?_of_below (by simp) below,
        ruledPath?_of_below (by simp) below', kind]
    have above := @ih (fun part member => proper part (List.mem_append_left _ member)) e.holder
      e'.holder (by simp [Entry.holder, spelled, Path.down]) (by simp [Entry.holder, deep])
      (by simp [Entry.holder, spelled', Path.down]) (by simp [Entry.holder, deep']) rfl
    have step {x : Entry} (under : x.depth = (names ++ [name]).length) :
        (byRules root rules).spares cwd x =
          (!byRules root rules cwd x && (byRules root rules).spares cwd x.holder) := by
      apply spares_child rfl
      simp [Entry.holder, under]
    rw [step deep, step deep', own, above]

end Filter

/-- Selecting signs takes none away that comes before the first failure. -/
theorem Sign.mem_untilFailure_filter {keep : Sign → Bool} {signs : List Sign} {sign : Sign}
    (member : sign ∈ untilFailure signs) (kept : keep sign = true) :
    sign ∈ untilFailure (signs.filter keep) := by
  induction signs with
  | nil => cases member
  | cons first signs ih =>
    by_cases failed : first.failure?.isSome = true
    · obtain rfl : sign = first := by simpa [untilFailure, failed] using member
      simp [kept, untilFailure, failed]
    · rw [untilFailure, if_neg failed] at member
      by_cases stays : keep first = true
      · rw [List.filter_cons_of_pos stays, untilFailure, if_neg failed]
        rcases List.mem_cons.mp member with rfl | later
        · exact List.mem_cons_self
        · exact List.mem_cons_of_mem _ (ih later)
      · rw [List.filter_cons_of_neg stays]
        rcases List.mem_cons.mp member with rfl | later
        · exact absurd kept stays
        · exact ih later

namespace Search

variable {l : Lister} {fs : FileSystem} {cwd : List Text}

theorem holds_trace {filter : Option Filter} {options : Options} {base : Path} {top : Entry}
    (start : base.Holds top) (names : List Text) (segments : List Pattern) :
    ∀ sign ∈ Task.trace (l.world filter fs cwd) options (.visit top names segments),
      base.Holds sign.entry := by
  refine Task.forall_trace (P := base.Holds) ?found ?listed ?failed ?child start names segments
  case found => exact fun e held => held
  case listed => exact fun e hint held _ => held
  case failed => exact fun e hint error held _ _ _ => held
  case child =>
    intro e hint all child held _ given member _
    obtain ⟨way, proper, spelled, deep⟩ := held
    obtain ⟨loc, -, name, node, there, rfl⟩ := Lister.mem_children given member
    refine ⟨way ++ [name], ?_, ?_, ?_⟩
    · rw [List.forall_mem_append]
      exact ⟨proper, by simpa using FileSystem.isName_of_mem_entries there⟩
    · rw [← Path.child_down, ← spelled]
      rfl
    · simp [FileSystem.childEntry, deep]

section Opened

variable {root : Path} {pattern : Text} {segments : List Pattern} {options : Options} {s : Search}

/-- Every entry that a search reports lies below its base. -/
theorem holds_of_mem_entries (parsed : Pattern.parse pattern = .ok segments)
    (opens : start cwd root pattern options = .ok s) {filter : Option Filter} {e : Entry}
    (member : e ∈ (s.drain (l.world filter fs cwd)).1.entries) :
    (base cwd root segments).Holds e := by
  obtain ⟨_, parsed', rfl⟩ := start_eq_ok_iff.mp opens
  rw [parsed] at parsed'
  cases parsed'
  have found := (Sign.untilFailure_prefix _).subset (mem_entries_iff.mp member).1
  rw [outlook_opened] at found
  cases rooted : fs.rootEntry cwd (base cwd root segments) with
  | none => simp [Lister.world, Lister.answers, rooted] at found
  | some top =>
    obtain ⟨onTop, -, shallow⟩ := FileSystem.rootEntry_eq rooted
    have start : (base cwd root segments).Holds top :=
      ⟨[], by simp, by simp [onTop, Path.down], shallow⟩
    have found : Sign.found e ∈ Task.trace (l.world filter fs cwd) options
        (.visit top (baseNames cwd root segments) (remaining segments)) := by
      simpa [Lister.world, Lister.answers, rooted] using found
    exact holds_trace start _ _ _ found

/-- Of what a search reports before it ends, also by an error, a filter leaves what it spares. -/
theorem mem_entries_filtered_iff (opens : start cwd root pattern options = .ok s) (f : Filter)
    {e : Entry} (member : e ∈ (s.drain (l.world none fs cwd)).1.entries) :
    e ∈ (s.drain (l.world (some f) fs cwd)).1.entries ↔ f.spares cwd e = true := by
  obtain ⟨_, -, rfl⟩ := start_eq_ok_iff.mp opens
  rw [mem_entries_iff] at member ⊢
  rw [and_iff_left member.2, signs, signs_filtered rfl f]
  constructor
  · intro found
    exact (List.mem_filter.mp ((Sign.untilFailure_prefix _).subset found)).2
  · exact fun spared => Sign.mem_untilFailure_filter member.1 (by exact spared)

end Opened

/-- A search of the root for a pattern that does not go up. -/
def Level (cwd : List Text) (root : Path) (s : Search) : Prop :=
  ∃ pattern segments options, Pattern.parse pattern = .ok segments ∧ ascents segments = 0 ∧
    start cwd root pattern options = .ok s

/-- What ignore rules leave of such a search: the entries that they spare, which lie below the root
however their paths are spelled. -/
theorem Level.drain_byRules {root : Path} {s : Search} (level : Level cwd root s)
    (rules : List Ignore.Rule) {e : Entry}
    (member : e ∈ (s.drain (l.world none fs cwd)).1.entries) :
    (∃ base : Path, (base.absolute cwd).parts = (root.absolute cwd).parts ∧ base.Holds e) ∧
    (e ∈ (s.drain (l.world (some (Filter.byRules root rules)) fs cwd)).1.entries ↔
      (Filter.byRules root rules).spares cwd e = true) := by
  obtain ⟨pattern, segments, options, parsed, stays, opens⟩ := level
  exact ⟨⟨base cwd root segments, parts_absolute_base_level cwd root stays,
    holds_of_mem_entries parsed opens member⟩, mem_entries_filtered_iff opens _ member⟩

end Search

namespace Filter

/-- An entry below the root is known by the names that lead to it from there, wherever the search
that built its path has started. -/
theorem ruledPath?_of_base {cwd : List Text} {root : Path} {segments : List Pattern}
    {names way : List Text} (filled : names ≠ []) (proper : ∀ name ∈ names, isName name = true)
    (back : ((Search.base cwd root segments).absolute cwd).parts ++ way =
      (root.absolute cwd).parts ++ names) {e : Entry}
    (spelled : e.path = (Search.base cwd root segments).down way) :
    ruledPath? root cwd e = some (ruledText names e.isDirectory) := by
  have clean : parentName ∉ way := by
    have whole : parentName ∉ (root.absolute cwd).parts ++ names := by
      rw [List.mem_append, not_or]
      exact ⟨Path.parent_notMem_absolute cwd root, parentName_notMem proper⟩
    rw [← back] at whole
    exact fun member => whole (List.mem_append_right _ member)
  apply ruledPath?_of_below filled
  rw [spelled, Path.parts_absolute_down cwd _ clean, back]

/-- Ignore rules are asked about the names that lead from their directory to the entry, whether the
search has started at that directory as it is spelled, at its absolute form, or further up with
names that lead back; the directory itself they never exclude. So two searches of the directory, a
relative and an anchored one, lose the same entries by them. -/
theorem byRules_by_names (cwd : List Text) (root : Path) :
    (∀ (l : Lister) (fs : FileSystem) filter pattern segments options s e,
      Pattern.parse pattern = .ok segments → Search.start cwd root pattern options = .ok s →
      e ∈ (s.drain (l.world filter fs cwd)).1.entries →
      (Search.base cwd root segments).Holds e) ∧
    (∀ segments, ((Search.base cwd root segments).absolute cwd).parts =
      (root.absolute cwd).parts.take
        ((root.absolute cwd).parts.length - Search.ascents segments)) ∧
    (∀ segments names way e, names ≠ [] → (∀ name ∈ names, isName name = true) →
      ((Search.base cwd root segments).absolute cwd).parts ++ way =
        (root.absolute cwd).parts ++ names →
      e.path = (Search.base cwd root segments).down way →
      ruledPath? root cwd e = some (ruledText names e.isDirectory) ∧
        ∀ rules, byRules root rules cwd e =
          Ignore.isIgnored rules (ruledText names e.isDirectory)) ∧
    (∀ rules e, (e.path.absolute cwd).parts = (root.absolute cwd).parts →
      byRules root rules cwd e = false) ∧
    ∀ rules (l : Lister) (fs : FileSystem) s s' e e', Search.Level cwd root s →
      Search.Level cwd root s' →
      e ∈ (s.drain (l.world none fs cwd)).1.entries →
      e' ∈ (s'.drain (l.world none fs cwd)).1.entries →
      (e.path.absolute cwd).parts = (e'.path.absolute cwd).parts →
      e.isDirectory = e'.isDirectory →
      (e ∈ (s.drain (l.world (some (byRules root rules)) fs cwd)).1.entries ↔
        e' ∈ (s'.drain (l.world (some (byRules root rules)) fs cwd)).1.entries) := by
  refine ⟨?held, Search.parts_absolute_base cwd root, ?below, fun rules e h => byRules_of_root h rules,
    ?runs⟩
  case held =>
    intro l fs filter pattern segments options s e parsed opens member
    exact Search.holds_of_mem_entries parsed opens member
  case below =>
    intro segments names way e filled proper back spelled
    have known := ruledPath?_of_base filled proper back spelled
    exact ⟨known, fun rules => by simp [byRules, known]⟩
  case runs =>
    intro rules l fs s s' e e' level level' member member' same kind
    obtain ⟨⟨base, onRoot, names, proper, spelled, deep⟩, left⟩ := level.drain_byRules rules member
    obtain ⟨⟨base', onRoot', names', proper', spelled', deep'⟩, left'⟩ :=
      level'.drain_byRules rules member'
    have equal : names = names' := by
      rw [spelled, spelled', Path.parts_absolute_down cwd base (parentName_notMem proper),
        Path.parts_absolute_down cwd base' (parentName_notMem proper'), onRoot, onRoot'] at same
      exact List.append_cancel_left same
    subst equal
    rw [left, left', spares_byRules onRoot onRoot' rules proper spelled deep spelled' deep' kind]

/-- A path that goes up past the root and comes back, and the two spellings of a search of the root. -/
theorem byRules_by_names_sample :
    ruledPath? (Path.ofText "a/../r/.".toList) [['w']]
        ⟨Path.ofText "../w/r/x".toList, ['x'], true, 3⟩ = some "x/".toList ∧
      ∃ s s', Search.start [] ⟨.relative, []⟩ "**".toList .standard = .ok s ∧
        Search.start [] ⟨.relative, []⟩ "/**".toList .standard = .ok s' ∧
        ∀ rules, (⟨⟨.relative, [['a'], ['b']]⟩, ['b'], true, 2⟩ : Entry) ∈ (s.drain
            (Lister.plain.world (some (byRules ⟨.relative, []⟩ rules)) .sample [])).1.entries ↔
          (⟨⟨.top, [['a'], ['b']]⟩, ['b'], true, 2⟩ : Entry) ∈ (s'.drain
            (Lister.plain.world (some (byRules ⟨.relative, []⟩ rules)) .sample [])).1.entries := by
  refine ⟨((byRules_by_names [['w']] (Path.ofText "a/../r/.".toList)).2.2.1
    [Pattern.parent, Pattern.parent, .globstar] [['x']] [['w'], ['r'], ['x']] _ (by decide)
    (by decide) (by cbv) (by cbv)).1, ?_⟩
  have parsed : Pattern.parse "**".toList = .ok [.globstar] :=
    Pattern.parse_eq_ok_iff.mpr (by cbv)
  have parsed' : Pattern.parse "/**".toList = .ok [.anchor [], .globstar] :=
    Pattern.parse_eq_ok_iff.mpr (by cbv)
  have opens := (Search.start_eq_ok_iff.mpr ⟨_, parsed, rfl⟩ :
    Search.start [] ⟨.relative, []⟩ "**".toList .standard = .ok _)
  have opens' := (Search.start_eq_ok_iff.mpr ⟨_, parsed', rfl⟩ :
    Search.start [] ⟨.relative, []⟩ "/**".toList .standard = .ok _)
  refine ⟨_, _, opens, opens', fun rules => ?_⟩
  apply (byRules_by_names [] ⟨.relative, []⟩).2.2.2.2 rules .plain .sample _ _ _ _
    ⟨_, _, _, parsed, by cbv, opens⟩ ⟨_, _, _, parsed', by cbv, opens'⟩
  · rw [Search.drain_of_idle_after 48 (by cbv)]
    cbv
    exact .tail _ (.tail _ (.tail _ (.head _)))
  · rw [Search.drain_of_idle_after 48 (by cbv)]
    cbv
    exact .tail _ (.tail _ (.tail _ (.head _)))
  · cbv
  · rfl

end Filter
end Wildpath
