import Wildpath.Proofs.RuleReach
import Wildpath.Proofs.RuledPath
import Wildpath.Proofs.Steps

/-!
# Rules for directories

A rule that asks for a directory covers a path by a slash in it: all of the rule is spent before that
slash, so it covers what ends with the slash as well. For a file this is a directory on the way to it.
So in a search from the directory of the rules such rules take a file away only with a directory above
it, which was offered before, and every file that is offered stays.
-/

set_option autoImplicit false

namespace Wildpath

theorem Text.fields_append_fields (sep : Char) (front back : Text) :
    fields sep (front ++ sep :: back) = fields sep front ++ fields sep back := by
  induction front with
  | nil => simp [fields]
  | cons c front ih =>
    by_cases h : c = sep
    · simp [fields, h, ih]
    · obtain ⟨first, more, split⟩ := List.exists_cons_of_ne_nil (fields_ne_nil sep front)
      simp [fields, h, ih, split]

namespace Ignore

/-- Every rule of the text ignores, and asks for a directory by a slash at its end. -/
def DirectoryOnly (s : Text) : Prop :=
  ∀ line ∈ Text.lines (Text.withLineFeeds s), ∀ rule, readRule line = .ok (some rule) →
    rule.ignores = true ∧ (trimmedLine line).getLast? = some '/'

/-- The rule covers a path by a slash in it only. -/
inductive Shape.Slashed : Shape → Prop where
  | anySlash (directory : Bool) : Slashed (.anySlash directory)
  | glob (atoms : List Atom) : Slashed (.glob atoms .directory)

section Reading

theorem getLast?_collapse (segments : List Text) :
    (collapse segments).getLast? = segments.getLast? := by
  fun_induction collapse segments with
  | case1 a b rest stars ih => rw [ih, List.getLast?_cons_cons]
  | case2 a b rest other ih =>
    obtain ⟨others, same⟩ := exists_collapse b rest
    rw [same, List.getLast?_cons_cons, ← same, ih, List.getLast?_cons_cons]
  | case3 => rfl

/-- A slash at the end of a glob becomes a double star. -/
theorem getLast?_anchoredSegments {before : List Text} (filled : before ≠ []) :
    (anchoredSegments (before ++ [[]])).getLast? = some doubleStar := by
  unfold anchoredSegments
  rw [getLast?_collapse]
  split
  · exact List.getLast?_concat
  · next lost =>
    -- however the start is anchored, the slash at the end is still there
    refine absurd ?_ lost
    split
    · next rest same =>
      cases before with
      | nil => exact absurd rfl filled
      | cons first before =>
        obtain rfl : before ++ [[]] = rest := (List.cons.inj same).2
        exact List.getLast?_concat
    · next name other same => cases before <;> simp_all
    · next name other same => split <;> rfl
    · exact List.getLast?_concat

theorem ending_of_readSegments {directoryOnly first due : Bool} {segments : List Text}
    {atoms : List Atom} {ending : Ending}
    (read : readSegments directoryOnly first due segments = .ok (atoms, ending))
    (last : segments.getLast? = some doubleStar) :
    ending = if directoryOnly then .directory else .below := by
  induction segments generalizing first due atoms with
  | nil => cases last
  | cons segment more ih =>
    cases more with
    | nil =>
      obtain rfl : segment = doubleStar := Option.some.inj last
      rw [readSegments, if_pos rfl] at read
      cases read
      rfl
    | cons next more =>
      rw [List.getLast?_cons_cons] at last
      rw [readSegments] at read
      · split at read
        · obtain ⟨⟨later, ending⟩, rest, read⟩ := Pattern.bind_eq_ok_iff.mp read
          cases read
          exact ih rest last
        · dsimp only at read
          split at read <;>
          · obtain ⟨here, -, read⟩ := Pattern.bind_eq_ok_iff.mp read
            obtain ⟨⟨later, ending⟩, rest, read⟩ := Pattern.bind_eq_ok_iff.mp read
            cases read
            exact ih rest last
      · simp

theorem slashed_of_readShape {glob : Text} (slash : glob.getLast? = some '/') {shape : Shape}
    (read : readShape glob = .ok shape) : shape.Slashed := by
  obtain ⟨before, rfl⟩ := List.getLast?_eq_some_iff.mp slash
  have segments : Text.fields '/' (before ++ ['/']) = Text.fields '/' before ++ [[]] :=
    Text.fields_append_fields '/' before []
  have last := getLast?_anchoredSegments (Text.fields_ne_nil '/' before)
  unfold readShape at read
  dsimp only at read
  rw [segments, List.getLast?_concat] at read
  split at read
  · cases read
  · split at read
    · cases read
      exact .anySlash true
    · split at read
      · next lone =>
        rw [lone] at last
        cases last
      · split at read
        · cases read
          exact .anySlash _
        · obtain ⟨⟨atoms, ending⟩, way, read⟩ := Pattern.bind_eq_ok_iff.mp read
          rw [eq_glob_of_ofAtoms read, ending_of_readSegments way last]
          exact .glob atoms

theorem mem_of_directoryOnly {s : Text} (only : DirectoryOnly s) {rules : List Rule}
    (read : readRules s = .ok rules) {rule : Rule} (member : rule ∈ rules) :
    rule.ignores = true ∧ rule.shape.Slashed := by
  obtain ⟨line, there, given⟩ := (mem_readRules_iff read).mp member
  obtain ⟨ignores, slash⟩ := only line there rule given
  exact ⟨ignores, slashed_of_readShape slash (readShape_of_ignores given ignores)⟩

end Reading

/-- Such a rule covers a path by one of its slashes, whatever comes after that slash. -/
theorem Shape.Slashed.exists_cut {shape : Shape} (slashed : shape.Slashed) {path : Text}
    (covers : (shape.covers path).isSome = true) : ∃ front back, path = front ++ '/' :: back ∧
      ∀ other, (shape.covers (front ++ '/' :: other)).isSome = true := by
  cases slashed with
  | anySlash directory =>
    have slash : '/' ∈ path := by
      by_contra none
      simp [Shape.covers, none] at covers
    obtain ⟨front, back, rfl⟩ := List.append_of_mem slash
    exact ⟨front, back, rfl, fun other => by simp [Shape.covers]⟩
  | glob atoms =>
    obtain ⟨taken, rest, spans, reached, rfl⟩ := firstWay_isSome_iff.mp covers
    obtain ⟨back, rfl⟩ : ∃ back, rest = '/' :: back := by
      unfold Ending.check at reached
      split at reached <;> simp_all
    exact ⟨taken, back, rfl, fun other =>
      firstWay_isSome_iff.mpr ⟨taken, '/' :: other, spans, rfl, rfl⟩⟩

end Ignore

namespace Filter

variable {cwd : List Text} {root : Path} {rules : List Ignore.Rule} {names : List Text}

/-- The text of proper names has no lead to be taken off. -/
theorem withoutLead_ruledText (filled : names ≠ [])
    (proper : ∀ name ∈ names, name ≠ [] ∧ name ≠ selfName ∧ '/' ∉ name) (directory : Bool) :
    Ignore.withoutLead (ruledText names directory) = ruledText names directory := by
  obtain ⟨first, more, rfl⟩ := List.exists_cons_of_ne_nil filled
  obtain ⟨filled, other, clean⟩ := proper first List.mem_cons_self
  obtain ⟨c, first, rfl⟩ := List.exists_cons_of_ne_nil filled
  obtain ⟨rest, begins⟩ := Text.exists_joined_cons ['/'] (c :: first) more
  rw [ruledText, begins]
  unfold Ignore.withoutLead
  split
  · simp_all
  · next same =>
    obtain rfl : c = '.' := by simp_all
    cases first with
    | nil => exact absurd rfl other
    | cons d first => simp_all
  · rfl

/-- Rules for directories ignore a file only together with a directory on the way to it. -/
theorem exists_front_of_isIgnored
    (only : ∀ rule ∈ rules, rule.ignores = true ∧ rule.shape.Slashed) (filled : names ≠ [])
    (proper : ∀ name ∈ names, name ≠ [] ∧ name ≠ selfName ∧ '/' ∉ name)
    (ignored : Ignore.isIgnored rules (ruledText names false) = true) :
    ∃ front back, names = front ++ back ∧ front ≠ [] ∧ back ≠ [] ∧
      Ignore.isIgnored rules (ruledText front true) = true := by
  obtain ⟨rule, member, -, covers⟩ := Ignore.exists_covers_of_isIgnored ignored
  rw [withoutLead_ruledText filled proper] at covers
  obtain ⟨before, behind, same, cut⟩ := (only rule member).2.exists_cut covers
  -- the names are those before the slash and those behind it
  have pieces : names = Text.fields '/' before ++ Text.fields '/' behind := by
    rw [← Text.fields_append_fields, ← same, ruledText]
    exact (Text.fields_eq_iff.mpr
      ⟨filled, fun name member => (proper name member).2.2, (List.append_nil _).symm⟩).symm
  refine ⟨_, _, pieces, Text.fields_ne_nil _ _, Text.fields_ne_nil _ _,
    Ignore.isIgnored_of_covers (fun rule member => (only rule member).1) member ?_⟩
  have proper' : ∀ name ∈ Text.fields '/' before, name ≠ [] ∧ name ≠ selfName ∧ '/' ∉ name := by
    intro name member
    apply proper
    rw [pieces]
    exact List.mem_append_left _ member
  rw [withoutLead_ruledText (Text.fields_ne_nil _ _) proper', ruledText, Text.joined_fields]
  exact cut []

theorem byRules_of_below (rules : List Ignore.Rule) (filled : names ≠ []) {e : Entry}
    (below : (e.path.absolute cwd).parts = (root.absolute cwd).parts ++ names) :
    byRules root rules cwd e = Ignore.isIgnored rules (ruledText names e.isDirectory) := by
  simp [byRules, ruledPath?_of_below filled below]

theorem exists_front_of_byRules
    (only : ∀ rule ∈ rules, rule.ignores = true ∧ rule.shape.Slashed)
    (proper : ∀ name ∈ names, isName name = true) {e : Entry}
    (below : (e.path.absolute cwd).parts = (root.absolute cwd).parts ++ names)
    (file : e.isDirectory = false) (excluded : byRules root rules cwd e = true) :
    ∃ front back, names = front ++ back ∧ front ≠ [] ∧ back ≠ [] ∧
      ∀ d : Entry, (d.path.absolute cwd).parts = (root.absolute cwd).parts ++ front →
        d.isDirectory = true → byRules root rules cwd d = true := by
  have filled : names ≠ [] := by
    rintro rfl
    rw [byRules_of_root (by simpa using below)] at excluded
    cases excluded
  rw [byRules_of_below rules filled below, file] at excluded
  obtain ⟨front, back, same, filled, more, ignored⟩ := exists_front_of_isIgnored only filled
    (fun name member => Path.proper_of_isName (proper name member)) excluded
  refine ⟨front, back, same, filled, more, fun d there directory => ?_⟩
  rw [byRules_of_below rules filled there, directory, ignored]

/-- A way down from the base on which the filter excludes no entry. -/
inductive Clears (f : Filter) (cwd : List Text) (base : Path) : List Text → Entry → Prop where
  | base {e : Entry} : e.path = base → Clears f cwd base [] e
  | child {names : List Text} {e : Entry} {name : Text} {node : Node} :
    Clears f cwd base names e → e.isDirectory = true → isName name = true →
    f cwd (FileSystem.childEntry e name node) = false →
    Clears f cwd base (names ++ [name]) (FileSystem.childEntry e name node)

/-- The entry was listed at the end of such a way, and may be excluded itself. -/
def Offers (f : Filter) (cwd : List Text) (base : Path) (way : List Text) (child : Entry) : Prop :=
  ∃ names e name node, way = names ++ [name] ∧ Clears f cwd base names e ∧ e.isDirectory = true ∧
    isName name = true ∧ child = FileSystem.childEntry e name node

section Way

variable {f : Filter} {base : Path}

theorem Clears.path_eq {e : Entry} (h : Clears f cwd base names e) : e.path = base.down names := by
  induction h with
  | base same => simpa [Path.down] using same
  | child _ _ _ _ ih => rw [← Path.child_down, ← ih]; rfl

theorem Clears.proper {e : Entry} (h : Clears f cwd base names e) :
    ∀ name ∈ names, isName name = true := by
  induction h with
  | base => simp
  | child _ _ named _ ih => exact List.forall_mem_append.mpr ⟨ih, by simpa using named⟩

/-- Every directory on the way was asked about. -/
theorem Clears.exists_front {e : Entry} (h : Clears f cwd base names e)
    (directory : e.isDirectory = true) {front : List Text} (onWay : front <+: names)
    (filled : front ≠ []) :
    ∃ d : Entry, d.path = base.down front ∧ d.isDirectory = true ∧ f cwd d = false := by
  induction h with
  | base => exact absurd (List.prefix_nil.mp onWay) filled
  | @child names e name node way above named kept ih =>
    rcases List.prefix_concat_iff.mp onWay with rfl | further
    · exact ⟨_, (way.child above named kept).path_eq, directory, kept⟩
    · exact ih above further

theorem carries_clears (l : Lister) (fs : FileSystem) :
    (l.answers (some f) fs cwd).Carries base (fun e => ∃ names, Clears f cwd base names e)
      (fun child => ∃ way, Offers f cwd base way child) where
  top e rooted := ⟨[], .base (FileSystem.rootEntry_eq rooted).1⟩
  child e hint all reached directory listed child member := by
    obtain ⟨names, above⟩ := reached
    obtain ⟨loc, -, name, node, there, rfl⟩ := Lister.mem_children listed member
    exact ⟨_, names, e, name, node, rfl, above, directory,
      FileSystem.isName_of_mem_entries there, rfl⟩
  kept child offered kept := by
    obtain ⟨way, names, e, name, node, rfl, above, directory, named, rfl⟩ := offered
    exact ⟨_, above.child directory named (by simpa [Lister.answers] using kept)⟩

theorem Offers.spelled {way : List Text} {child : Entry} (h : Offers f cwd base way child) :
    child.path = base.down way ∧ ∀ name ∈ way, isName name = true := by
  obtain ⟨names, e, name, node, rfl, above, -, named, rfl⟩ := h
  refine ⟨?_, List.forall_mem_append.mpr ⟨above.proper, by simpa using named⟩⟩
  rw [← Path.child_down, ← above.path_eq]
  rfl

/-- Every directory above the entry was asked about. -/
theorem Offers.exists_front {front back : List Text} {child : Entry}
    (h : Offers f cwd base (front ++ back) child) (filled : front ≠ []) (more : back ≠ []) :
    ∃ d : Entry, d.path = base.down front ∧ d.isDirectory = true ∧ f cwd d = false := by
  obtain ⟨names, e, name, node, same, above, directory, -, -⟩ := h
  obtain ⟨back, last, rfl⟩ := (List.eq_nil_or_concat' back).resolve_left more
  rw [← List.append_assoc] at same
  exact above.exists_front directory ⟨back, List.append_inj_left' same rfl⟩ filled

end Way

section Offered

variable {segments : List Pattern} {way : List Text} {child : Entry} {f : Filter}

/-- The way to what is offered inside the root leads from the base to the root, and on from there. -/
theorem Offers.exists_below (offers : Offers f cwd (Search.base cwd root segments) way child)
    (inside : Search.ascents segments = 0 ∨
      (root.absolute cwd).parts <+: (child.path.absolute cwd).parts) :
    ∃ there below, way = there ++ below ∧
      ((Search.base cwd root segments).absolute cwd).parts ++ there = (root.absolute cwd).parts ∧
      (child.path.absolute cwd).parts = (root.absolute cwd).parts ++ below := by
  obtain ⟨spelled, proper⟩ := offers.spelled
  have own : (child.path.absolute cwd).parts =
      ((Search.base cwd root segments).absolute cwd).parts ++ way := by
    rw [spelled, Path.parts_absolute_down cwd _ (parentName_notMem proper)]
  rcases inside with level | ⟨below, inside⟩
  · have onRoot := Search.parts_absolute_base_level cwd root level
    exact ⟨[], way, rfl, by rw [onRoot, List.append_nil], by rw [own, onRoot]⟩
  · have climbed := Search.parts_absolute_base cwd root segments
    generalize (root.absolute cwd).parts.length - Search.ascents segments = count at climbed
    have led : ((Search.base cwd root segments).absolute cwd).parts ++
        (root.absolute cwd).parts.drop count = (root.absolute cwd).parts := by
      rw [climbed, List.take_append_drop]
    refine ⟨_, below, ?_, led, inside.symm⟩
    rw [own, ← led, List.append_assoc] at inside
    exact (List.append_cancel_left inside).symm

/-- Rules for directories do not exclude a file below their directory that a search offers, as they
do not exclude a directory on the way to it. -/
theorem Offers.kept (only : ∀ rule ∈ rules, rule.ignores = true ∧ rule.shape.Slashed)
    (offers : Offers (byRules root rules) cwd (Search.base cwd root segments) way child)
    (file : child.isDirectory = false)
    (inside : Search.ascents segments = 0 ∨
      (root.absolute cwd).parts <+: (child.path.absolute cwd).parts) :
    byRules root rules cwd child = false := by
  obtain ⟨there, below, rfl, led, own⟩ := offers.exists_below inside
  obtain ⟨-, proper⟩ := offers.spelled
  by_contra excluded
  rw [Bool.not_eq_false] at excluded
  obtain ⟨front, back, rfl, filled, more, above⟩ := exists_front_of_byRules only
    (List.forall_mem_append.mp proper).2 own file excluded
  rw [← List.append_assoc] at offers proper
  obtain ⟨d, path, directory, kept⟩ := offers.exists_front (by simp [filled]) more
  have clean := parentName_notMem (List.forall_mem_append.mp proper).1
  have placed : (d.path.absolute cwd).parts = (root.absolute cwd).parts ++ front := by
    rw [path, Path.parts_absolute_down cwd _ clean, ← List.append_assoc, led]
  rw [above d placed directory] at kept
  cases kept

end Offered

/-- Rules that all ask for directories leave a file below their directory out only with a directory
above it: then they leave out a directory on the way to the file as well. So a search of that directory
that only they prune keeps every file that it offers, whatever its pattern, as long as the file lies
below that directory; and so does every file if the pattern does not go up. -/
theorem byRules_directoryOnly {s : Text} (only : Ignore.DirectoryOnly s)
    (read : Ignore.readRules s = .ok rules) (cwd : List Text) (root : Path) :
    (∀ names e, (∀ name ∈ names, isName name = true) →
      (e.path.absolute cwd).parts = (root.absolute cwd).parts ++ names → e.isDirectory = false →
      byRules root rules cwd e = true →
      ∃ front back, names = front ++ back ∧ front ≠ [] ∧ back ≠ [] ∧ ∀ d : Entry,
        (d.path.absolute cwd).parts = (root.absolute cwd).parts ++ front → d.isDirectory = true →
          byRules root rules cwd d = true) ∧
    ∀ (l : Lister) (fs : FileSystem) pattern segments options search n children left child,
      Pattern.parse pattern = .ok segments → Search.start cwd root pattern options = .ok search →
      .offer children left ∈
        (search.after (l.answers (some (byRules root rules)) fs cwd) n).pending →
      child ∈ children → child.isDirectory = false →
      (Search.ascents segments = 0 ∨
        (root.absolute cwd).parts <+: (child.path.absolute cwd).parts) →
      byRules root rules cwd child = false := by
  have slashed : ∀ rule ∈ rules, rule.ignores = true ∧ rule.shape.Slashed :=
    fun rule member => Ignore.mem_of_directoryOnly only read member
  refine ⟨fun names e proper below file excluded =>
    exists_front_of_byRules slashed proper below file excluded, ?_⟩
  intro l fs pattern segments options search n children left child parsed opens pending member file
    inside
  obtain ⟨_, parsed', rfl⟩ := Search.start_eq_ok_iff.mp opens
  cases parsed.symm.trans parsed'
  have opened := Search.concerns_opened options (Search.base cwd root segments)
    (Search.baseNames cwd root segments) (Search.remaining segments)
  obtain ⟨way, offers⟩ := (opened _ _).after (carries_clears l fs) n _ pending child member
  exact offers.kept slashed file inside

theorem byRules_directoryOnly_sample :
    ∃ rules, Ignore.readRules "# any\n[!x]/\n".toList = .ok rules ∧
      (∃ front back, [['a'], ['x']] = front ++ back ∧ front ≠ [] ∧ back ≠ [] ∧ ∀ d : Entry,
        (d.path.absolute []).parts = ((⟨.relative, []⟩ : Path).absolute []).parts ++ front →
          d.isDirectory = true → byRules ⟨.relative, []⟩ rules [] d = true) ∧
      byRules ⟨.relative, []⟩ rules [] ⟨⟨.relative, [['l']]⟩, ['l'], false, 1⟩ = false := by
  have read : Ignore.readRules "# any\n[!x]/\n".toList =
      .ok [⟨true, .glob [.leading, .oneOf ⟨[('x', 'x')], true⟩] .directory⟩] := by cbv
  have only : Ignore.DirectoryOnly "# any\n[!x]/\n".toList := by
    intro line member rule given
    have both : Text.lines (Text.withLineFeeds "# any\n[!x]/\n".toList) =
      ["# any".toList, "[!x]/".toList] := by decide
    rw [both, List.mem_pair] at member
    rcases member with rfl | rfl
    · have none : Ignore.readRule "# any".toList = .ok none := by cbv
      rw [none] at given
      cases given
    · have some : Ignore.readRule "[!x]/".toList =
          .ok (some ⟨true, .glob [.leading, .oneOf ⟨[('x', 'x')], true⟩] .directory⟩) := by cbv
      rw [some] at given
      cases given
      exact ⟨rfl, by decide⟩
  obtain ⟨above, kept⟩ := byRules_directoryOnly only read [] ⟨.relative, []⟩
  have parsed : Pattern.parse "**".toList = .ok [.globstar] :=
    Pattern.parse_eq_ok_iff.mpr (by cbv)
  refine ⟨_, read, above [['a'], ['x']] ⟨⟨.relative, [['a'], ['x']]⟩, ['x'], false, 2⟩ (by decide)
    (by decide) rfl (by cbv), ?_⟩
  refine kept .plain .sample "**".toList [.globstar] .standard _ 3
    [⟨⟨.relative, [['a']]⟩, ['a'], true, 1⟩, ⟨⟨.relative, [['l']]⟩, ['l'], false, 1⟩] [.globstar] _
    parsed (Search.start_eq_ok_iff.mpr ⟨_, parsed, rfl⟩) ?_ (by simp) rfl (.inl (by cbv))
  cbv
  exact .head _

/-- A search that goes up offers a file beside the directory of the rules under a way that begins with
two dots, which a rule for hidden directories takes for one of these. -/
theorem byRules_directoryOnly_climbing :
    ∃ rules search children left child, Ignore.readRules ".*/\n".toList = .ok rules ∧
      Ignore.DirectoryOnly ".*/\n".toList ∧
      Search.start [] (Path.ofText "r".toList) "../*".toList .standard = .ok search ∧
      .offer children left ∈ (search.after (Lister.plain.answers
        (some (byRules (Path.ofText "r".toList) rules))
        ((FileSystem.empty.put ["r".toList] .emptyDirectory).put ["x".toList]
          ⟨.file [], false, false⟩) []) 3).pending ∧
      child ∈ children ∧ child.isDirectory = false ∧
      byRules (Path.ofText "r".toList) rules [] child = true := by
  have read : Ignore.readRules ".*/\n".toList =
      .ok [⟨true, .glob [.leading, .char '.', .stretch] .directory⟩] := by cbv
  have parsed : Pattern.parse "../*".toList = .ok [.parent, .component [.star]] :=
    Pattern.parse_eq_ok_iff.mpr (by cbv)
  refine ⟨_, _, [⟨⟨.relative, [['r']]⟩, ['r'], true, 1⟩, ⟨⟨.relative, [['x']]⟩, ['x'], false, 1⟩],
    [.component [.star]], ⟨⟨.relative, [['x']]⟩, ['x'], false, 1⟩, read, ?_,
    Search.start_eq_ok_iff.mpr ⟨_, parsed, rfl⟩, ?_, by simp, rfl, by cbv⟩
  · intro line member rule given
    have lone : Text.lines (Text.withLineFeeds ".*/\n".toList) = [".*/".toList] := by decide
    rw [lone, List.mem_singleton] at member
    subst member
    have some : Ignore.readRule ".*/".toList =
        .ok (some ⟨true, .glob [.leading, .char '.', .stretch] .directory⟩) := by cbv
    rw [some] at given
    cases given
    exact ⟨rfl, by decide⟩
  · cbv
    exact .head _

end Filter
end Wildpath
