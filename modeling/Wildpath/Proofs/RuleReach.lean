import Wildpath.Proofs.NameFilter

/-!
# How far rules reach

The slashes of a glob say how far its rule reaches. A glob that begins with an ordinary character and
has a slash before its end is tied to the directory of the file: what it covers begins with that
character. A glob without such a slash is loose: what it covers it covers behind any directories,
whatever these are called. What a glob covers is what its atoms take in turn and then its ending. What
a whole file ignores is put down to one of its lines.
-/

set_option autoImplicit false

namespace Wildpath

namespace Ignore

/-- The glob begins with an ordinary character and has a slash before its end, so it holds from its
directory on. -/
def Tied (glob : Text) : Prop :=
  ∃ c rest, c ∉ "./\\*?[".toList ∧ (glob = '/' :: c :: rest ∨ glob = c :: rest ∧ '/' ∈ rest.dropLast)

/-- The glob has no slash before its end, so it holds at any depth. -/
def Loose (glob : Text) : Prop := glob ≠ [] ∧ '/' ∉ glob.dropLast

/-- What covers a path covers it behind any directories too. -/
inductive Shape.Floats : Shape → Prop where
  | anything : Floats .anything
  | anySlash (directory : Bool) : Floats (.anySlash directory)
  | leading (atoms : List Atom) (ending : Ending) : Floats (.glob (.leading :: atoms) ending)

section Reading

variable {c : Char} {segment : Text} {more : List Text} {directoryOnly : Bool} {atoms : List Atom}
  {ending : Ending}

theorem exists_collapse (first : Text) (more : List Text) :
    ∃ others, collapse (first :: more) = first :: others := by
  induction more generalizing first with
  | nil => exact ⟨[], rfl⟩
  | cons next more ih =>
    by_cases stars : first = doubleStar ∧ next = doubleStar
    · obtain ⟨others, same⟩ := ih next
      exact ⟨others, by rw [collapse, if_pos stars, same, stars.1, stars.2]⟩
    · exact ⟨collapse (next :: more), by rw [collapse, if_neg stars]⟩

/-- Behind a slash at the start, the anchored segments begin with the first segment. -/
theorem exists_anchoredSegments {first : Text} (filled : first ≠ []) (more : List Text) :
    ∃ others, anchoredSegments ([] :: first :: more) = first :: others := by
  unfold anchoredSegments
  dsimp only
  split
  · cases more with
    | nil => simp_all
    | cons next more => exact exists_collapse first _
  · exact exists_collapse first more

/-- Where names follow the first one, a slash at the start makes no difference. -/
theorem anchoredSegments_of_many {first : Text} (filled : first ≠ []) (many : more ≠ [])
    (inside : more ≠ [[]]) :
    anchoredSegments (first :: more) = anchoredSegments ([] :: first :: more) := by
  unfold anchoredSegments
  split <;> simp_all

/-- A lone name is put behind a double star. -/
theorem exists_anchoredSegments_lone {name : Text} (filled : name ≠ []) :
    (∃ others, anchoredSegments [name] = doubleStar :: others) ∧
      ∃ others, anchoredSegments [name, []] = doubleStar :: others := by
  by_cases stars : name = doubleStar
  · exact ⟨⟨[], by rw [stars]; rfl⟩, ⟨[], by rw [stars]; rfl⟩⟩
  · have single : anchoredSegments [name] = anchoredSegments [[], doubleStar, name] := by
      unfold anchoredSegments
      simp_all
    have ended : anchoredSegments [name, []] = anchoredSegments [[], doubleStar, name, []] := by
      unfold anchoredSegments
      simp_all
    rw [single, ended]
    exact ⟨exists_anchoredSegments (by decide) _, exists_anchoredSegments (by decide) _⟩

theorem readSegment_ordinary (ordinary : c ∉ "./\\*?[".toList) :
    readSegment (c :: segment) = (.char c :: ·) <$> readSegment segment := by
  rw [readSegment.eq_def]
  split <;> simp_all

theorem readSegments_ordinary (ordinary : c ∉ "./\\*?[".toList)
    (read : readSegments directoryOnly true false ((c :: segment) :: more) = .ok (atoms, ending)) :
    ∃ others, atoms = .char c :: others := by
  have star : c ≠ '*' := by
    rintro rfl
    exact ordinary (by decide)
  have single : c :: segment ≠ doubleStar := by simp [doubleStar, star]
  have other : c :: segment ≠ ['*'] := by simp [star]
  cases more with
  | nil =>
    rw [readSegments, if_neg single] at read
    dsimp only at read
    rw [if_neg other, readSegment_ordinary ordinary] at read
    obtain ⟨own, first, read⟩ := Pattern.bind_eq_ok_iff.mp read
    obtain ⟨others, -, rfl⟩ := Pattern.map_eq_ok_iff.mp first
    cases read
    exact ⟨others, rfl⟩
  | cons next more =>
    rw [readSegments, if_neg single] at read
    · dsimp only at read
      rw [if_neg other, readSegment_ordinary ordinary] at read
      obtain ⟨own, first, read⟩ := Pattern.bind_eq_ok_iff.mp read
      obtain ⟨others, -, rfl⟩ := Pattern.map_eq_ok_iff.mp first
      obtain ⟨⟨later, ending⟩, -, read⟩ := Pattern.bind_eq_ok_iff.mp read
      cases read
      exact ⟨others ++ later, rfl⟩
    · simp

theorem readSegments_leading {next : Text}
    (read : readSegments directoryOnly true false (doubleStar :: next :: more) = .ok (atoms, ending)) :
    ∃ others, atoms = .leading :: others := by
  rw [readSegments, if_pos rfl] at read
  · obtain ⟨⟨later, ending⟩, -, read⟩ := Pattern.bind_eq_ok_iff.mp read
    cases read
    exact ⟨later, rfl⟩
  · simp

theorem exists_anchored_of_tied {glob : Text} (tied : Tied glob) : ∃ c segment others,
    c ∉ "./\\*?[".toList ∧ anchoredSegments (Text.fields '/' glob) = (c :: segment) :: others := by
  obtain ⟨c, rest, ordinary, spelled⟩ := tied
  have name : c ≠ '/' := by simp_all
  obtain ⟨segment, more, pieces⟩ : ∃ segment more, Text.fields '/' (c :: rest) =
      (c :: segment) :: more := by
    rw [Text.fields, if_neg name]
    split
    · exact ⟨[], [], rfl⟩
    · exact ⟨_, _, rfl⟩
  obtain ⟨others, anchored⟩ := exists_anchoredSegments (List.cons_ne_nil c segment) more
  refine ⟨c, segment, others, ordinary, ?_⟩
  rcases spelled with rfl | ⟨rfl, slash⟩
  · rw [Text.fields, if_pos rfl, pieces, anchored]
  · have whole := Text.joined_fields '/' (c :: rest)
    have clean : '/' ∉ c :: segment := Text.notMem_of_mem_fields (pieces ▸ List.mem_cons_self)
    rw [pieces] at whole
    rw [pieces, anchoredSegments_of_many (by simp) _ _, anchored]
    · rintro rfl
      obtain rfl : rest = segment := (List.cons.inj whole).2.symm
      exact clean (List.mem_cons_of_mem _ (List.dropLast_subset rest slash))
    · rintro rfl
      obtain rfl : segment ++ ['/'] = rest := by simpa [Text.joined] using whole
      rw [List.dropLast_concat] at slash
      exact clean (List.mem_cons_of_mem _ slash)

theorem exists_anchored_of_loose {glob : Text} (loose : Loose glob) :
    ∃ others, anchoredSegments (Text.fields '/' glob) = doubleStar :: others := by
  obtain ⟨filled, clean⟩ := loose
  obtain ⟨before, last, rfl⟩ := (List.eq_nil_or_concat' glob).resolve_left filled
  rw [List.dropLast_concat] at clean
  by_cases slash : last = '/'
  · rw [slash, Text.fields_append clean]
    by_cases none : before = []
    · exact ⟨[], by rw [none]; rfl⟩
    · exact (exists_anchoredSegments_lone none).2
  · rw [Text.fields_of_notMem (by simp [clean, Ne.symm slash])]
    exact (exists_anchoredSegments_lone filled).1

theorem eq_glob_of_ofAtoms {shape : Shape} (made : Shape.ofAtoms atoms ending = .ok shape) :
    shape = .glob atoms ending := by
  unfold Shape.ofAtoms at made
  split at made <;> cases made
  rfl

/-- The rule of a tied glob begins with a character that no way up begins with. -/
theorem readShape_of_tied {glob : Text} (tied : Tied glob) {shape : Shape}
    (read : readShape glob = .ok shape) :
    ∃ c atoms ending, c ≠ '.' ∧ shape = .glob (.char c :: atoms) ending := by
  obtain ⟨c, segment, others, ordinary, anchored⟩ := exists_anchored_of_tied tied
  have plain : c ≠ '*' ∧ c ≠ '.' := by simp_all
  unfold readShape at read
  dsimp only at read
  rw [anchored, if_neg (by simp), if_neg (by simp [doubleStar, plain.1]),
    if_neg (by simp [doubleStar, plain.1]), if_neg (by simp [doubleStar, plain.1])] at read
  obtain ⟨⟨atoms, ending⟩, way, read⟩ := Pattern.bind_eq_ok_iff.mp read
  obtain ⟨others, rfl⟩ := readSegments_ordinary ordinary way
  exact ⟨c, others, ending, plain.2, eq_glob_of_ofAtoms read⟩

theorem readShape_of_loose {glob : Text} (loose : Loose glob) {shape : Shape}
    (read : readShape glob = .ok shape) : shape.Floats := by
  obtain ⟨others, anchored⟩ := exists_anchored_of_loose loose
  unfold readShape at read
  dsimp only at read
  rw [anchored, if_neg (by simp)] at read
  split at read
  · split at read <;> cases read
    · exact .anySlash true
    · exact .anything
  · split at read
    · cases read
      exact .anything
    · split at read
      · cases read
        exact .anySlash _
      · next lone _ _ =>
        obtain ⟨⟨atoms, ending⟩, way, read⟩ := Pattern.bind_eq_ok_iff.mp read
        obtain rfl := eq_glob_of_ofAtoms read
        cases others with
        | nil => exact absurd rfl lone
        | cons next others =>
          obtain ⟨later, rfl⟩ := readSegments_leading way
          exact .leading later ending

theorem readShape_of_ignores {line : Text} {rule : Rule} (read : readRule line = .ok (some rule))
    (ignores : rule.ignores = true) : readShape (trimmedLine line) = .ok rule.shape := by
  unfold readRule at read
  split at read
  · cases read
  · cases read
  · cases read
  · obtain ⟨shape, -, same⟩ := Pattern.map_eq_ok_iff.mp read
    cases same
    cases ignores
  · obtain ⟨shape, own, same⟩ := Pattern.map_eq_ok_iff.mp read
    cases same
    exact own

theorem mem_readRules_iff {s : Text} {rules : List Rule} (read : readRules s = .ok rules)
    {rule : Rule} : rule ∈ rules ↔
      ∃ line ∈ Text.lines (Text.withLineFeeds s), readRule line = .ok (some rule) := by
  obtain ⟨found, own, rfl⟩ := Pattern.map_eq_ok_iff.mp read
  have same : rule ∈ found.filterMap id ↔ some rule ∈ found := by simp
  rw [same, Filter.mem_of_mapM own]
  apply exists_congr
  intro line
  cases way : readRule line with
  | ok rule => simp
  | error fault => cases fault <;> simp

end Reading

/-- What an atom takes of a path. -/
def Atom.Takes : Atom → Text → Prop
  | .leading, taken => taken = [] ∨ ∃ c directories, '\n' ∉ c :: directories ∧
      taken = c :: directories ++ ['/']
  | .between, taken => taken = [] ∨ ∃ c names, '\n' ∉ c :: names ∧ taken = '/' :: c :: names
  | .slash, taken => taken = ['/']
  | .wholeName, taken => ∃ c name, '/' ∉ c :: name ∧ taken = c :: name
  | .stretch, taken => '/' ∉ taken
  | .anyChar, taken => ∃ c, c ≠ '/' ∧ taken = [c]
  | .oneOf cls, taken => ∃ c, cls.contains c = true ∧ taken = [c]
  | .char d, taken => taken = [d]

/-- What atoms take in turn. -/
inductive Spans : List Atom → Text → Prop where
  | nil : Spans [] []
  | cons {atom : Atom} {atoms : List Atom} {taken more : Text} : atom.Takes taken →
    Spans atoms more → Spans (atom :: atoms) (taken ++ more)

section Taking

variable {d : Char} {s rest : Text}

theorem mem_afterRun_iff : rest ∈ afterRun (· ≠ d) s ↔
    ∃ taken, d ∉ taken ∧ s = taken ++ rest := by
  induction s with
  | nil => simp [afterRun]
  | cons c s ih =>
    simp only [List.cons_eq_append_iff, and_or_left, exists_or]
    by_cases own : c = d
    · simp [afterRun, own]
    · rw [afterRun, if_pos (by simpa using own), List.mem_append, ih, or_comm]
      simp [Ne.symm own]

theorem mem_afterSome_iff : rest ∈ afterSome (· ≠ d) s ↔
    ∃ c taken, d ∉ c :: taken ∧ s = c :: taken ++ rest := by
  cases s with
  | nil => simp [afterSome]
  | cons c s =>
    by_cases own : c = d
    · simp [afterSome, own]
    · rw [afterSome, if_pos (by simpa using own), mem_afterRun_iff]
      simp [Ne.symm own]

theorem mem_afterSlashes_iff : rest ∈ afterSlashes s ↔
    ∃ taken, '\n' ∉ taken ∧ s = taken ++ '/' :: rest := by
  fun_induction afterSlashes s with
  | case1 => simp
  | case2 s ih =>
    rw [List.mem_cons, ih]
    simp only [List.cons_eq_append_iff, and_or_left, exists_or]
    simp
  | case3 s =>
    simp only [List.cons_eq_append_iff, and_or_left, exists_or]
    simp
  | case4 c s other feed ih =>
    rw [ih]
    simp only [List.cons_eq_append_iff, and_or_left, exists_or]
    simp [Ne.symm other, Ne.symm feed]

/-- An atom leaves what comes after something that it takes. -/
theorem Atom.mem_rests_iff {atom : Atom} :
    rest ∈ atom.rests s ↔ ∃ taken, atom.Takes taken ∧ s = taken ++ rest := by
  cases atom with
  | leading =>
    simp only [Takes, or_and_right, exists_or, exists_eq_left, List.nil_append]
    cases s with
    | nil => simp [rests]
    | cons c s =>
      by_cases feed : c = '\n'
      · simp [rests, feed, eq_comm]
      · simp [rests, feed, mem_afterSlashes_iff, or_comm, eq_comm]
  | between =>
    simp only [Takes, or_and_right, exists_or, exists_eq_left, List.nil_append, rests]
    split
    · rw [List.mem_append, mem_afterSome_iff]
      simp [or_comm, eq_comm (a := rest)]
    · next other =>
      have none (c : Char) (names : Text) : s ≠ '/' :: c :: (names ++ rest) := fun same => other _ same
      simp [none, eq_comm]
  | slash =>
    simp only [Takes, exists_eq_left, rests]
    split <;> simp_all [eq_comm]
  | wholeName =>
    rw [rests, mem_afterSome_iff]
    simp [Takes]
  | stretch => exact mem_afterRun_iff
  | anyChar =>
    cases s with
    | nil => simp [Takes, rests]
    | cons c s => by_cases slash : c = '/' <;> simp [Takes, rests, slash, eq_comm]
  | oneOf cls =>
    cases s with
    | nil => simp [Takes, rests]
    | cons c s => by_cases own : cls.contains c = true <;> simp [Takes, rests, own, eq_comm (a := rest)]
  | char d =>
    cases s with
    | nil => simp [Takes, rests]
    | cons c s =>
      by_cases own : c = d
      · simp [Takes, rests, own, eq_comm (a := rest)]
      · simp [Takes, rests, own]

theorem firstWay_isSome_iff {ending : Ending} {atoms : List Atom} :
    (firstWay ending atoms s).isSome = true ↔
      ∃ taken rest, Spans atoms taken ∧ (ending.check rest).isSome = true ∧ s = taken ++ rest := by
  induction atoms generalizing s with
  | nil =>
    rw [firstWay]
    constructor
    · intro reached
      exact ⟨[], s, .nil, reached, rfl⟩
    · intro h
      obtain ⟨_, rest, ⟨⟩, reached, rfl⟩ := h
      exact reached
  | cons atom atoms ih =>
    rw [firstWay, List.findSome?_isSome_iff]
    simp only [ih, Atom.mem_rests_iff]
    constructor
    · intro h
      obtain ⟨_, ⟨taken, takes, rfl⟩, more, rest, spans, reached, rfl⟩ := h
      exact ⟨taken ++ more, rest, .cons takes spans, reached, (List.append_assoc ..).symm⟩
    · intro h
      obtain ⟨_, rest, spans, reached, rfl⟩ := h
      cases spans with
      | @cons _ _ taken more takes spans =>
        exact ⟨more ++ rest, ⟨taken, takes, List.append_assoc ..⟩, more, rest, spans, reached, rfl⟩

end Taking

section Verdict

variable {rules : List Rule} {path : Text}

/-- What is ignored is covered by a rule that ignores. -/
theorem exists_covers_of_isIgnored (h : isIgnored rules path = true) :
    ∃ rule ∈ rules, rule.ignores = true ∧ (rule.shape.covers (withoutLead path)).isSome = true := by
  unfold isIgnored at h
  dsimp only at h
  split at h
  · next rule found =>
    have covers := List.find?_some found
    exact ⟨rule, List.mem_reverse.mp (List.mem_of_find?_eq_some found), h, by simp_all⟩
  · next rule _ found =>
    have covers := List.find?_some found
    exact ⟨rule, List.mem_reverse.mp (List.mem_of_find?_eq_some found), h, by simp_all⟩
  · cases h

/-- Where no rule takes back, what one of them covers is ignored. -/
theorem isIgnored_of_covers (ignoring : ∀ rule ∈ rules, rule.ignores = true) {rule : Rule}
    (member : rule ∈ rules) (covers : (rule.shape.covers (withoutLead path)).isSome = true) :
    isIgnored rules path = true := by
  unfold isIgnored
  dsimp only
  split
  · next found => exact ignoring _ (List.mem_reverse.mp (List.mem_of_find?_eq_some found))
  · next found => exact ignoring _ (List.mem_reverse.mp (List.mem_of_find?_eq_some found))
  · next plain shown =>
    exfalso
    obtain ⟨way, covers⟩ := Option.isSome_iff_exists.mp covers
    have unplain := List.find?_eq_none.mp plain rule (List.mem_reverse.mpr member)
    have unshown := List.find?_eq_none.mp shown rule (List.mem_reverse.mpr member)
    cases way <;> simp_all

/-- Any directories are taken together with what leads up in front of them. -/
theorem Atom.Takes.up {taken : Text} (h : Atom.leading.Takes taken) :
    Atom.leading.Takes ('.' :: '.' :: '/' :: taken) := by
  rcases h with rfl | ⟨c, directories, clean, rfl⟩
  · exact Or.inr ⟨'.', ['.'], by decide, rfl⟩
  · exact Or.inr ⟨'.', '.' :: '/' :: c :: directories, by simp_all, rfl⟩

/-- What floats in front of a path floats in front of it further up too. -/
theorem Shape.Floats.covers_up {shape : Shape} (floats : shape.Floats)
    (covers : (shape.covers path).isSome = true) :
    (shape.covers ('.' :: '.' :: '/' :: path)).isSome = true := by
  cases floats with
  | anything => simp [Shape.covers]
  | anySlash => simp [Shape.covers]
  | leading atoms ending =>
    rw [Shape.covers, firstWay_isSome_iff] at covers ⊢
    obtain ⟨_, rest, spans, reached, rfl⟩ := covers
    cases spans with
    | cons takes spans =>
      refine ⟨_, rest, .cons takes.up spans, reached, ?_⟩
      simp

end Verdict

end Ignore

end Wildpath
