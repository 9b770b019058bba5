import Wildpath.Proofs.Delivery
import Wildpath.Proofs.Order
import Wildpath.Proofs.RuledPath
import Wildpath.Proofs.Success

/-!
# The written paths can be told apart

A command writes its paths one after another, each closed by the separator. No path is written as an
empty text and no two are written alike, so from what is written the paths are read back by cutting it
at the separator. With NUL this always works, because no path that leads anywhere has that character;
with a line feed it works if no path that was found has one.
-/

set_option autoImplicit false

namespace Wildpath

namespace Text

variable {sep : Char} {pieces : List Text}

/-- The pieces, each with the separator behind it. -/
def terminated (sep : Char) (pieces : List Text) : Text := pieces.flatMap (· ++ [sep])

theorem terminated_cons (sep : Char) (piece : Text) (pieces : List Text) :
    terminated sep (piece :: pieces) = piece ++ sep :: terminated sep pieces := by
  simp [terminated]

theorem terminated_eq_nil_iff : terminated sep pieces = [] ↔ pieces = [] := by
  cases pieces <;> simp [terminated]

/-- Cutting at the separator gives the pieces back, and what is behind the last one. -/
theorem fields_terminated (clean : ∀ piece ∈ pieces, sep ∉ piece) :
    fields sep (terminated sep pieces) = pieces ++ [[]] := by
  induction pieces with
  | nil => rfl
  | cons piece pieces ih =>
    obtain ⟨own, others⟩ := List.forall_mem_cons.mp clean
    rw [terminated_cons, fields_append own, ih others, List.cons_append]

theorem joined_concat (filled : pieces ≠ []) : joined [sep] pieces ++ [sep] = terminated sep pieces := by
  induction pieces with
  | nil => exact absurd rfl filled
  | cons piece pieces ih =>
    cases pieces with
    | nil => simp [joined, terminated]
    | cons next more =>
      rw [joined_cons_cons, List.append_assoc, ih (List.cons_ne_nil next more),
        terminated_cons sep piece, List.append_assoc, List.singleton_append]

theorem joined_eq_dropLast (sep : Char) (pieces : List Text) :
    joined [sep] pieces = (terminated sep pieces).dropLast := by
  by_cases none : pieces = []
  · rw [none]
    rfl
  · rw [← joined_concat none, List.dropLast_concat]

/-- Pieces that are not empty leave something to be written. -/
theorem joined_eq_nil_iff (filled : ∀ piece ∈ pieces, piece ≠ []) :
    joined [sep] pieces = [] ↔ pieces = [] := by
  cases pieces with
  | nil => simp [joined]
  | cons piece pieces =>
    obtain ⟨rest, begins⟩ := exists_joined_cons [sep] piece pieces
    simp [begins, filled piece List.mem_cons_self]

theorem mem_of_mem_joined {between : Text} {c : Char} (member : c ∈ joined between pieces) :
    c ∈ between ∨ ∃ piece ∈ pieces, c ∈ piece := by
  induction pieces with
  | nil => cases member
  | cons piece pieces ih =>
    cases pieces with
    | nil => exact Or.inr ⟨piece, List.mem_cons_self, member⟩
    | cons next more =>
      rw [joined_cons_cons, List.mem_append, List.mem_append] at member
      rcases member with (own | sep) | later
      · exact Or.inr ⟨piece, List.mem_cons_self, own⟩
      · exact Or.inl sep
      · rcases ih later with sep | ⟨other, there, inside⟩
        · exact Or.inl sep
        · exact Or.inr ⟨other, List.mem_cons_of_mem piece there, inside⟩

end Text

namespace Path

/-- The path is read back from its text, and the file system may be asked about it. -/
structure Sound (p : Path) : Prop where
  proper : p.Proper
  askable : ∀ part ∈ p.parts, '\x00' ∉ part

theorem text_ne_nil {p : Path} (proper : p.Proper) : p.text ≠ [] := by
  intro empty
  have back : p = ofText [] := by rw [← empty, ofText_text proper]
  rw [back] at empty
  exact absurd empty (by decide)

theorem Sound.askable_text {p : Path} (sound : p.Sound) : '\x00' ∉ p.text := by
  unfold text
  split
  · decide
  · intro member
    rcases List.mem_append.mp member with anchor | inside
    · revert anchor
      cases p.anchor <;> decide
    · rcases Text.mem_of_mem_joined inside with sep | ⟨part, there, own⟩
      · exact absurd sep (by decide)
      · exact sound.askable part there own

theorem Sound.down {p : Path} (sound : p.Sound) {names : List Text}
    (named : ∀ name ∈ names, isName name = true) : (p.down names).Sound where
  proper part member := by
    rcases List.mem_append.mp member with own | added
    · exact sound.proper part own
    · exact proper_of_isName (named part added)
  askable part member := by
    rcases List.mem_append.mp member with own | added
    · exact sound.askable part own
    · have name := named part added
      simp only [isName, Bool.and_eq_true, Bool.not_eq_true'] at name
      simpa using name.2

/-- Sound paths that are written alike are the same. -/
theorem nodup_text {paths : List Path} (sound : ∀ p ∈ paths, p.Sound) (distinct : paths.Nodup) :
    (paths.map text).Nodup := by
  apply distinct.map_on
  intro p member q member' same
  rw [← ofText_text (sound p member).proper, same, ofText_text (sound q member').proper]

end Path

namespace FileSystem

variable {fs : FileSystem}

/-- What is passed on the way to a node is the name of a node, or leads up. -/
theorem isName_of_walk {links : Nat} {start loc : Location} {names : List Text}
    (h : fs.walk links start names = .ok (.occupied loc)) :
    ∀ name ∈ names, name = parentName ∨ isName name = true := by
  have named {start : Location} {name : Text} {node : Node}
      (found : fs.node? (start ++ [name]) = some node) : isName name = true :=
    List.all_eq_true.mp (proper_of_node? found) name (by simp)
  fun_induction walk fs links start names with
  | case1 => simp
  | case2 => cases h
  | case3 links start rest dir ih => exact List.forall_mem_cons.mpr ⟨.inl rfl, ih h⟩
  | case4 => cases h
  | case5 => cases h
  | case6 => cases h
  | case7 start name rest dir notParent target denied veiled found links path ih =>
    exact List.forall_mem_cons.mpr ⟨.inr (named found), (List.forall_mem_append.mp (ih h)).2⟩
  | case8 links start name rest dir notParent node notLink found ih =>
    exact List.forall_mem_cons.mpr ⟨.inr (named found), ih h⟩

/-- A path that leads anywhere is sound, in whatever way it was put together. -/
theorem sound_of_resolve {cwd : List Text} {p : Path} {loc : Location}
    (h : fs.resolve cwd p = .ok loc) : p.Sound := by
  obtain ⟨clean, walked⟩ := resolve_eq_ok_iff.mp h
  have passed : ∀ part ∈ p.parts, part ∈ (p.anchored cwd).parts := by
    intro part member
    unfold Path.anchored
    split
    · exact member
    · exact List.mem_append_right cwd member
  constructor
  · intro part member
    rcases isName_of_walk walked part (passed part member) with rfl | name
    · decide
    · exact Path.proper_of_isName name
  · intro part member
    simpa using List.any_eq_false.mp clean part (passed part member)

end FileSystem

/-- Whatever a search reports has a sound path, however the root and the pattern are spelled. -/
theorem Search.sound_of_mem_entries {l : Lister} {fs : FileSystem} {cwd : List Text}
    {filter : Option Filter} {root : Path} {pattern : Text} {options : Options} {s : Search}
    (opens : start cwd root pattern options = .ok s) {e : Entry}
    (member : e ∈ (s.drain (l.world filter fs cwd)).1.entries) : e.path.Sound := by
  obtain ⟨segments, parsed, rfl⟩ := start_eq_ok_iff.mp opens
  obtain ⟨names, named, spelled, -⟩ := holds_of_mem_entries parsed opens member
  rw [spelled]
  refine Path.Sound.down ?_ named
  -- something was found, so the base leads somewhere
  have found := (Sign.untilFailure_prefix _).subset (mem_entries_iff.mp member).1
  rw [outlook_opened] at found
  cases resolved : fs.resolve cwd (base cwd root segments) with
  | error refusal =>
    simp [Lister.world, Lister.answers, FileSystem.rootEntry, resolved] at found
  | ok loc => exact FileSystem.sound_of_resolve resolved

namespace Command

variable {fs : FileSystem} {cwd argv : List Text} {s : Settings}

/-- What a command writes if it succeeds: the path of each entry, closed by the separator. -/
def Settings.lines (s : Settings) (found : List Entry) : Text :=
  Text.terminated s.separator (found.map (·.path.text))

theorem closed_joined {pieces : List Text} (filled : ∀ piece ∈ pieces, piece ≠ []) :
    closed s (Text.joined [s.separator] pieces) = Text.terminated s.separator pieces := by
  unfold closed
  split
  · next empty =>
    rw [(Text.joined_eq_nil_iff filled).mp empty]
    rfl
  · next more =>
    rw [Text.joined_concat fun none => more (by rw [none]; rfl)]

/-- The entries that a command has found, with what makes their paths fit to be written in a row. -/
structure Found (fs : FileSystem) (cwd : List Text) (s : Settings) (found : List Entry) : Prop where
  drained : ∃ options filter search, s.Opens fs cwd options filter search ∧
    (search.drain (Lister.plain.world filter fs cwd)).1.failure = none ∧
    (search.drain (Lister.plain.world filter fs cwd)).1.entries = found
  sound : ∀ e ∈ found, e.path.Sound
  apart : (found.map (·.path.text)).Nodup

theorem found_of_entries {found : List Entry} (done : entries fs cwd s = .ok found) :
    Found fs cwd s found := by
  obtain ⟨options, filter, search, opens, ended, rfl⟩ := entries_eq_ok_iff.mp done
  have sound : ∀ e ∈ (search.drain (Lister.plain.world filter fs cwd)).1.entries, e.path.Sound :=
    fun e member => Search.sound_of_mem_entries opens.starts member
  refine ⟨⟨options, filter, search, opens, ended, rfl⟩, sound, ?_⟩
  have apart := Path.nodup_text (List.forall_mem_map.mpr sound) (Search.nodup_drain _ _)
  rwa [List.map_map] at apart

/-- If a command succeeds, what it writes is the path of each entry that its search has found, in the
order of the search, closed by the separator. This is what standard output or the file gets; the text
that a search gives to its caller lacks the last separator. The paths are written in different ways and
none as the empty text, so nothing is written only if nothing was found, and unless a path has the
separator in it they are read back by cutting what is written at the separator. No path has NUL in it. -/
theorem result_lossless (read : Settings.read argv = .ok s)
    (succeeded : (result fs cwd argv).code = 0) : ∃ found, Found fs cwd s found ∧
      (s.output.getD [] = [] → result fs cwd argv = ⟨0, s.lines found, [], fs⟩) ∧
      (∀ c name, s.output = some (c :: name) → (result fs cwd argv).stdout = [] ∧
        Utf8.decode (Utf8.encode (s.lines found)) = .ok (s.lines found) ∧
        ∃ loc, fs.Wrote cwd (Path.ofText (c :: name)) (Utf8.encode (s.lines found))
          (result fs cwd argv).fs loc) ∧
      search fs cwd argv = .ok (s.lines found).dropLast ∧
      (s.lines found = [] ↔ found = []) ∧
      (s.nul = true ∨ (∀ e ∈ found, '\n' ∉ e.path.text) →
        Text.fields s.separator (s.lines found) = found.map (·.path.text) ++ [[]]) := by
  obtain ⟨text, listed, -⟩ := Host.listing_of_result read succeeded
  obtain ⟨found, done, rfl⟩ := listing_eq_ok_iff.mp (plain_listing_eq_ok_iff.mp listed)
  have what := found_of_entries done
  have filled : ∀ piece ∈ found.map (·.path.text), piece ≠ [] :=
    List.forall_mem_map.mpr fun e member => Path.text_ne_nil (what.sound e member).proper
  have lines : closed s (Text.joined [s.separator] (found.map (·.path.text))) = s.lines found :=
    closed_joined filled
  refine ⟨found, what, fun printed => ?_, fun c name named => ?_, ?_, ?_, fun clean => ?_⟩
  · rw [← lines]
    exact Host.result_of_listing read printed listed rfl
  · obtain ⟨silent, text, loc, listed', wrote⟩ := Host.wrote_of_result read named succeeded
    cases listed.symm.trans listed'
    rw [lines] at wrote
    exact ⟨silent, Utf8.decode_encode _, loc, wrote⟩
  · rw [Settings.lines, ← Text.joined_eq_dropLast]
    exact search_eq_ok_iff.mpr ⟨s, read, plain_listing_eq_ok_iff.mp listed⟩
  · rw [Settings.lines, Text.terminated_eq_nil_iff, List.map_eq_nil_iff]
  · refine Text.fields_terminated (List.forall_mem_map.mpr fun e member => ?_)
    unfold Settings.separator
    split
    · exact (what.sound e member).askable_text
    · next feed => exact clean.resolve_left feed e member

end Command

/-- A directory with one file, whose name has a line feed in it. -/
def FileSystem.twoLines : FileSystem := empty.put ["a\nb".toList] ⟨.file [], false, false⟩

theorem Command.result_lossless_sample :
    ∃ found, Found .twoLines [] { Settings.initial with pattern := "**".toList, nul := true } found ∧
      (result .twoLines [] ["-0".toList, "**".toList]).stdout = ".\x00a\nb\x00".toList ∧
      Text.fields '\x00' ".\x00a\nb\x00".toList = found.map (·.path.text) ++ [[]] := by
  have read : Settings.read ["-0".toList, "**".toList] =
      .ok { Settings.initial with pattern := "**".toList, nul := true } := by cbv
  have parsed : Pattern.parse "**".toList = .ok [.globstar] :=
    Pattern.parse_eq_ok_iff.mpr (by cbv)
  have opens : Settings.Opens .twoLines []
      { Settings.initial with pattern := "**".toList, nul := true }
      ⟨false, .everything, none, false⟩ none _ :=
    ⟨⟨by cbv, rfl⟩, ⟨none, rfl, rfl⟩, ⟨none, rfl, rfl⟩,
      Search.start_eq_ok_iff.mpr ⟨_, parsed, rfl⟩⟩
  have listed : listing .twoLines []
      { Settings.initial with pattern := "**".toList, nul := true } = .ok ".\x00a\nb".toList := by
    apply listing_eq_ok_iff.mpr
    refine ⟨_, entries_eq_ok_iff.mpr ⟨_, _, _, opens, ?_, rfl⟩, ?_⟩
    · rw [Search.drain_of_idle_after 48 (by cbv)]
      cbv
    · rw [Search.drain_of_idle_after 48 (by cbv)]
      cbv
  have ran : result .twoLines [] ["-0".toList, "**".toList] = ⟨0, ".\x00a\nb\x00".toList, [], _⟩ :=
    Host.result_of_listing read rfl (plain_listing_eq_ok_iff.mpr listed) rfl
  obtain ⟨found, what, printed, -, -, -, back⟩ := result_lossless read (by rw [ran])
  have lines := congrArg Result.stdout ((printed rfl).symm.trans ran)
  have back := back (.inl rfl)
  dsimp only at lines
  rw [lines] at back
  exact ⟨found, what, by rw [ran], back⟩

end Wildpath
