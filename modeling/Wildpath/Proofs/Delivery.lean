import Wildpath.Proofs.Arguments
import Wildpath.Proofs.Steps
import Wildpath.Proofs.Success
import Wildpath.Proofs.Utf8
import Wildpath.Proofs.Writing

/-!
# All or nothing

A command that fails has written nothing, neither to standard output nor to a file, unless the host
broke it off while it was writing. One that succeeds with an output file leaves there, and nowhere
else, the text that the same command without the file prints: the search is over before the file is
touched.
-/

set_option autoImplicit false

namespace Wildpath

namespace Host
open Command

variable {κ : Type} {h : Host κ} {cwd argv : List Text} {s : Settings}

/-- A search does not depend on where its result goes. -/
theorem listing_withoutOutput (s : Settings) :
    h.listing cwd s.withoutOutput = h.listing cwd s := rfl

/-- How a text is left that the host kept from being written to its end. -/
inductive CutOff (h : Host κ) (cwd : List Text) (output : Option Text) (text : Text) :
    Result → Prop where
  | printing {raised : Raised κ} {printed : Text} {r : Result} (unnamed : output.getD [] = [])
      (jammed : h.jams text = some (raised, printed)) (code : r.code = 1)
      (part : r.stdout = printed) (untouched : r.fs = h.fs) : CutOff h cwd output text r
  | writing {c : Char} {name : Text} {b : Break κ} {r : Result} {loc : Location}
      (named : output = some (c :: name)) (broken : h.breaks text = some b) (code : r.code = 1)
      (silent : r.stdout = []) (wrote : h.fs.Wrote cwd (Path.ofText (c :: name)) b.left r.fs loc) :
      CutOff h cwd output text r

theorem CutOff.of_delivered {output : Option Text} {text : Text} {r : Result}
    (delivered : h.Delivered cwd output text r) (failed : r.code ≠ 0) :
    r.stdout = [] ∧ r.fs = h.fs ∨ h.CutOff cwd output text r := by
  cases delivered with
  | printed => exact absurd rfl failed
  | written => exact absurd rfl failed
  | refused => exact .inl ⟨rfl, rfl⟩
  | brokenOff named broken wrote =>
    obtain ⟨loc, wrote⟩ := FileSystem.wrote_of_write wrote
    exact .inr (.writing named broken rfl rfl wrote)

theorem CutOff.of_undelivered {output : Option Text} {text : Text} {crash : Crash κ}
    (undelivered : h.Undelivered cwd output text crash) :
    (crash.result h.fs).stdout = [] ∧ (crash.result h.fs).fs = h.fs ∨
      h.CutOff cwd output text (crash.result h.fs) := by
  cases undelivered with
  | printing unnamed jammed => exact .inr (.printing unnamed jammed rfl rfl rfl)
  | opening => exact .inl ⟨rfl, rfl⟩
  | unaskable => exact .inl ⟨rfl, rfl⟩
  | writing named _ broken _ wrote =>
    obtain ⟨loc, wrote⟩ := FileSystem.wrote_of_write wrote
    exact .inr (.writing named broken rfl rfl wrote)

/-- A failure leaves everything as it was, unless the text was being written already. -/
theorem untouched_or_cutOff (failed : (h.result cwd argv).code ≠ 0) :
    ((h.result cwd argv).stdout = [] ∧ (h.result cwd argv).fs = h.fs) ∨
      ∃ s text, Settings.read argv = .ok s ∧ h.listing cwd s = .ok text ∧
        h.CutOff cwd s.output (closed s text) (h.result cwd argv) := by
  unfold result at failed ⊢
  have course := h.course_run cwd argv
  generalize h.run cwd argv = ran at course failed ⊢
  cases course with
  | @stopped stop read =>
    cases stop with
    | help => exact absurd rfl failed
    | usage e => exact .inl ⟨rfl, rfl⟩
  | @searched s text read found =>
    have left : ∀ r, (r.stdout = [] ∧ r.fs = h.fs ∨ h.CutOff cwd s.output (closed s text) r) →
        (r.stdout = [] ∧ r.fs = h.fs) ∨ ∃ s text, Settings.read argv = .ok s ∧
          h.listing cwd s = .ok text ∧ h.CutOff cwd s.output (closed s text) r :=
      fun r => Or.imp_right fun cut => ⟨s, text, read, found, cut⟩
    rcases h.deliver_cases cwd s.output (closed s text) with ⟨r, same, delivered⟩ |
      ⟨crash, same, undelivered⟩ <;> rw [same] at failed ⊢
    · exact left _ (CutOff.of_delivered delivered failed)
    · exact left _ (CutOff.of_undelivered undelivered)
  | failed => exact .inl ⟨rfl, rfl⟩
  | escaped => exact .inl ⟨rfl, rfl⟩
  | barred => exact .inl ⟨rfl, rfl⟩

theorem listing_of_result (read : Settings.read argv = .ok s)
    (succeeded : (h.result cwd argv).code = 0) : ∃ text, h.listing cwd s = .ok text ∧
      h.Delivered cwd s.output (closed s text) (h.result cwd argv) := by
  unfold result at succeeded ⊢
  have course := h.course_run cwd argv
  generalize h.run cwd argv = ran at course succeeded ⊢
  cases course with
  | stopped read' => cases read.symm.trans read'
  | @searched _ text read' found =>
    cases read.symm.trans read'
    refine ⟨text, found, ?_⟩
    rcases h.deliver_cases cwd s.output (closed s text) with ⟨r, same, delivered⟩ |
      ⟨crash, same, undelivered⟩ <;> rw [same] at succeeded ⊢
    · exact delivered
    · cases undelivered <;> cases succeeded
  | failed => cases succeeded
  | escaped => cases succeeded
  | barred => cases succeeded

/-- What a command that succeeds with an output file has done. -/
theorem wrote_of_result {c : Char} {name : Text} (read : Settings.read argv = .ok s)
    (output : s.output = some (c :: name)) (succeeded : (h.result cwd argv).code = 0) :
    (h.result cwd argv).stdout = [] ∧ ∃ found loc, h.listing cwd s = .ok found ∧
      h.fs.Wrote cwd (Path.ofText (c :: name)) (Utf8.encode (closed s found))
        (h.result cwd argv).fs loc := by
  obtain ⟨text, found, delivered⟩ := listing_of_result read succeeded
  rw [output] at delivered
  generalize h.result cwd argv = r at delivered succeeded
  cases delivered with
  | printed unnamed => cases unnamed
  | written named _ wrote =>
    cases named
    obtain ⟨loc, wrote⟩ := FileSystem.wrote_of_write wrote
    exact ⟨rfl, text, loc, found, wrote⟩
  | refused => cases succeeded
  | brokenOff => cases succeeded

/-- A command without an output file, or with an empty name for it, prints what it found. -/
theorem result_of_listing {found : Text} (read : Settings.read argv = .ok s)
    (unnamed : s.output.getD [] = []) (listed : h.listing cwd s = .ok found)
    (whole : h.jams (closed s found) = none) :
    h.result cwd argv = ⟨0, closed s found, [], h.fs⟩ := by
  simp [result, run, read, listed, deliver_of_unnamed unnamed, print, whole]

/-- A command that is broken off while it writes its file leaves there what the host left. -/
theorem result_of_broken {c : Char} {name text : Text} {b : Break κ} {after : FileSystem}
    (read : Settings.read argv = .ok s) (output : s.output = some (c :: name))
    (listed : h.listing cwd s = .ok text)
    (unlocked : h.locks cwd (Path.ofText (c :: name)) = none)
    (broken : h.breaks (closed s text) = some b) (foreign : b.raised.ofSystem = false)
    (wrote : h.fs.write cwd (Path.ofText (c :: name)) b.left = .ok after) :
    h.result cwd argv = ⟨1, [], b.raised.message ++ ['\n'], after⟩ := by
  have undelivered := deliver_eq_error_iff.mpr (.writing output unlocked broken foreign wrote)
  have ran : h.run cwd argv = .error (.unwritten b.raised after) := by
    rw [run, read]
    simp only [listed, undelivered]
  rw [result, ran]
  rfl

theorem subset_closed (s : Settings) (text : Text) : text ⊆ closed s text := by
  unfold closed
  split
  · next empty =>
    rw [empty]
    exact List.nil_subset []
  · exact List.subset_append_left text _

/-- Where names are bytes, a name that was found and is no text leaves the output file empty. -/
theorem result_posix_of_stray {fs : FileSystem}
    {refuses : List Text → Path → Option SystemError} {byteOf : Char → Option UInt8}
    {c d : Char} {name text : Text} {after : FileSystem} (read : Settings.read argv = .ok s)
    (output : s.output = some (c :: name))
    (listed : (posix fs refuses byteOf).listing cwd s = .ok text) (found : d ∈ text)
    (stray : byteOf d ≠ none)
    (unrefused : refuses cwd (Path.ofText (c :: name)) = none)
    (wrote : fs.write cwd (Path.ofText (c :: name)) [] = .ok after) :
    ∃ message, (posix fs refuses byteOf).result cwd argv = ⟨1, [], message ++ ['\n'], after⟩ := by
  obtain ⟨e, unencoded⟩ : ∃ e, Utf8.stray? byteOf 0 (closed s text) = some e := by
    refine Option.ne_none_iff_exists'.mp fun encoded => ?_
    exact stray (Utf8.stray?_eq_none_iff.mp encoded d (subset_closed s text found))
  have unlocked : (posix fs refuses byteOf).locks cwd (Path.ofText (c :: name)) = none := by
    simp only [posix, unrefused, Option.map_none]
  have broken : (posix fs refuses byteOf).breaks (closed s text) =
      some ⟨⟨.encoding, e.message, false⟩, []⟩ := by
    simp only [posix, unencoded, Option.map_some]
  exact ⟨e.message, result_of_broken read output listed unlocked broken rfl wrote⟩

/-- A failure leaves standard output empty and the file system as it was, unless the host broke off
the writing of what was found: then a part of it was printed, or the file holds what is left. A success
with an output file leaves standard output empty and writes that file only, with the text that any
command line for the same settings without the file prints, and there is such a command line. -/
theorem result_all_or_nothing (h : Host κ) (cwd argv : List Text) :
    ((h.result cwd argv).code ≠ 0 →
      ((h.result cwd argv).stdout = [] ∧ (h.result cwd argv).fs = h.fs) ∨
        ∃ s text, Settings.read argv = .ok s ∧ h.listing cwd s = .ok text ∧
          h.CutOff cwd s.output (closed s text) (h.result cwd argv)) ∧
    ∀ s c name, Settings.read argv = .ok s → s.output = some (c :: name) →
      (h.result cwd argv).code = 0 →
      (h.result cwd argv).stdout = [] ∧ ∃ text loc,
        (∃ argv', Settings.read argv' = .ok s.withoutOutput) ∧
        (∀ argv', Settings.read argv' = .ok s.withoutOutput → h.jams text = none →
          h.result cwd argv' = ⟨0, text, [], h.fs⟩) ∧
        Utf8.decode (Utf8.encode text) = .ok text ∧
        h.fs.Wrote cwd (Path.ofText (c :: name)) (Utf8.encode text) (h.result cwd argv).fs loc := by
  refine ⟨untouched_or_cutOff, fun s c name read output succeeded => ?_⟩
  obtain ⟨silent, found, loc, listed, wrote⟩ := wrote_of_result read output succeeded
  refine ⟨silent, closed s found, loc, exists_read_withoutOutput read, fun argv' same whole => ?_,
    Utf8.decode_encode _, wrote⟩
  exact result_of_listing (s := s.withoutOutput) same rfl
    ((listing_withoutOutput s).trans listed) whole

/-- In a directory are a file and one whose name is the byte 255, which is in no text. -/
def garbled : Host PosixKind :=
  .posix ((FileSystem.empty.put [['o']] ⟨.file [0x6b], false, false⟩).put [['\uf8ff']]
    ⟨.file [], false, false⟩) (fun _ _ => none) fun c => if c = '\uf8ff' then some 0xff else none

/-- A command that fails may have emptied a file. -/
theorem result_garbled :
    garbled.fs.bytesAt [] (Path.ofText ['o']) = .ok [0x6b] ∧
      (garbled.result [] ["**".toList, "-oo".toList]).code = 1 ∧
      (garbled.result [] ["**".toList, "-oo".toList]).fs.bytesAt [] (Path.ofText ['o']) =
        .ok [] := by
  have read : Settings.read ["**".toList, "-oo".toList] =
      .ok { Settings.initial with pattern := "**".toList, output := some ['o'] } := by cbv
  have parsed : Pattern.parse "**".toList = .ok [.globstar] :=
    Pattern.parse_eq_ok_iff.mpr (by cbv)
  have opens : Settings.Opens garbled.fs []
      { Settings.initial with pattern := "**".toList, output := some ['o'] }
      ⟨false, .everything, none, false⟩ none _ :=
    ⟨⟨by cbv, rfl⟩, ⟨none, rfl, rfl⟩, ⟨none, rfl, rfl⟩,
      Search.start_eq_ok_iff.mpr ⟨_, parsed, rfl⟩⟩
  have listed : garbled.listing []
      { Settings.initial with pattern := "**".toList, output := some ['o'] } =
        .ok ['.', '\n', 'o', '\n', '\uf8ff'] := by
    apply listing_eq_ok_iff.mpr
    refine ⟨_, entries_eq_ok_iff.mpr ⟨_, _, _, opens, ⟨rfl, fun _ _ => rfl⟩, ?_, rfl⟩, ?_⟩
    · rw [Search.drain_of_idle_after 24 (by cbv)]
      cbv
    · rw [Search.drain_of_idle_after 24 (by cbv)]
      cbv
  have placed : garbled.fs.place [] (Path.ofText ['o']) = .ok (.occupied [['o']]) := by cbv
  have wrote : garbled.fs.write [] (Path.ofText ['o']) [] =
      .ok (garbled.fs.put [['o']] ⟨.file [], false, false⟩) := by
    rw [FileSystem.write, placed]
    rfl
  have found : '\uf8ff' ∈ ['.', '\n', 'o', '\n', '\uf8ff'] := by simp
  obtain ⟨message, ended⟩ : ∃ message, garbled.result [] ["**".toList, "-oo".toList] =
      ⟨1, [], message ++ ['\n'], _⟩ :=
    result_posix_of_stray read rfl listed found (by simp) rfl wrote
  rw [ended]
  exact ⟨by cbv, rfl, by cbv⟩

end Host

namespace Command

/-- A marker that is attached as the name of the file names none, so the text is printed. -/
theorem result_marker_output (fs : FileSystem) (cwd : List Text) :
    result fs cwd ["*".toList, "--output=--".toList] = result fs cwd ["*".toList] := by
  have same : Settings.read ["*".toList, "--output=--".toList] = Settings.read ["*".toList] := by
    cbv
  rw [result, Host.result, Host.run, same, result, Host.result, Host.run]

end Command
end Wildpath
