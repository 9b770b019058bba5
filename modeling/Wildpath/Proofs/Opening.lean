import Wildpath.Proofs.Trace

/-!
# How a search is opened

A search starts from its base: the absolute form of the root for an anchored pattern, and otherwise
the root moved up as often as the pattern says. An anchored pattern first reads the names of the
base itself. Only the segments after the leading `..` are left to match.
-/

set_option autoImplicit false

namespace Wildpath.Search

def base (cwd : List Text) (root : Path) (segments : List Pattern) : Path :=
  if Pattern.isAnchored segments then root.absolute cwd
  else if ascents segments = 0 then root
  else root.ascend (ascents segments)

def baseNames (cwd : List Text) (root : Path) (segments : List Pattern) : List Text :=
  if Pattern.isAnchored segments then root.splitAbsolute cwd else []

def remaining (segments : List Pattern) : List Pattern :=
  if Pattern.isAnchored segments then segments else segments.drop (ascents segments)

theorem firstTask_eq (cwd : List Text) (root : Path) (segments : List Pattern) :
    firstTask cwd root segments =
      .start (base cwd root segments) (baseNames cwd root segments) (remaining segments) := by
  unfold firstTask base baseNames remaining
  split
  · rfl
  · cases ascents segments <;> simp

theorem start_eq_ok_iff {cwd : List Text} {root : Path} {pattern : Text} {options : Options}
    {s : Search} :
    start cwd root pattern options = .ok s ↔ ∃ segments, Pattern.parse pattern = .ok segments ∧
      s = ⟨options, [.start (base cwd root segments) (baseNames cwd root segments)
        (remaining segments)], []⟩ := by
  unfold start
  cases parsed : Pattern.parse pattern with
  | error fault => simp [bind, Except.bind]
  | ok segments => simp [bind, Except.bind, pure, Except.pure, firstTask_eq, eq_comm]

theorem outlook_opened (world : World) (options : Options) (base : Path) (names : List Text)
    (segments : List Pattern) :
    (⟨options, [.start base names segments], []⟩ : Search).outlook world =
      ⟨options.wanted, [], match world.rootEntry base with
        | none => []
        | some top => Task.trace world options (.visit top names segments)⟩ := by
  simp only [outlook, List.flatMap_cons, List.flatMap_nil, List.append_nil]
  exact congrArg (Outlook.mk options.wanted []) (Task.trace_start base names segments)

theorem drain_opened (world : World) (options : Options) (base : Path) (names : List Text)
    (segments : List Pattern) {signs : List Sign}
    (before : ((⟨options, [.start base names segments], []⟩ : Search).outlook world).signs = signs)
    (calm : Sign.Calm signs) :
    ((⟨options, [.start base names segments], []⟩ : Search).drain world).1 =
      ⟨(fresh [] (signs.filterMap Sign.found?)).filter options.wanted.admits,
        signs.filterMap Sign.listed?, none⟩ := by
  subst before
  rw [drain_eq_rest, Outlook.rest_of_calm calm]
  rfl

theorem mem_of_mem_remaining {segments : List Pattern} {segment : Pattern}
    (h : segment ∈ remaining segments) : segment ∈ segments := by
  unfold remaining at h
  split at h
  · exact h
  · exact List.mem_of_mem_drop h

end Wildpath.Search
