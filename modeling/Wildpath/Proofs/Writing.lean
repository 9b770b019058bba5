import Wildpath.Proofs.Reach
import Wildpath.FileSystem.Change

/-!
# Writing a file

A file that is written stands where its path leads, with the bytes it was given, whether it was there
before or is new; nothing else in the file system changes. The way to it is the same afterwards,
because only directories and links are walked through, and the location held neither.
-/

set_option autoImplicit false

namespace Wildpath.FileSystem

variable {fs : FileSystem} {cwd : List Text} {loc other : Location} {node : Node}

theorem node?_put_self (proper : loc.all isName = true) (node : Node) :
    (fs.put loc node).node? loc = some node := by
  refine node?_of_mem ?_
  rw [put, dif_pos proper]
  exact List.mem_cons_self

theorem find?_erase_of_ne (apart : other ≠ loc) :
    (fs.erase (· == loc)).nodes.find? (·.1 == other) = fs.nodes.find? (·.1 == other) := by
  rw [erase, List.find?_filter]
  congr 1
  funext entry
  by_cases same : entry.1 = other
  · simp [same, apart]
  · simp [same]

theorem node?_put_of_ne (apart : other ≠ loc) : (fs.put loc node).node? other = fs.node? other := by
  unfold put
  split
  · have passed : ((loc, node).1 == other) = false := by simpa using Ne.symm apart
    simp only [node?, List.find?_cons, passed, find?_erase_of_ne apart]
  · rfl

theorem proper_of_node? (found : fs.node? loc = some node) : loc.all isName = true := by
  rcases mem_nodes_or_top found with member | ⟨rfl, -⟩
  · exact List.all_eq_true.mpr (fs.named _ member)
  · rfl

/-- Nothing stands at the location, or a file does. -/
def Open (fs : FileSystem) (loc : Location) : Prop :=
  ∀ node, fs.node? loc = some node → ∃ bytes, node.content = .file bytes

theorem Open.ne_of_isDirectory (free : fs.Open loc) (dir : fs.isDirectory other = true) :
    other ≠ loc := by
  rintro rfl
  cases found : fs.node? other with
  | none => simp [isDirectory, found] at dir
  | some node =>
    obtain ⟨bytes, same⟩ := free node found
    simp [isDirectory, found, Node.isDirectory, same] at dir

theorem isDirectory_put_of_ne (apart : other ≠ loc) :
    (fs.put loc node).isDirectory other = fs.isDirectory other := by
  rw [isDirectory, node?_put_of_ne apart, isDirectory]

/-- A path that leads to the location leads there when a file is put in its place. -/
theorem walk_put {bytes : List UInt8} {denied veiled : Bool} (free : fs.Open loc)
    (proper : loc.all isName = true) {links : Nat} {start : Location} {names : List Text}
    (h : fs.walk links start names = .ok (.occupied loc) ∨
      fs.walk links start names = .ok (.vacant loc)) :
    (fs.put loc ⟨.file bytes, denied, veiled⟩).walk links start names = .ok (.occupied loc) := by
  fun_induction walk fs links start names with
  | case1 links start =>
    simp only [Except.ok.injEq, Place.occupied.injEq, reduceCtorEq, or_false] at h
    rw [walk, h]
  | case2 => simp at h
  | case3 links start rest dir ih =>
    have dir : fs.isDirectory start = true := by simpa using dir
    rw [walk, isDirectory_put_of_ne (free.ne_of_isDirectory dir)]
    simpa [dir] using ih h
  | case4 links start name dir notParent found =>
    have dir : fs.isDirectory start = true := by simpa using dir
    obtain rfl : start ++ [name] = loc := by simpa using h
    rw [walk, isDirectory_put_of_ne (free.ne_of_isDirectory dir), node?_put_self proper]
    simp [dir, notParent, walk]
  | case5 => simp at h
  | case6 => simp at h
  | case7 start name rest dir notParent target denied' veiled' found links path ih =>
    have dir : fs.isDirectory start = true := by simpa using dir
    have apart : start ++ [name] ≠ loc := by
      rintro rfl
      obtain ⟨bytes, same⟩ := free _ found
      cases same
    rw [walk, isDirectory_put_of_ne (free.ne_of_isDirectory dir), node?_put_of_ne apart]
    simpa [dir, notParent, found] using ih h
  | case8 links start name rest dir notParent there notLink found ih =>
    have dir : fs.isDirectory start = true := by simpa using dir
    rw [walk, isDirectory_put_of_ne (free.ne_of_isDirectory dir)]
    by_cases same : start ++ [name] = loc
    · rw [same] at ih h
      simp only [same, node?_put_self proper]
      simpa [dir, notParent] using ih h
    · obtain ⟨content, denied', veiled'⟩ := there
      rw [node?_put_of_ne same, found]
      cases content with
      | link target => exact absurd rfl (notLink target _ _)
      | file bytes' => simpa [dir, notParent] using ih h
      | directory => simpa [dir, notParent] using ih h

/-- Nothing stands where a walk ends at a free name. -/
theorem node?_of_walk_vacant {links : Nat} {start : Location} {names : List Text}
    (h : fs.walk links start names = .ok (.vacant loc)) : fs.node? loc = none := by
  fun_induction walk fs links start names <;> simp_all

theorem place_eq_ok_iff {p : Path} {spot : Place} :
    fs.place cwd p = .ok spot ↔ (p.anchored cwd).parts.any (·.contains '\x00') = false ∧
      fs.walk maxLinks [] (p.anchored cwd).parts = .ok spot := by
  unfold place
  dsimp only
  split
  · next dirty => exact iff_of_false (by simp) fun h => Bool.noConfusion (dirty.symm.trans h.1)
  · next clean => exact (and_iff_right (Bool.eq_false_iff.mpr clean)).symm

/-- Where a file was written, and what that did. -/
structure Wrote (fs : FileSystem) (cwd : List Text) (p : Path) (bytes : List UInt8)
    (after : FileSystem) (loc : Location) : Prop where
  /-- The path led there before, to a file or to a free name. -/
  before : fs.Open loc ∧ (fs.place cwd p = .ok (.occupied loc) ∨ fs.place cwd p = .ok (.vacant loc))
  resolved : after.resolve cwd p = .ok loc
  read : after.bytesAt cwd p = .ok bytes
  others : ∀ other, other ≠ loc → after.node? other = fs.node? other

theorem wrote_put {p : Path} {bytes : List UInt8} {veiled : Bool} (free : fs.Open loc)
    (proper : loc.all isName = true)
    (led : fs.place cwd p = .ok (.occupied loc) ∨ fs.place cwd p = .ok (.vacant loc)) :
    fs.Wrote cwd p bytes (fs.put loc ⟨.file bytes, false, veiled⟩) loc := by
  have resolved : (fs.put loc ⟨.file bytes, false, veiled⟩).resolve cwd p = .ok loc := by
    simp only [place_eq_ok_iff] at led
    rw [← and_or_left] at led
    exact resolve_eq_ok_iff.mpr ⟨led.1, walk_put free proper led.2⟩
  refine ⟨⟨free, led⟩, resolved, ?_, fun other apart => node?_put_of_ne apart⟩
  simp [bytesAt, resolved, node?_put_self proper]

theorem wrote_of_write {p : Path} {bytes : List UInt8} {after : FileSystem}
    (h : fs.write cwd p bytes = .ok after) : ∃ loc, fs.Wrote cwd p bytes after loc := by
  unfold write at h
  split at h
  · cases h
  · next loc placed =>
    have vacant := node?_of_walk_vacant (place_eq_ok_iff.mp placed).2
    split at h
    · next proper =>
      cases h
      exact ⟨loc, wrote_put (fun node found => by simp [vacant] at found) proper (.inr placed)⟩
    · cases h
  · next loc placed =>
    split at h
    · cases h
    · cases h
    · cases h
    · next there denied veiled found =>
      have free : fs.Open loc := fun node same => ⟨there, by simp_all⟩
      cases denied with
      | true => cases h
      | false =>
        cases h
        exact ⟨loc, wrote_put free (proper_of_node? found) (.inl placed)⟩

end Wildpath.FileSystem
