import Wildpath.FileSystem.Below
import Wildpath.Search.World
import Wildpath.Filter.Basic

/-!
# Listers

A lister stands between a search and the file system. It may refuse directories by their names,
list without regard to the hint, and turn the order round. Whatever it does, it gives no directory
that the file system would not, so a search in a file system always ends.
-/

set_option autoImplicit false

namespace Wildpath

structure Lister where
  refused : List Text
  ignoresHint : Bool
  reverses : Bool

namespace Lister

def plain : Lister := ⟨[], false, false⟩

def children (l : Lister) (fs : FileSystem) (cwd : List Text) (directory : Entry)
    (hint : Option Text) : Except FileError (List Entry) :=
  if l.refused.contains directory.name then .error ⟨.denied, directory.path.text⟩
  else
    match fs.children cwd directory (if l.ignoresHint then none else hint) with
    | .error error => .error error
    | .ok list => .ok (if l.reverses then list.reverse else list)

/-- What a search sees of a file system at one moment. -/
def answers (l : Lister) (filter : Option Filter) (fs : FileSystem) (cwd : List Text) :
    Answers where
  rootEntry := fs.rootEntry cwd
  children := l.children fs cwd
  excludes entry := filter.any fun f => f cwd entry

theorem grounded_answers (l : Lister) (filter : Option Filter) (fs : FileSystem)
    (cwd : List Text) : (l.answers filter fs cwd).Grounded := by
  refine ⟨fun entry => fs.room cwd entry.path, fun directory hint list h child member isDir => ?_⟩
  simp only [answers, children] at h
  split at h
  · cases h
  · split at h
    · cases h
    · next listed =>
      cases h
      refine FileSystem.room_child_lt listed ?_ isDir
      split at member
      · exact List.mem_reverse.mp member
      · exact member

def world (l : Lister) (filter : Option Filter) (fs : FileSystem) (cwd : List Text) : World :=
  ⟨l.answers filter fs cwd, l.grounded_answers filter fs cwd⟩

end Lister
end Wildpath
