import Wildpath.FileSystem.Manifest
import Wildpath.Search.Cursor

/-!
# Sessions

Several cursors over one file system, which may change between two steps. A cursor sees the file
system and the working directory as they are when it is asked.
-/

set_option autoImplicit false

namespace Wildpath

structure Session where
  fs : FileSystem
  cwd : List Text
  cursors : List (Text × Cursor)

namespace Session

inductive Action where
  | start (id : Text) (request : Cursor.Request)
  | next (id : Text)
  | drain (id : Text)
  | close (id : Text)
  | add (p : Path) (node : Node)
  | remove (written : Text)
  | enter (p : Path)

inductive Answer where
  | opened (id : Text)
  | refused (e : Cursor.OpenError)
  | failed (e : FileError)
  | report (r : Search.Report)
  | rest (r : Search.Rest)
  | done

def cursor? (s : Session) (id : Text) : Option Cursor :=
  (s.cursors.find? (·.1 == id)).map (·.2)

/-- The session with a cursor of that name, in place of an earlier one. -/
def withCursor (s : Session) (id : Text) (c : Cursor) : Session :=
  { s with cursors := (id, c) :: s.cursors.filter (·.1 != id) }

/-- A change of the file system; one that fails leaves it as it is. -/
def changed (s : Session) : Except FileError FileSystem → Answer × Session
  | .ok fs => (.done, { s with fs })
  | .error e => (.failed e, s)

/-- A name without a cursor is that of a search at its end. -/
def act (s : Session) : Action → Answer × Session
  | .start id request =>
    match Cursor.start s.fs s.cwd request with
    | .ok c => (.opened id, s.withCursor id c)
    | .error e => (.refused e, s)
  | .next id =>
    match s.cursor? id with
    | none => (.report ⟨[], .ended⟩, s)
    | some c =>
      let (report, c) := c.next s.fs s.cwd
      (.report report, s.withCursor id c)
  | .drain id =>
    match s.cursor? id with
    | none => (.rest ⟨[], [], none⟩, s)
    | some c =>
      let (rest, c) := c.drain s.fs s.cwd
      (.rest rest, s.withCursor id c)
  | .close id =>
    match s.cursor? id with
    | none => (.done, s)
    | some c => (.done, s.withCursor id c.close)
  | .add p node => s.changed (s.fs.add s.cwd p node)
  | .remove written => s.changed (s.fs.remove s.cwd written)
  | .enter p => (.done, { s with cwd := (p.anchored s.cwd).parts })

/-- The answers to actions in a row. -/
def run (s : Session) : List Action → List Answer
  | [] => []
  | action :: rest =>
    let (answer, s) := s.act action
    answer :: s.run rest

end Session
end Wildpath
