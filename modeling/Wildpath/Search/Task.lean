import Wildpath.Search.Options

/-!
# The tasks of a search

A search is a list of tasks; the first one is always next. A visit compares the names that lead
to an entry with the segments of the pattern. Where the names are used up, the entry is found if
the segments may end there, and the rest of the pattern goes on below it: the directory is listed
and each child is visited under its own name. Before a name, `**` first stands aside and then
takes the name.

All that a task asks of the outside world is in `Answers`, so a task may be carried out in a world
that has changed since the task before.
-/

set_option autoImplicit false

namespace Wildpath

/-- What the world answers at one moment. -/
structure Answers where
  rootEntry : Path → Option Entry
  children : Entry → Option Text → Except FileError (List Entry)
  excludes : Entry → Bool

inductive Task where
  /-- Look for the root, to visit it under the names of its own path. -/
  | start (root : Path) (names : List Text) (segments : List Pattern)
  | visit (entry : Entry) (names : List Text) (segments : List Pattern)
  /-- Go on below an entry. -/
  | descend (entry : Entry) (segments : List Pattern)
  /-- Visit the children that no filter excludes. -/
  | offer (children : List Entry) (segments : List Pattern)

/-- What carrying out a task brings, and the tasks that take its place. -/
inductive Step where
  | quiet (tasks : List Task)
  | found (entry : Entry) (tasks : List Task)
  | listed (directory : Entry) (hint : Option Text) (tasks : List Task)
  | failed (directory : Entry) (hint : Option Text) (error : FileError)

def Step.tasks : Step → List Task
  | .quiet tasks => tasks
  | .found _ tasks => tasks
  | .listed _ _ tasks => tasks
  | .failed .. => []

namespace Task

/-- A name against the segments: the tasks are tried in order. -/
def visitName (hidden : Bool) (entry : Entry) (name : Text) (names : List Text)
    (segment : Pattern) (segments : List Pattern) : List Task :=
  match segment with
  | .globstar =>
    .visit entry (name :: names) segments ::
      if hidden || !Text.startsHidden name then [.visit entry names (segment :: segments)] else []
  | .anchor top => if name = top then [.visit entry names segments] else []
  | .component pieces =>
    if Pattern.acceptsName hidden pieces name then [.visit entry names segments] else []
  | _ => []

/-- May the search go below this entry? -/
def mayDescend (options : Options) (entry : Entry) : Bool :=
  entry.isDirectory && options.maxDepth.all (entry.depth < ·)

/-- The rule for hidden names holds below the root, not on the root's own path. -/
def perform (answers : Answers) (options : Options) : Task → Step
  | .start root names segments =>
    match answers.rootEntry root with
    | none => .quiet []
    | some entry => .quiet [.visit entry names segments]
  | .visit entry [] segments =>
    if segments.all Pattern.isGlobstar then .found entry [.descend entry segments]
    else .quiet [.descend entry segments]
  | .visit _ (_ :: _) [] => .quiet []
  | .visit entry (name :: names) (segment :: segments) =>
    .quiet (visitName (options.hidden || entry.depth == 0) entry name names segment segments)
  | .descend _ [] => .quiet []
  | .descend entry (segment :: segments) =>
    if mayDescend options entry then
      match answers.children entry segment.hint? with
      | .ok children => .listed entry segment.hint? [.offer children (segment :: segments)]
      | .error error =>
        if options.strict then .failed entry segment.hint? error
        else .listed entry segment.hint? []
    else .quiet []
  | .offer [] _ => .quiet []
  | .offer (child :: children) segments =>
    if answers.excludes child then .quiet [.offer children segments]
    else .quiet [.visit child [child.name] segments, .offer children segments]

end Task
end Wildpath
