import Wildpath.Filter.Basic
import Wildpath.FileSystem.Lookup
import Wildpath.Text.Utf8

/-!
# Plans for filters

A plan says how a filter is made. Making it reads the patterns and the ignore files at once, so
that the filter needs no file afterwards.
-/

set_option autoImplicit false

namespace Wildpath

namespace Ignore

/-- Why an ignore file that could be read gives no rules. -/
inductive LoadError where
  | undecodable (error : Utf8.Error)
  | invalidLine (line : Text)
  | unreachable (error : FileError)

def LoadError.message : LoadError → Text
  | .undecodable error => error.message
  | .invalidLine line => "Invalid git pattern: ".toList ++ line.quoted
  | .unreachable error => error.message

def fileName : Text := ".gitignore".toList

/-- The rules of the ignore file in a directory. A file that the file system refuses to read gives
none; only a path that cannot be asked for is an error. -/
def load (fs : FileSystem) (cwd : List Text) (root : Path) :
    Except LoadError (Option (List Rule)) :=
  match fs.bytesAt cwd (root.child fileName) with
  | .error error => if error.refusal = .nulInPath then .error (.unreachable error) else .ok none
  | .ok bytes =>
    match Utf8.decode bytes with
    | .error error => .error (.undecodable error)
    | .ok s =>
      match readRules s with
      | .error line => .error (.invalidLine line)
      | .ok rules => .ok (some rules)

end Ignore

namespace Filter

inductive Plan where
  | names (patterns : List Text)
  | ignoreFile (root : Path)
  | union (plans : List Plan)
  deriving Inhabited

inductive PlanError where
  | fault (f : Fault)
  | load (e : Ignore.LoadError)

def PlanError.message : PlanError → Text
  | .fault f => f.message
  | .load e => e.message

mutual

/-- Makes the filter of a plan; there is none for an ignore file that gives no rules. -/
def Plan.make (fs : FileSystem) (cwd : List Text) : Plan → Except PlanError (Option Filter)
  | .names patterns =>
    match Names.ofPatterns patterns with
    | .error f => .error (.fault f)
    | .ok lots => .ok (some (byName lots))
  | .ignoreFile root =>
    match Ignore.load fs cwd root with
    | .error e => .error (.load e)
    | .ok rules => .ok (rules.map (byRules root))
  | .union plans => do
    let filters ← Plan.makeAll fs cwd plans
    return some (Filter.union filters)

def Plan.makeAll (fs : FileSystem) (cwd : List Text) :
    List Plan → Except PlanError (List Filter)
  | [] => .ok []
  | plan :: rest => do
    let filter ← plan.make fs cwd
    return filter.toList ++ (← Plan.makeAll fs cwd rest)

end

end Filter
end Wildpath
