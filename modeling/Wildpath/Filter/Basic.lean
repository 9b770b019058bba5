import Wildpath.FileSystem.Listing
import Wildpath.Pattern.Parser
import Wildpath.Pattern.Render
import Wildpath.Ignore.Verdict

/-!
# Filters

A filter says which entries a search leaves out, together with everything below them. It is asked
at the moment the entry is reached, in the working directory of that moment.
-/

set_option autoImplicit false

namespace Wildpath

abbrev Filter := List Text → Entry → Bool

namespace Filter

/-- Name patterns in two lots: the texts that stand for themselves, and the others. -/
structure Names where
  literal : List Text
  magic : List (List Pattern)

/-- The pieces of a pattern for one name. -/
def readName (pattern : Text) : Except Fault (List Pattern) :=
  match Pattern.parse pattern with
  | .error fault => .error fault
  | .ok [.component pieces] => .ok pieces
  | .ok _ => .error ⟨.notOneName, pattern, 0⟩

def Names.insert (names : Names) (pieces : List Pattern) : Names :=
  let component := Pattern.component pieces
  if component.isLiteral then { names with literal := names.literal ++ [component.render] }
  else { names with magic := names.magic ++ [pieces] }

def Names.ofPatterns (patterns : List Text) : Except Fault Names :=
  (·.foldl Names.insert ⟨[], []⟩) <$> patterns.mapM readName

/-- Name patterns reach hidden names too. -/
def Names.excludes (names : Names) (name : Text) : Bool :=
  names.literal.contains name || names.magic.any (Pattern.accepts · name)

def byName (names : Names) : Filter := fun _ entry => names.excludes entry.name

def union (filters : List Filter) : Filter := fun cwd entry => filters.any (· cwd entry)

/-- The path under which ignore rules of a directory know an entry, with a slash at the end of a
directory. The directory itself has none. -/
def ruledPath? (root : Path) (cwd : List Text) (entry : Entry) : Option Text :=
  let way := entry.path.relativeTo cwd root
  if way.parts = [] then none
  else some (way.text ++ if entry.isDirectory then ['/'] else [])

def byRules (root : Path) (rules : List Ignore.Rule) : Filter := fun cwd entry =>
  (ruledPath? root cwd entry).any (Ignore.isIgnored rules)

end Filter
end Wildpath
