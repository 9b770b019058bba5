import Wildpath.Search.Lister
import Wildpath.Search.Run
import Wildpath.Filter.Plan

/-!
# Cursors

A cursor is a search together with the lister and the filter it was opened with. The options are
checked first, then the filter is made, then the pattern is read; opening lists nothing.
-/

set_option autoImplicit false

namespace Wildpath

structure Cursor where
  search : Search
  lister : Lister
  filter : Option Filter

namespace Cursor

structure Request where
  root : Path
  pattern : Text
  options : Options.Wish
  plan : Option Filter.Plan
  lister : Lister

inductive OpenError where
  | options (conflict : Options.Conflict)
  | filter (e : Filter.PlanError)
  | pattern (fault : Fault)

def OpenError.message : OpenError → Text
  | .options conflict => conflict.message
  | .filter e => e.message
  | .pattern fault => fault.message

def start (fs : FileSystem) (cwd : List Text) (r : Request) : Except OpenError Cursor := do
  let options ← (Options.ofWish r.options).mapError OpenError.options
  let filter ← match r.plan with
    | none => pure none
    | some plan => (plan.make fs cwd).mapError OpenError.filter
  let search ← (Search.start cwd r.root r.pattern options).mapError OpenError.pattern
  return ⟨search, r.lister, filter⟩

def world (c : Cursor) (fs : FileSystem) (cwd : List Text) : World :=
  c.lister.world c.filter fs cwd

def next (c : Cursor) (fs : FileSystem) (cwd : List Text) : Search.Report × Cursor :=
  let (report, search) := c.search.next (c.world fs cwd)
  (report, { c with search })

def drain (c : Cursor) (fs : FileSystem) (cwd : List Text) : Search.Rest × Cursor :=
  let (rest, search) := c.search.drain (c.world fs cwd)
  (rest, { c with search })

/-- A closed cursor gives nothing more. -/
def close (c : Cursor) : Cursor := { c with search := { c.search with pending := [] } }

end Cursor
end Wildpath
