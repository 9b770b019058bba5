import Wildpath.FileSystem.Listing

/-!
# Options of a search
-/

set_option autoImplicit false

namespace Wildpath

/-- Which kind of entry a search reports. It visits every kind. -/
inductive Wanted where
  | everything
  | directories
  | others
  deriving DecidableEq

def Wanted.admits : Wanted → Entry → Bool
  | .everything, _ => true
  | .directories, e => e.isDirectory
  | .others, e => !e.isDirectory

structure Options where
  /-- May wildcards match hidden names below the root? -/
  hidden : Bool
  wanted : Wanted
  /-- The deepest level that is visited. -/
  maxDepth : Option Nat
  /-- Does a directory that cannot be listed end the search with an error? -/
  strict : Bool
  deriving DecidableEq

def Options.standard : Options := ⟨true, .everything, none, false⟩

/-- Options as they are asked for, which may contradict each other. -/
structure Options.Wish where
  hidden : Bool
  directoriesOnly : Bool
  othersOnly : Bool
  maxDepth : Option Int
  strict : Bool

inductive Options.Conflict where
  | bothKinds
  | negativeDepth
  deriving DecidableEq

def Options.Conflict.message : Options.Conflict → Text
  | .bothKinds => "dirs_only and files_only are mutually exclusive".toList
  | .negativeDepth => "max_depth must be non-negative".toList

def Options.ofWish (w : Options.Wish) : Except Options.Conflict Options :=
  if w.directoriesOnly && w.othersOnly then .error .bothKinds
  else
    let wanted : Wanted :=
      if w.directoriesOnly then .directories
      else if w.othersOnly then .others
      else .everything
    match w.maxDepth with
    | none => .ok ⟨w.hidden, wanted, none, w.strict⟩
    | some (.ofNat depth) => .ok ⟨w.hidden, wanted, some depth, w.strict⟩
    | some (.negSucc _) => .error .negativeDepth

end Wildpath
