import Wildpath.Path

/-!
# The file system

Files, directories and links by location, the list of the names that lead to them from the top.
Every operation keeps locations apart and names proper, so both are part of the type. The top is a
directory whether it is listed or not.
-/

set_option autoImplicit false

namespace Wildpath

abbrev Location := List Text

/-- What may name an entry of a directory. -/
def isName (s : Text) : Bool :=
  s != [] && s != selfName && s != parentName && !s.contains '/' && !s.contains '\x00'

inductive Content where
  | file (bytes : List UInt8)
  | directory
  | link (target : Text)

/-- What stands at a location. A denied file cannot be opened and a denied directory cannot be
listed. A veiled node does not tell its type when its directory is listed. -/
structure Node where
  content : Content
  denied : Bool
  veiled : Bool

def Node.isDirectory (n : Node) : Bool :=
  match n.content with
  | .directory => true
  | _ => false

def Node.emptyDirectory : Node := ⟨.directory, false, false⟩

structure FileSystem where
  nodes : List (Location × Node)
  distinct : (nodes.map (·.1)).Nodup
  named : ∀ entry ∈ nodes, ∀ name ∈ entry.1, isName name = true

namespace FileSystem

def empty : FileSystem := ⟨[], by simp, by simp⟩

def node? (fs : FileSystem) (loc : Location) : Option Node :=
  match fs.nodes.find? (·.1 == loc) with
  | some (_, node) => some node
  | none => if loc = [] then some .emptyDirectory else none

def isDirectory (fs : FileSystem) (loc : Location) : Bool :=
  match fs.node? loc with
  | some node => node.isDirectory
  | none => false

/-- The name directly below the directory that a location ends in, if it does. -/
def nameBelow? : (directory loc : Location) → Option Text
  | [], [name] => some name
  | a :: directory, b :: loc => if a = b then nameBelow? directory loc else none
  | _, _ => none

/-- The names in a directory with what they name, in the order of the names. -/
def entries (fs : FileSystem) (directory : Location) : List (Text × Node) :=
  (fs.nodes.filterMap fun (loc, node) => (nameBelow? directory loc).map (·, node)).mergeSort
    fun a b => Text.ordered a.1 b.1

def erase (fs : FileSystem) (gone : Location → Bool) : FileSystem where
  nodes := fs.nodes.filter fun entry => !gone entry.1
  distinct := (List.Sublist.map _ List.filter_sublist).nodup fs.distinct
  named entry h := fs.named entry (List.mem_filter.mp h).1

/-- The file system without the location and everything below it. -/
def cut (fs : FileSystem) (loc : Location) : FileSystem := fs.erase loc.isPrefixOf

/-- Puts a node at a location whose names are proper, in place of what stood there. -/
def put (fs : FileSystem) (loc : Location) (node : Node) : FileSystem :=
  if proper : loc.all isName = true then
    let others := fs.erase (· == loc)
    { nodes := (loc, node) :: others.nodes
      distinct := by
        refine List.nodup_cons.mpr ⟨fun h => ?_, others.distinct⟩
        obtain ⟨entry, member, same⟩ := List.mem_map.mp h
        have kept := (List.mem_filter.mp member).2
        simp [same] at kept
      named := by
        intro entry member
        cases member with
        | head => exact List.all_eq_true.mp proper
        | tail _ member => exact others.named entry member }
  else fs

end FileSystem
end Wildpath
