import Wildpath.FileSystem.Change
import Wildpath.FileSystem.Listing
import Wildpath.Text.Utf8

/-!
# Hosts

What a command runs on: a file system, and errors that nothing in the file system accounts for. They
are raised when it is asked where a path leads, as below a directory that may not be searched or for
a name that is too long; when a file is opened to be written; and when a text is written, as on a
disk that is full or if a name in the text is no text at all. Standard error takes every message. A
host knows kinds of errors; without any kind it never raises one, and is no more than its file system.
-/

set_option autoImplicit false

namespace Wildpath

structure Raised (κ : Type) where
  kind : κ
  message : Text
  /-- Is it an error of the system? A command tells its user about those when it writes a file. -/
  ofSystem : Bool

/-- Writing a file was broken off after it had been opened. -/
structure Break (κ : Type) where
  raised : Raised κ
  /-- All that is in the file now. -/
  left : List UInt8

structure Host (κ : Type) where
  fs : FileSystem
  /-- What is raised when it is asked where a path leads from a working directory. -/
  bars : List Text → Path → Option (Raised κ)
  /-- What is raised when the file at a path is opened to be written. -/
  locks : List Text → Path → Option (Raised κ)
  /-- What is raised when a text is printed, and as much of it as was printed. -/
  jams : Text → Option (Raised κ × Text)
  /-- What is raised when a text is written to a file that is open. -/
  breaks : Text → Option (Break κ)

namespace Host

/-- A file system alone. -/
def plain (fs : FileSystem) : Host Empty where
  fs := fs
  bars _ _ := none
  locks _ _ := none
  jams _ := none
  breaks _ := none

variable {κ : Type}

/-- A path that leads nowhere leads to no directory; what else goes wrong in following it is raised. -/
def leadsToDirectory (h : Host κ) (cwd : List Text) (p : Path) : Except (Raised κ) Bool :=
  match h.bars cwd p with
  | some raised => .error raised
  | none => .ok (h.fs.leadsToDirectory cwd p)

def rootEntry (h : Host κ) (cwd : List Text) (p : Path) : Except (Raised κ) (Option Entry) :=
  match h.bars cwd p with
  | some raised => .error raised
  | none => .ok (h.fs.rootEntry cwd p)

/-- What a file holds after a text was written to it. -/
def stored (h : Host κ) (text : Text) : List UInt8 :=
  match h.breaks text with
  | none => Utf8.encode text
  | some b => b.left

end Host

/-- An error of the system, such as 13 for a permission that is denied and 36 for a name that is too
long. -/
structure SystemError where
  number : Nat
  wording : String

inductive PosixKind where
  | system (number : Nat)
  | encoding
  deriving DecidableEq

def SystemError.raised (e : SystemError) (p : Path) : Raised PosixKind :=
  ⟨.system e.number, numbered e.number e.wording p.text, true⟩

/-- Names are bytes on this host. Characters stand for the bytes of a name that are no text, and a
text with such a character cannot be written. Nothing of it is printed; a file for it is opened
first, and so emptied. -/
def Host.posix (fs : FileSystem) (refuses : List Text → Path → Option SystemError)
    (byteOf : Char → Option UInt8) : Host PosixKind where
  fs := fs
  bars cwd p := (refuses cwd p).map (·.raised p)
  locks cwd p := (refuses cwd p).map (·.raised p)
  jams text := (Utf8.stray? byteOf 0 text).map fun e => (⟨.encoding, e.message, false⟩, [])
  breaks text := (Utf8.stray? byteOf 0 text).map fun e => ⟨⟨.encoding, e.message, false⟩, []⟩

end Wildpath
