import Wildpath.Command.Settings
import Wildpath.Host
import Wildpath.Search.Cursor
import Wildpath.Preset

/-!
# Running the command

The command searches a directory and writes the paths that match, each closed by a line feed or
NUL, to standard output or to a file. Nothing is written before the search is over, so a command
that fails writes no path at all.
-/

set_option autoImplicit false

namespace Wildpath.Command

def programName : Text := "tglob".toList

def block (lines : List String) : Text := lines.flatMap fun line => line.toList ++ ['\n']

def usageText : Text :=
  block ["usage: tglob [-h] [-a] [-d] [-F] [-L MAX_DEPTH] [-I PATTERNS]",
    "             [--preset PRESET] [--gitignore] [--strict] [-0] [-o OUTPUT_FILE]",
    "             pattern [directory]"]

def helpText : Text :=
  block ["",
    "list files and directories matching a glob pattern",
    "",
    "positional arguments:",
    "  pattern               Glob pattern (*, ?, **, [a-z], \x7ba,b\x7d); a leading /",
    "                        anchors it",
    "  directory             Directory to search from (default: current directory)",
    "",
    "options:",
    "  -h, --help            show this help message and exit",
    "  -a, --all             Let wildcards match hidden names (starting with .)",
    "  -d, --dirs-only       List directories only",
    "  -F, --files-only      List non-directories only",
    "  -L MAX_DEPTH, --level MAX_DEPTH",
    "                        Max depth below the directory to descend",
    "  -I PATTERNS, --exclude PATTERNS",
    "                        Prune entries whose name matches pattern (can be",
    "                        specified multiple times)",
    "  --preset PRESET       Apply prune preset (python, node, rust, generic)",
    "  --gitignore           Prune entries ignored by the directory's .gitignore",
    "  --strict              Fail on unreadable directories instead of skipping",
    "                        them",
    "  -0, --null            Terminate each path with NUL instead of newline",
    "  -o OUTPUT_FILE, --output OUTPUT_FILE",
    "                        Write output to a file instead of stdout"]

/-- What the command tells its user is wrong. -/
inductive Failure where
  | notDirectory (written : Text)
  | bothKinds
  | levelTooSmall
  | preset (e : Preset.Unknown)
  | pattern (f : Fault)
  | listing (e : ListingError)

def Failure.message : Failure → Text
  | .notDirectory written => ['\''] ++ written ++ "' is not a directory".toList
  | .bothKinds => "--files-only (-F) is incompatible with --dirs-only (-d)".toList
  | .levelTooSmall => "Invalid level, must be greater than 0.".toList
  | .preset e => e.message
  | .pattern f => f.message
  | .listing e => e.message

/-- What ends the command without a word to its user. -/
inductive Escape where
  | ignoreFile (e : Ignore.LoadError)
  | blankLevel
  | blankExclude
  | unreachableOutput (e : FileError)

def Escape.message : Escape → Text
  | .ignoreFile e => e.message
  | .blankLevel => "'<' not supported between instances of 'list' and 'int'".toList
  | .blankExclude => "unhashable type: 'list'".toList
  | .unreachableOutput e => e.message

inductive Trouble where
  | stop (s : Stop)
  | failure (f : Failure)
  | escape (e : Escape)

def depthLimit (level : Level) : Except Trouble (Option Int) :=
  match level with
  | .unlimited => .ok none
  | .blank => .error (.escape .blankLevel)
  | .upTo n => if n < 1 then .error (.failure .levelTooSmall) else .ok (some n)

def presetPatterns (preset : Option Text) : Except Trouble (List Text) :=
  match preset with
  | none => .ok []
  | some name =>
    if name = [] then .ok []
    else (Preset.patterns name).mapError (.failure ∘ .preset)

/-- The texts of the values. The patterns before a blank are read first, so that a fault among
them is told. -/
def excludePatterns : List Value → List Text → Except Trouble (List Text)
  | [], before => .ok before
  | .text t :: rest, before => excludePatterns rest (before ++ [t])
  | .blank :: _, before =>
    match Filter.Names.ofPatterns before with
    | .error f => .error (.failure (.pattern f))
    | .ok _ => .error (.escape .blankExclude)

def prunePlan (s : Settings) (root : Path) : Except Trouble (Option Filter.Plan) := do
  let preset ← presetPatterns s.preset
  let exclude ← excludePatterns s.exclude []
  let names := exclude ++ preset
  let plans := (if names = [] then [] else [Filter.Plan.names names])
    ++ (if s.ignoreFile then [.ignoreFile root] else [])
  return if plans.isEmpty then none else some (.union plans)

def openTrouble : Cursor.OpenError → Trouble
  | .options .bothKinds => .failure .bothKinds
  | .options .negativeDepth => .failure .levelTooSmall
  | .filter (.fault f) => .failure (.pattern f)
  | .filter (.load e) => .escape (.ignoreFile e)
  | .pattern f => .failure (.pattern f)

/-- The search that the settings ask for. -/
def Settings.asked (s : Settings) : Except Trouble Cursor.Request := do
  let root := Path.ofText s.directory
  let depth ← depthLimit s.level
  let plan ← prunePlan s root
  return ⟨root, s.pattern, ⟨s.hidden, s.directoriesOnly, s.othersOnly, depth, s.strict⟩, plan,
    .plain⟩

/-- The entries that a search gave, unless it failed. -/
def gathered (rest : Search.Rest) : Except Trouble (List Entry) :=
  match rest.failure with
  | none => .ok rest.entries
  | some e => .error (.failure (.listing e))

def Settings.separator (s : Settings) : Char := if s.nul then '\x00' else '\n'

/-- The last path is closed like the others. -/
def closed (s : Settings) (text : Text) : Text := if text = [] then [] else text ++ [s.separator]

structure Result where
  code : Nat
  stdout : Text
  stderr : Text
  fs : FileSystem

def Stop.result (fs : FileSystem) : Stop → Result
  | .help => ⟨0, usageText ++ helpText, [], fs⟩
  | .usage e =>
    ⟨2, [], usageText ++ programName ++ ": error: ".toList ++ e.message ++ ['\n'], fs⟩

def complain (fs : FileSystem) (message : Text) : Result :=
  ⟨1, [], programName ++ ": ".toList ++ message ++ ['\n'], fs⟩

def unwritable (name reason : Text) : Text :=
  "cannot write to '".toList ++ name ++ "': ".toList ++ reason

/-- What ends a search on a host: a trouble of the command, or an error that the host raises. -/
inductive Halt (κ : Type) where
  | trouble (t : Trouble)
  | raised (r : Raised κ)

/-- What ends a command on a host without a word to its user. -/
inductive Crash (κ : Type) where
  | escape (e : Escape)
  /-- It was asked where a path leads. -/
  | barred (r : Raised κ)
  | unprinted (r : Raised κ) (printed : Text)
  | unwritten (r : Raised κ) (fs : FileSystem)

/-- How a command that ends without a word to its user leaves things. -/
def Crash.result {κ : Type} (fs : FileSystem) : Crash κ → Result
  | .escape e => ⟨1, [], e.message ++ ['\n'], fs⟩
  | .barred r => ⟨1, [], r.message ++ ['\n'], fs⟩
  | .unprinted r printed => ⟨1, printed, r.message ++ ['\n'], fs⟩
  | .unwritten r fs => ⟨1, [], r.message ++ ['\n'], fs⟩

end Command

namespace Host
open Command

variable {κ : Type}

def request (h : Host κ) (cwd : List Text) (s : Settings) :
    Except (Halt κ) Cursor.Request := do
  let there ← (h.leadsToDirectory cwd (Path.ofText s.directory)).mapError Halt.raised
  if !there then throw (.trouble (.failure (.notDirectory s.directory)))
  if s.directoriesOnly && s.othersOnly then throw (.trouble (.failure .bothKinds))
  s.asked.mapError Halt.trouble

/-- A search begins by asking for its root. -/
def begin (h : Host κ) (cwd : List Text) (search : Search) : Except (Raised κ) Unit :=
  match search.awaited? with
  | none => .ok ()
  | some root => (h.rootEntry cwd root).map fun _ => ()

def entries (h : Host κ) (cwd : List Text) (s : Settings) : Except (Halt κ) (List Entry) := do
  let r ← h.request cwd s
  let cursor ← (Cursor.start h.fs cwd r).mapError (Halt.trouble ∘ openTrouble)
  (h.begin cwd cursor.search).mapError Halt.raised
  (gathered (cursor.drain h.fs cwd).1).mapError Halt.trouble

def listing (h : Host κ) (cwd : List Text) (s : Settings) : Except (Halt κ) Text := do
  let found ← h.entries cwd s
  return Text.joined [s.separator] (found.map (·.path.text))

/-- The same for a whole command line. -/
def search (h : Host κ) (cwd : List Text) (argv : List Text) : Except (Halt κ) Text := do
  let s ← (Settings.read argv).mapError (Halt.trouble ∘ Trouble.stop)
  h.listing cwd s

def print (h : Host κ) (text : Text) : Except (Crash κ) Result :=
  match h.jams text with
  | none => .ok ⟨0, text, [], h.fs⟩
  | some (raised, printed) => .error (.unprinted raised printed)

/-- The file could not be written; it is told if the system says so. -/
def giveUp (name : Text) (raised : Raised κ) (fs : FileSystem) : Except (Crash κ) Result :=
  if raised.ofSystem then .ok (complain fs (unwritable name raised.message))
  else .error (.unwritten raised fs)

/-- The file is opened, and emptied, before the text is written to it. -/
def save (h : Host κ) (cwd : List Text) (name text : Text) : Except (Crash κ) Result :=
  match h.locks cwd (Path.ofText name) with
  | some raised => giveUp name raised h.fs
  | none =>
    match h.fs.write cwd (Path.ofText name) (h.stored text) with
    | .error e =>
      if e.refusal = .nulInPath then .error (.escape (.unreachableOutput e))
      else .ok (complain h.fs (unwritable name e.message))
    | .ok after =>
      match h.breaks text with
      | none => .ok ⟨0, [], [], after⟩
      | some b => giveUp name b.raised after

/-- Writes a text to standard output or to the file that is named; an empty name is none. -/
def deliver (h : Host κ) (cwd : List Text) (output : Option Text) (text : Text) :
    Except (Crash κ) Result :=
  match output with
  | none => h.print text
  | some [] => h.print text
  | some name => h.save cwd name text

def run (h : Host κ) (cwd : List Text) (argv : List Text) : Except (Crash κ) Result :=
  match Settings.read argv with
  | .error stop => .ok (stop.result h.fs)
  | .ok s =>
    match h.listing cwd s with
    | .ok text => h.deliver cwd s.output (closed s text)
    | .error (.trouble (.stop stop)) => .ok (stop.result h.fs)
    | .error (.trouble (.failure f)) => .ok (complain h.fs f.message)
    | .error (.trouble (.escape e)) => .error (.escape e)
    | .error (.raised r) => .error (.barred r)

def result (h : Host κ) (cwd : List Text) (argv : List Text) : Result :=
  match h.run cwd argv with
  | .ok r => r
  | .error c => c.result h.fs

end Host

/-! On a file system alone nothing is raised but by the command itself. -/

namespace Command

def Halt.toTrouble : Halt Empty → Trouble
  | .trouble t => t

def Crash.toEscape : Crash Empty → Escape
  | .escape e => e

def entries (fs : FileSystem) (cwd : List Text) (s : Settings) : Except Trouble (List Entry) :=
  ((Host.plain fs).entries cwd s).mapError Halt.toTrouble

def listing (fs : FileSystem) (cwd : List Text) (s : Settings) : Except Trouble Text :=
  ((Host.plain fs).listing cwd s).mapError Halt.toTrouble

def search (fs : FileSystem) (cwd : List Text) (argv : List Text) : Except Trouble Text :=
  ((Host.plain fs).search cwd argv).mapError Halt.toTrouble

def run (fs : FileSystem) (cwd : List Text) (argv : List Text) : Except Escape Result :=
  ((Host.plain fs).run cwd argv).mapError Crash.toEscape

def result (fs : FileSystem) (cwd : List Text) (argv : List Text) : Result :=
  (Host.plain fs).result cwd argv

end Command
end Wildpath
