import Wildpath.Text.Quoted

/-!
# Options of the command

The options with their spellings, and how a word of the command line is read: a long option may be
shortened as long as no other begins like it, a value may be attached to its option, and a word
that only looks like an option is unknown.
-/

set_option autoImplicit false

namespace Wildpath.Command

inductive Switch where
  | help
  | hidden
  | directoriesOnly
  | othersOnly
  | ignoreFile
  | strict
  | nul
  deriving DecidableEq

inductive Setting where
  | level
  | exclude
  | preset
  | output
  deriving DecidableEq

inductive Key where
  | switch (s : Switch)
  | setting (s : Setting)
  deriving DecidableEq

/-- The options and their spellings, in the order in which messages list them. -/
def keys : List (Key × List String) :=
  [(.switch .help, ["-h", "--help"]),
    (.switch .hidden, ["-a", "--all"]),
    (.switch .directoriesOnly, ["-d", "--dirs-only"]),
    (.switch .othersOnly, ["-F", "--files-only"]),
    (.setting .level, ["-L", "--level"]),
    (.setting .exclude, ["-I", "--exclude"]),
    (.setting .preset, ["--preset"]),
    (.switch .ignoreFile, ["--gitignore"]),
    (.switch .strict, ["--strict"]),
    (.switch .nul, ["-0", "--null"]),
    (.setting .output, ["-o", "--output"])]

def spellings : List (Text × Key) :=
  keys.flatMap fun (key, words) => words.map fun word => (word.toList, key)

def spelled? (word : Text) : Option Key := (spellings.find? (·.1 = word)).map (·.2)

/-- An option as messages name it. -/
def Key.name (key : Key) : Text :=
  Text.joined ['/'] ((spellings.filter (·.2 = key)).map (·.1))

inductive UsageError where
  | ambiguous (word : Text) (candidates : List Text)
  /-- A value is attached to an option that takes none. -/
  | ignoredValue (key : Key) (value : Text)
  | missingValue (key : Key)
  | notANumber (value : Text)
  | missingPattern
  | unrecognized (words : List Text)

def UsageError.message : UsageError → Text
  | .ambiguous word candidates =>
    "ambiguous option: ".toList ++ word ++ " could match ".toList
      ++ Text.joined ", ".toList candidates
  | .ignoredValue key value =>
    "argument ".toList ++ key.name ++ ": ignored explicit argument ".toList ++ value.quoted
  | .missingValue key => "argument ".toList ++ key.name ++ ": expected one argument".toList
  | .notANumber value =>
    "argument ".toList ++ (Key.setting .level).name ++ ": invalid int value: ".toList
      ++ value.quoted
  | .missingPattern => "the following arguments are required: pattern".toList
  | .unrecognized words => "unrecognized arguments: ".toList ++ Text.joined [' '] words

inductive Word where
  | plain (text : Text)
  /-- The first `--`, after which no word is an option. -/
  | marker
  /-- An option in full, and the text attached to it if there is one. -/
  | key (key : Key) (long : Bool) (attached : Option Text)
  | unknown (text : Text)

/-- The text of a word that may be cut at its first equals sign, and what is attached after it. -/
def cut (word : Text) : Text × Option Text :=
  match word.dropWhile (· ≠ '=') with
  | [] => (word, none)
  | _ :: attached => (word.takeWhile (· ≠ '='), some attached)

/-- The options that a word may be short for, in full, with the text attached. -/
def candidates (word : Text) : List (Text × Word) :=
  match word with
  | '-' :: '-' :: _ =>
    let (front, attached) := cut word
    (spellings.filter (front.isPrefixOf ·.1)).map fun (spelling, key) =>
      (spelling, .key key true attached)
  | '-' :: c :: attached =>
    (spellings.filter (·.1 = ['-', c])).map fun (spelling, key) =>
      (spelling, .key key false (some attached))
  | _ => []

def isLong (spelling : Text) : Bool := ['-', '-'].isPrefixOf spelling

def Word.read (word : Text) : Except UsageError Word :=
  if word.head? ≠ some '-' then .ok (.plain word)
  else match spelled? word with
    | some k => .ok (.key k (isLong word) none)
    | none =>
      if word = ['-'] then .ok (.plain word)
      else match cut word with
        | (front, some attached) =>
          match spelled? front with
          | some k => .ok (.key k (isLong front) (some attached))
          | none => unsettled
        | _ => unsettled
where
  /-- The word is no spelling; it may be short for one. -/
  unsettled : Except UsageError Word :=
    match candidates word with
    | [] => if word.contains ' ' then .ok (.plain word) else .ok (.unknown word)
    | [(_, found)] => .ok found
    | several => .error (.ambiguous word (several.map (·.1)))

def readWords : List Text → Except UsageError (List Word)
  | [] => .ok []
  | ['-', '-'] :: rest => .ok (.marker :: rest.map .plain)
  | word :: rest => do
    let first ← Word.read word
    return first :: (← readWords rest)

end Wildpath.Command
