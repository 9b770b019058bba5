import Wildpath.Command.Key
import Wildpath.Text.Numeral

/-!
# Settings

What a command line asks for. Options are taken in their order, and the pattern and the directory
from the first words that are no option; later words of that kind are too many.
-/

set_option autoImplicit false

namespace Wildpath.Command

/-- A value as it was given. A marker attached as a value is dropped and leaves a blank. -/
inductive Value where
  | text (t : Text)
  | blank
  deriving DecidableEq

inductive Level where
  | unlimited
  | upTo (n : Int)
  | blank
  deriving DecidableEq

structure Settings where
  pattern : Text
  directory : Text
  hidden : Bool
  directoriesOnly : Bool
  othersOnly : Bool
  level : Level
  exclude : List Value
  preset : Option Text
  ignoreFile : Bool
  strict : Bool
  nul : Bool
  output : Option Text

def Settings.initial : Settings :=
  ⟨[], ['.'], false, false, false, .unlimited, [], none, false, false, false, none⟩

inductive Stop where
  | help
  | usage (e : UsageError)

inductive Deed where
  | switch (s : Switch)
  | setting (s : Setting) (value : Value)

def Settings.withSwitch (s : Settings) : Switch → Except Stop Settings
  | .help => .error .help
  | .hidden => .ok { s with hidden := true }
  | .directoriesOnly => .ok { s with directoriesOnly := true }
  | .othersOnly => .ok { s with othersOnly := true }
  | .ignoreFile => .ok { s with ignoreFile := true }
  | .strict => .ok { s with strict := true }
  | .nul => .ok { s with nul := true }

def Value.text? : Value → Option Text
  | .text t => some t
  | .blank => none

def Settings.withValue (s : Settings) (value : Value) : Setting → Except Stop Settings
  | .level =>
    match value with
    | .blank => .ok { s with level := .blank }
    | .text t =>
      match Text.integer? t with
      | some n => .ok { s with level := .upTo n }
      | none => .error (.usage (.notANumber t))
  | .exclude => .ok { s with exclude := s.exclude ++ [value] }
  | .preset => .ok { s with preset := value.text? }
  | .output => .ok { s with output := value.text? }

def Settings.after (s : Settings) : List Deed → Except Stop Settings
  | [] => .ok s
  | .switch switch :: rest => do (← s.withSwitch switch).after rest
  | .setting setting value :: rest => do (← s.withValue value setting).after rest

def Value.ofAttached (t : Text) : Value := if t = ['-', '-'] then .blank else .text t

/-- The options of one word: switches, and at the end of the word possibly a setting, whose value
is attached or still to come. -/
structure Cluster where
  switches : List Switch
  setting : Option (Setting × Option Value)

def Cluster.add (s : Switch) (c : Cluster) : Cluster := { c with switches := s :: c.switches }

def Cluster.single : Key → Cluster
  | .switch s => ⟨[s], none⟩
  | .setting s => ⟨[], some (s, none)⟩

/-- An option with text attached. After a short switch the text is a row of further short
options. -/
def Cluster.read (key : Key) (long : Bool) (attached : Text) : Except UsageError Cluster :=
  match key with
  | .setting s => .ok ⟨[], some (s, some (.ofAttached attached))⟩
  | .switch s =>
    match attached with
    | [] => .error (.ignoredValue key attached)
    | c :: rest =>
      if long then .error (.ignoredValue key attached)
      else match spelled? ['-', c] with
        | none => .error (.ignoredValue key attached)
        | some next =>
          if rest = [] then .ok ((Cluster.single next).add s)
          else (Cluster.read next false rest).map (Cluster.add s)

/-- What the words of a command line were read into so far. -/
structure Progress where
  settings : Settings
  /-- Have the pattern and the directory been taken? -/
  taken : Bool
  surplus : List Text

/-- The pattern, the directory if there is one, and the words that follow. A marker among them is
dropped. After the marker, a second `--` does not count as a directory. -/
def takePlain : List Word → Option (Text × Option Text × List Word)
  | .marker :: .plain pattern :: .plain directory :: rest =>
    some (pattern, if directory = ['-', '-'] then none else some directory, rest)
  | .marker :: .plain pattern :: rest => some (pattern, none, rest)
  | .plain pattern :: .marker :: .plain directory :: rest =>
    some (pattern, if directory = ['-', '-'] then none else some directory, rest)
  | .plain pattern :: .marker :: rest => some (pattern, none, rest)
  | .plain pattern :: .plain directory :: .marker :: rest => some (pattern, some directory, rest)
  | .plain pattern :: .plain directory :: rest => some (pattern, some directory, rest)
  | .plain pattern :: rest => some (pattern, none, rest)
  | _ => none

def Progress.withPlain (p : Progress) (pattern : Text) (directory : Option Text) : Progress :=
  { p with
    taken := true
    settings := { p.settings with pattern, directory := directory.getD p.settings.directory } }

def Progress.withSurplus (p : Progress) (word : Text) : Progress :=
  { p with surplus := p.surplus ++ [word] }

theorem length_of_takePlain {words rest : List Word} {pattern : Text} {directory : Option Text}
    (h : takePlain words = some (pattern, directory, rest)) : rest.length < words.length := by
  unfold takePlain at h
  split at h <;> simp at h <;> obtain ⟨_, _, rfl⟩ := h <;> simp <;> omega

/-- What the options of a word do, and the words left after them: a setting at the end without a
value takes the next word, which must not be an option or the marker. -/
def Cluster.deeds (c : Cluster) (rest : List Word) : Except UsageError (List Deed × List Word) :=
  let switches := c.switches.map Deed.switch
  match c.setting, rest with
  | none, rest => .ok (switches, rest)
  | some (setting, some value), rest => .ok (switches ++ [.setting setting value], rest)
  | some (setting, none), .plain value :: rest =>
    .ok (switches ++ [.setting setting (.text value)], rest)
  | some (setting, none), _ => .error (.missingValue (.setting setting))

theorem length_of_deeds {c : Cluster} {rest after : List Word} {deeds : List Deed}
    (h : c.deeds rest = .ok (deeds, after)) : after.length ≤ rest.length := by
  unfold Cluster.deeds at h
  split at h <;> cases h <;> simp

def takeKey (key : Key) (long : Bool) (attached : Option Text) (rest : List Word) :
    Except UsageError (List Deed × List Word) :=
  match attached with
  | none => (Cluster.single key).deeds rest
  | some t =>
    match Cluster.read key long t with
    | .error e => .error e
    | .ok c => c.deeds rest

theorem length_of_takeKey {key : Key} {long : Bool} {attached : Option Text}
    {rest after : List Word} {deeds : List Deed}
    (h : takeKey key long attached rest = .ok (deeds, after)) : after.length ≤ rest.length := by
  unfold takeKey at h
  split at h
  · exact length_of_deeds h
  · split at h
    · cases h
    · exact length_of_deeds h

/-- A word that was not taken, as it was written. -/
def Word.written : Word → Text
  | .plain t => t
  | .unknown t => t
  | _ => ['-', '-']

def Progress.readAll (p : Progress) (words : List Word) : Except Stop Progress :=
  match words with
  | [] => .ok p
  | .key key long attached :: rest =>
    match h : takeKey key long attached rest with
    | .error e => .error (.usage e)
    | .ok (deeds, after) =>
      have := length_of_takeKey h
      match p.settings.after deeds with
      | .error stop => .error stop
      | .ok settings => Progress.readAll { p with settings } after
  | .unknown word :: rest => (p.withSurplus word).readAll rest
  | word :: rest =>
    match h : takePlain (word :: rest) with
    | some (pattern, directory, after) =>
      have := length_of_takePlain h
      if p.taken then (p.withSurplus word.written).readAll rest
      else (p.withPlain pattern directory).readAll after
    | none => (p.withSurplus word.written).readAll rest
termination_by words.length
decreasing_by all_goals grind

def Settings.read (argv : List Text) : Except Stop Settings := do
  let words ← (readWords argv).mapError Stop.usage
  let p ← Progress.readAll ⟨.initial, false, []⟩ words
  if !p.taken then .error (.usage .missingPattern)
  else if p.surplus ≠ [] then .error (.usage (.unrecognized p.surplus))
  else .ok p.settings

end Wildpath.Command
