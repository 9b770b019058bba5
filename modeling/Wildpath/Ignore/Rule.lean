import Wildpath.Text.Blank
import Wildpath.Pattern.Bracket

/-!
# Ignore rules

A line of an ignore file is a rule, a comment or blank. A rule either ignores or takes back, and
its glob is cut at slashes. A glob without a slash inside it holds at any depth, one with a slash
holds from the directory of the file on; a slash at the end asks for a directory. What a rule
covers it covers together with everything below it.
-/

set_option autoImplicit false

namespace Wildpath.Ignore

/-- What stands between the start and the ending of a rule's glob. -/
inductive Atom where
  /-- Any number of directories at the start, the last one closed by a slash. -/
  | leading
  /-- Any number of names in between, the first one opened by a slash. -/
  | between
  | slash
  /-- A whole name. -/
  | wholeName
  /-- Any part of a name, also none. -/
  | stretch
  /-- Any character of a name. -/
  | anyChar
  | oneOf (cls : CharClass)
  | char (c : Char)

inductive Ending where
  /-- A slash, which shows that the rule covers a directory. -/
  | directory
  /-- A slash, which shows nothing. -/
  | below
  /-- A slash, which shows that the rule covers a directory, or the end of the path. -/
  | whole

inductive Shape where
  /-- Any path but one of line feeds alone. -/
  | anything
  /-- A path with a slash anywhere; `directory` says whether it shows a directory. -/
  | anySlash (directory : Bool)
  | glob (atoms : List Atom) (ending : Ending)

structure Rule where
  ignores : Bool
  shape : Shape

/-- A range may not go backwards. -/
def Atom.isSound : Atom → Bool
  | .oneOf cls => cls.ranges.all fun r => r.1 ≤ r.2
  | _ => true

inductive LineFault where
  /-- The line is an error: nothing is left of the glob, a backslash escapes nothing, or a range in
  brackets goes backwards. -/
  | invalid
  /-- The line is passed over: a bracket is not closed. -/
  | unclosed
  deriving DecidableEq

def Shape.ofAtoms (atoms : List Atom) (ending : Ending) : Except LineFault Shape :=
  if atoms.all Atom.isSound then .ok (.glob atoms ending) else .error .invalid

/-- The atoms of one segment. -/
def readSegment (s : Text) : Except LineFault (List Atom) :=
  match s with
  | [] => .ok []
  | ['\\'] => .error .invalid
  | '\\' :: c :: rest => (.char c :: ·) <$> readSegment rest
  | '*' :: rest => (.stretch :: ·) <$> readSegment rest
  | '?' :: rest => (.anyChar :: ·) <$> readSegment rest
  | '[' :: inner =>
    match h : (Bracket.split (Bracket.inversion inner).2).2 with
    | none => .error .unclosed
    | some rest =>
      have := Bracket.length_of_split h
      have := Bracket.length_of_inversion inner
      let body := (Bracket.split (Bracket.inversion inner).2).1
      (.oneOf ⟨Bracket.ranges body, (Bracket.inversion inner).1⟩ :: ·) <$> readSegment rest
  | c :: rest => (.char c :: ·) <$> readSegment rest
termination_by s.length
decreasing_by all_goals simp_wf; all_goals omega

def doubleStar : Text := ['*', '*']

/-- Reads the segments after the special forms. `first` holds for the first segment, `due` where a
slash has to come before the next name. -/
def readSegments (directoryOnly : Bool) (first due : Bool) :
    List Text → Except LineFault (List Atom × Ending)
  | [] => .ok ([], .whole)
  | [segment] =>
    if segment = doubleStar then .ok ([], if directoryOnly then .directory else .below)
    else do
      let atoms ← if segment = ['*'] then pure [Atom.wholeName] else readSegment segment
      return ((if due then [.slash] else []) ++ atoms, .whole)
  | segment :: more =>
    if segment = doubleStar then do
      let (atoms, ending) ← readSegments directoryOnly false (!first) more
      return ((if first then .leading else .between) :: atoms, ending)
    else do
      let here ← if segment = ['*'] then pure [Atom.wholeName] else readSegment segment
      let (atoms, ending) ← readSegments directoryOnly false true more
      return ((if due then [.slash] else []) ++ here ++ atoms, ending)

/-- Neighbouring double stars are one. -/
def collapse : List Text → List Text
  | a :: b :: rest =>
    if a = doubleStar ∧ b = doubleStar then collapse (b :: rest) else a :: collapse (b :: rest)
  | segments => segments

/-- The segments with their anchoring written out: a slash at the start is dropped, a lone name
gets a double star before it, and a slash at the end becomes a double star. -/
def anchoredSegments (segments : List Text) : List Text :=
  let rooted :=
    match segments with
    | [] :: rest => rest
    | [name] => if name = doubleStar then [name] else [doubleStar, name]
    | [name, []] => if name = doubleStar then [name, []] else [doubleStar, name, []]
    | segments => segments
  collapse (match rooted.getLast? with
    | some [] => rooted.dropLast ++ [doubleStar]
    | _ => rooted)

def readShape (glob : Text) : Except LineFault Shape :=
  let segments := Text.fields '/' glob
  let directoryOnly := segments.getLast? == some []
  let anchored := anchoredSegments segments
  if anchored = [] then .error .invalid
  else if anchored = [doubleStar] then
    .ok (if directoryOnly then .anySlash true else .anything)
  else if anchored = [doubleStar, ['*']] then .ok .anything
  else if anchored = [doubleStar, ['*'], doubleStar] then .ok (.anySlash directoryOnly)
  else do
    let (atoms, ending) ← readSegments directoryOnly true false anchored
    Shape.ofAtoms atoms ending

/-- A line without the blanks at its end, unless the last of them is escaped. -/
def trimmedLine (line : Text) : Text :=
  if ['\\', ' '].isSuffixOf line then line else Text.trimmedRight line

/-- The rule of a line, or none if it is blank or a comment. -/
def readRule (line : Text) : Except LineFault (Option Rule) :=
  match trimmedLine line with
  | [] => .ok none
  | '#' :: _ => .ok none
  | ['/'] => .ok none
  | '!' :: glob => (fun shape => some ⟨false, shape⟩) <$> readShape glob
  | glob => (fun shape => some ⟨true, shape⟩) <$> readShape glob

def readRules (s : Text) : Except Text (List Rule) :=
  let read (line : Text) : Except Text (Option Rule) :=
    match readRule line with
    | .ok rule => .ok rule
    | .error .unclosed => .ok none
    | .error .invalid => .error line
  (·.filterMap id) <$> ((Text.lines (Text.withLineFeeds s)).mapM read)

end Wildpath.Ignore
