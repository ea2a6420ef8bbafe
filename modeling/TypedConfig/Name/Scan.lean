import TypedConfig.Name.Element

/-!
# Scanning the text of a name

`scan sep cs` cuts the characters `cs` into runs: words between separators, and the contents of
brackets. A bracket opened inside brackets is part of the index, and so is a separator. Each run
carries its byte offset and what its characters make of it; a run without a single character that a
word may have has no kind. Empty runs are left out.

* `Scan.runs`: the runs in order;
* `Scan.unclosed`: the offset of an outermost bracket that is never closed. Its content is read as
  a word.
-/

namespace TypedConfig

/-- A stretch of the text between separators or brackets. -/
structure Run where
  /-- The byte offset of the first character. -/
  start : Nat
  /-- What the characters so far make of the run. -/
  kind : Option Kind
  chars : List Char
  deriving DecidableEq, Repr

/-- What a scan finds in a text. -/
structure Scan where
  runs : List Run
  unclosed : Option Nat
  deriving DecidableEq, Repr

/-- What one more character makes of a word, or of an index outside inner brackets. -/
def Kind.extend (kind : Option Kind) (atStart : Bool) (c : Char) : Option Kind :=
  match kind with
  | some .indexed => some .indexed
  | some .numeric => if c.isDigit then some .numeric else some .indexed
  | some .uniform =>
    if c == '-' then some .dashed
    else if isCanonical atStart c then some .uniform else some .nonUniform
  | some .dashed => if isCanonical atStart c then some .dashed else some .nonUniform
  | some .nonUniform => some .nonUniform
  | none =>
    if isCanonical atStart c then (if atStart then some .uniform else some .nonUniform)
    else if isCanonical atStart c.toLower then some .nonUniform else none

namespace Run

/-- The run that starts at an offset, with the kind that an empty one has. -/
def startingAt (start : Nat) (kind : Option Kind) : Run := ⟨start, kind, []⟩

/-- The run with one more character, which gives it a kind. -/
def push (r : Run) (c : Char) (kind : Option Kind) : Run := { r with kind, chars := r.chars ++ [c] }

/-- The run is the content of brackets. -/
def isIndex (r : Run) : Bool := r.kind.any Kind.isIndex

def text (r : Run) : String := String.ofList r.chars

/-- The element that the run is, if it has a character that counts. -/
def element? (r : Run) : Option Element := r.kind.map fun kind => ⟨kind, r.text⟩

end Run

/-- The scan with a run in front, unless that is empty. -/
def Scan.cons (r : Run) (s : Scan) : Scan :=
  if r.chars.isEmpty then s else { s with runs := r :: s.runs }

/-- Scans the rest of a text at a byte offset, inside `depth` brackets of which the outermost was
opened at `opened`, with `run` under way. -/
def scanFrom (sep : Char) (offset depth : Nat) (opened : Option Nat) (run : Run) :
    List Char → Scan
  | [] =>
    if depth = 0 then Scan.cons run ⟨[], none⟩
    else Scan.cons { run with kind := some .nonUniform } ⟨[], opened⟩
  | c :: cs =>
    let next := offset + c.utf8Size
    if c = '[' then
      if depth = 0 then
        Scan.cons run (scanFrom sep next 1 (some offset) (.startingAt next (some .numeric)) cs)
      else scanFrom sep next (depth + 1) opened (run.push c (some .indexed)) cs
    else if c = ']' then
      match depth with
      | 0 => scanFrom sep next 0 opened (run.push c (some .nonUniform)) cs
      | 1 => Scan.cons run (scanFrom sep next 0 none (.startingAt next none) cs)
      | d + 2 => scanFrom sep next (d + 1) opened (run.push c (some .indexed)) cs
    else if c = sep && !run.isIndex then
      Scan.cons run (scanFrom sep next depth opened (.startingAt next none) cs)
    else
      scanFrom sep next depth opened (run.push c (Kind.extend run.kind run.chars.isEmpty c)) cs

/-- The runs of a text. -/
def scan (sep : Char) (s : String) : Scan :=
  scanFrom sep 0 0 none (.startingAt 0 none) s.toList

namespace Scan

/-- The runs that are elements, in order. -/
def elements (s : Scan) : List Element := s.runs.filterMap Run.element?

/-- The runs without a character that counts. -/
def blankRuns (s : Scan) : List Run := s.runs.filter (·.kind.isNone)

end Scan

end TypedConfig
