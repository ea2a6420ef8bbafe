import TypedConfig.Name.Basic
import TypedConfig.Name.Scan
import TypedConfig.Text.Quoted

/-!
# Reading names

* `Name.parse`: the strict reading. Words must be canonical: small letters, digits and dashes, a
  letter or digit first. Whatever is not gives an `InvalidName`, which says which characters are
  wrong and where.
* `Name.adapt`: the lenient reading. Any text is a name; runs without a letter or digit vanish.
* `Name.adaptWith`: the lenient reading with every raw element respelled first. The new spelling
  must be one element, whose kind it decides.
-/

namespace TypedConfig

/-- A text that is not a name, with the characters that are wrong. -/
structure InvalidName where
  name : String
  chars : List Char
  /-- The byte offset of the first of them. -/
  position : Nat
  deriving DecidableEq, Repr

def InvalidName.message (e : InvalidName) : String :=
  s!"Configuration property name '{e.name}' is not valid: invalid characters " ++
  s!"{Text.quoteChars e.chars} at position {e.position} " ++
  "(canonical names are lowercase alphanumeric, '-' separated, and start with a letter or digit)"

/-- The characters of a word that a canonical one may not have, with their byte offsets. -/
def strayChars (offset : Nat) (atStart : Bool) : List Char → List (Nat × Char)
  | [] => []
  | c :: cs =>
    let rest := strayChars (offset + c.utf8Size) false cs
    if isCanonical atStart c then rest else (offset, c) :: rest

/-- What is wrong with a word that is not canonical. -/
def Run.invalid (name : String) (r : Run) : InvalidName :=
  let stray := strayChars r.start true r.chars
  ⟨name, stray.map (·.2), ((stray.head?).map (·.1)).getD r.start⟩

/-- The first thing that is wrong with the runs of a text, if any: an open bracket, then a run
without a letter or digit, then a word that is not canonical. -/
def Scan.invalid? (name : String) (s : Scan) : Option InvalidName :=
  match s.unclosed, s.runs.find? (·.kind.isNone), s.runs.find? (·.kind == some .nonUniform) with
  | some offset, _, _ => some ⟨name, ['['], offset⟩
  | none, some run, _ => some ⟨name, run.chars, run.start⟩
  | none, none, some run => some (run.invalid name)
  | none, none, none => none

namespace Name

/-- Reads a canonical name. The empty text is the root. -/
def parse (s : String) : Except InvalidName Name :=
  if s.isEmpty then .ok empty
  else if s.toList.head? = some '.' then .error ⟨s, ['.'], 0⟩
  else if s.toList.getLast? = some '.' then .error ⟨s, ['.'], s.utf8ByteSize - 1⟩
  else
    let found := scan '.' s
    match found.invalid? s with
    | some e => .error e
    | none => .ok ⟨found.elements⟩

/-- The text is a canonical name. -/
def isValid (s : String) : Bool := (parse s).isOk

/-- Reads any text, cut at a separator. -/
def adapt (s : String) (sep : Char) : Name := ⟨(scan sep s).elements⟩

/-- The element that a raw one becomes when it is respelled: the new text must be one element. -/
def respell (name : String) (spell : String → String) (r : Run) : Except InvalidName Element :=
  let text := spell r.text
  match (scan '.' text).elements with
  | [e] => .ok e
  | _ => .error ⟨name, text.toList, r.start⟩

/-- Reads any text, cut at a separator, with every raw element respelled. -/
def adaptWith (s : String) (sep : Char) (spell : String → String) : Except InvalidName Name := do
  let runs := (scan sep s).runs.filter (·.kind.isSome)
  return ⟨← runs.mapM (respell s spell)⟩

/-- The name with the elements of a canonical text after its own. -/
def extend? (n : Name) (s : String) : Except InvalidName Name := do
  return n ++ (← parse s)

end Name

end TypedConfig
