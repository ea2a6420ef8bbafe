/-!
# Elements of a name

A name is a list of elements: words, which stand between dots, and indexes, which stand in
brackets. An element keeps its text as it was written, with the kind of text that it is.

* `Form`: a word can be shown as written, with dashes, or uniform, as small letters and digits
  alone; an index is shown as written in every form.
* `Element.render`: the element in a form. Where the kind says that the text is in that form
  already, the text is taken as it is.
* `Element.same`: two elements that mean the same. Words are compared by their uniform form, so
  case, dashes and other characters do not count; indexes are compared character by character.
-/

namespace TypedConfig

/-- What the text of an element is made of. -/
inductive Kind where
  /-- A word of small letters and digits. -/
  | uniform
  /-- A word of small letters, digits and dashes, with a dash in it but not at its start. -/
  | dashed
  /-- Any other word. -/
  | nonUniform
  /-- An index of any characters. -/
  | indexed
  /-- An index of digits. -/
  | numeric
  deriving DecidableEq, Repr

/-- An element in brackets. -/
def Kind.isIndex : Kind → Bool
  | .indexed | .numeric => true
  | .uniform | .dashed | .nonUniform => false

/-- How a word is shown. -/
inductive Form where
  /-- As it was written, without the characters that no spelling has. -/
  | written
  /-- Small letters, digits and the dashes that were written. -/
  | dashed
  /-- Small letters and digits. -/
  | uniform
  deriving DecidableEq, Repr

/-! ## Characters of a word -/

/-- A small letter or a digit. -/
def isWordChar (c : Char) : Bool := c.isLower || c.isDigit

/-- A character that a canonical word may have, at its start or after it. -/
def isCanonical (atStart : Bool) (c : Char) : Bool := isWordChar c || (!atStart && c == '-')

/-- The characters that pass a test, which is told whether it looks at the first one. -/
def keepChars (keep : Bool → Char → Bool) : List Char → List Char
  | [] => []
  | c :: cs => if keep true c then c :: cs.filter (keep false) else cs.filter (keep false)

/-- Letters, digits and underscores as written, and dashes after the start. -/
def writtenChars : List Char → List Char :=
  keepChars fun atStart c => c == '_' || isCanonical atStart c.toLower

/-- Small letters, digits, and dashes after the start. -/
def dashedChars (cs : List Char) : List Char :=
  keepChars isCanonical (cs.map Char.toLower)

/-- Small letters and digits. -/
def uniformChars (cs : List Char) : List Char :=
  (cs.map Char.toLower).filter isWordChar

/-- The uniform form of any text. -/
def uniformForm (s : String) : String := String.ofList (uniformChars s.toList)

/-! ## Elements -/

/-- A word or an index, with its text as written. -/
structure Element where
  kind : Kind
  text : String
  deriving DecidableEq, Repr

namespace Element

/-- The element stands in brackets. -/
def isIndex (e : Element) : Bool := e.kind.isIndex

/-- The index with a key: numeric if the key is digits, and at least one. -/
def index (key : String) : Element :=
  if !key.isEmpty && key.toList.all Char.isDigit then ⟨.numeric, key⟩ else ⟨.indexed, key⟩

/-- The element in a form. -/
def render (form : Form) (e : Element) : String :=
  match form, e.kind with
  | _, .indexed | _, .numeric => e.text
  | .written, .nonUniform => String.ofList (writtenChars e.text.toList)
  | .written, _ => e.text
  | .dashed, .nonUniform => String.ofList (dashedChars e.text.toList)
  | .dashed, _ => e.text
  | .uniform, .uniform => e.text
  | .uniform, _ => uniformForm e.text

/-- The characters of a text other than dashes. -/
def undashed (s : String) : List Char := s.toList.filter (· != '-')

/-- The two elements mean the same. Two words whose letters are known to be small are compared
without another look at their case. -/
def same (a b : Element) : Bool :=
  match a.kind, b.kind with
  | .indexed, .indexed | .indexed, .numeric | .numeric, .indexed | .numeric, .numeric
  | .uniform, .uniform => a.text == b.text
  | .uniform, .dashed | .dashed, .uniform | .dashed, .dashed => undashed a.text == undashed b.text
  | .indexed, _ | .numeric, _ | _, .indexed | _, .numeric => false
  | _, _ => uniformChars a.text.toList == uniformChars b.text.toList

/-- The characters that the hash of an element is made of. -/
def hashChars (e : Element) : List Char :=
  if e.isIndex then e.text.toList.filter isWordChar else uniformChars e.text.toList

/-- A positional hash of those characters. -/
def hash (e : Element) : UInt32 :=
  e.hashChars.foldl (fun h c => h * 31 + c.val) 0

end Element

end TypedConfig
