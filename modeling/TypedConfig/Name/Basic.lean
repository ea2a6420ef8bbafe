import TypedConfig.Name.Element
import TypedConfig.Number.Integer

/-!
# Names

A name is a list of elements, and joining and cutting names is joining and cutting lists. `a == b`
says that two names mean the same, element by element (`Element.same`); it is not equality of the
texts. The name without elements is the root of every other.

* `Name.text`: the name in one line, words in dashed form after a dot, indexes in brackets.
* `Name.isAncestorOf`: one name lies above another, a strict prefix of it by meaning.
-/

namespace TypedConfig

/-- A bound above the position that an element counts, if it is an index of digits. -/
def Element.reach (e : Element) : Nat :=
  if e.kind = .numeric then Number.digitsValue e.text.toList + 1 else 0

/-- The name of a place in a configuration. -/
structure Name where
  elements : List Element
  deriving Repr

namespace Name

/-- The root. -/
def empty : Name := ⟨[]⟩

instance : Inhabited Name := ⟨empty⟩

/-- The number of elements. -/
def length (n : Name) : Nat := n.elements.length

def isEmpty (n : Name) : Bool := n.elements.isEmpty

/-- The element at a position, counted from 0. -/
def element? (n : Name) (i : Nat) : Option Element := n.elements[i]?

/-- The last element in a form, and the empty text for the root. -/
def last (form : Form) (n : Name) : String :=
  (n.elements.getLast?.map (Element.render form)).getD ""

/-- The element at a position is an index. -/
def isIndexAt (n : Name) (i : Nat) : Bool := (n.element? i).any Element.isIndex

/-- The element at a position is an index of digits. -/
def isNumericAt (n : Name) (i : Nat) : Bool := (n.element? i).any (·.kind == .numeric)

def isLastIndex (n : Name) : Bool := n.elements.getLast?.any Element.isIndex

def hasIndex (n : Name) : Bool := n.elements.any Element.isIndex

/-! ## Meaning -/

/-- The elements of two lists mean the same, as far as both go. -/
def sameElements : List Element → List Element → Bool
  | a :: as, b :: bs => a.same b && sameElements as bs
  | _, _ => true

/-- The two names mean the same. -/
def same (a b : Name) : Bool := a.length == b.length && sameElements a.elements b.elements

instance : BEq Name := ⟨same⟩

/-- `a` lies strictly above `b`. -/
def isAncestorOf (a b : Name) : Bool :=
  a.length < b.length && sameElements a.elements b.elements

/-- `a` lies one element above `b`. -/
def isParentOf (a b : Name) : Bool := a.length + 1 == b.length && a.isAncestorOf b

/-- A positional hash of the elements. Names that mean the same have the same hash. -/
def hash (n : Name) : UInt32 := n.elements.foldl (fun h e => h * 31 + e.hash) 0

/-! ## Positions -/

/-- A bound above the positions in the name. -/
def reach (n : Name) : Nat := (n.elements.map Element.reach).foldr max 0

/-- A bound above the positions in all the names. -/
def reachOf (names : List Name) : Nat := (names.map reach).foldr max 0

/-! ## Joining and cutting -/

/-- `a` followed by the elements of `b`. -/
def append (a b : Name) : Name := ⟨a.elements ++ b.elements⟩

instance : Append Name := ⟨append⟩

/-- The name of the item that the collection `n` has under a key. -/
def item (n : Name) (key : String) : Name := ⟨n.elements ++ [Element.index key]⟩

/-- The first `k` elements. -/
def take (n : Name) (k : Nat) : Name := ⟨n.elements.take k⟩

/-- The elements from position `k` on. -/
def drop (n : Name) (k : Nat) : Name := ⟨n.elements.drop k⟩

/-- All but the last element. -/
def parent (n : Name) : Name := ⟨n.elements.dropLast⟩

/-- A position beyond the end of a name. -/
structure OutOfRange where
  offset : Nat
  length : Nat
  deriving DecidableEq, Repr

def OutOfRange.message (e : OutOfRange) : String :=
  s!"offset {e.offset} out of bounds for name with {e.length} elements"

/-- The elements from position `k` on, for a position that the name has. -/
def subName (n : Name) (k : Nat) : Except OutOfRange Name :=
  if k ≤ n.length then .ok (n.drop k) else .error ⟨k, n.length⟩

/-! ## Text -/

/-- The text of a name with one more element. -/
def textWith (text : String) (e : Element) : String :=
  if e.isIndex then text ++ "[" ++ e.render .written ++ "]"
  else if text.isEmpty then e.render .dashed
  else text ++ "." ++ e.render .dashed

/-- The name in one line. -/
def text (n : Name) : String := n.elements.foldl textWith ""

instance : ToString Name := ⟨text⟩

@[simp] theorem elements_append (a b : Name) : (a ++ b).elements = a.elements ++ b.elements := rfl

@[simp] theorem elements_item (n : Name) (key : String) :
    (n.item key).elements = n.elements ++ [Element.index key] := rfl

@[simp] theorem elements_take (n : Name) (k : Nat) : (n.take k).elements = n.elements.take k := rfl

@[simp] theorem elements_drop (n : Name) (k : Nat) : (n.drop k).elements = n.elements.drop k := rfl

end Name

end TypedConfig
