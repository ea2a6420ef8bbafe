import TypedConfig.Name.Basic

/-!
# The order of names

Names are compared element by element, and a name comes before those below it. Among elements,
indexes come before words and numeric indexes before other indexes. Numeric indexes are compared
as numbers of any length, then by their text; other indexes by their text; words by their uniform
form.
-/

namespace TypedConfig

/-- The digits of a number without the zeros in front. -/
def significantDigits (cs : List Char) : List Char := cs.dropWhile (· == '0')

/-- Digit texts by value, and by text where the values agree: a longer number is a larger one. -/
def compareDigits (a b : List Char) : Ordering :=
  let x := significantDigits a
  let y := significantDigits b
  (compare x.length y.length).then ((compare x y).then (compare a b))

/-- Where the kind of an element stands in the order. -/
def Kind.rank : Kind → Nat
  | .numeric => 0
  | .indexed => 1
  | .uniform | .dashed | .nonUniform => 2

/-- The order of elements. -/
def Element.compare (a b : Element) : Ordering :=
  (Ord.compare a.kind.rank b.kind.rank).then <|
    match a.kind, b.kind with
    | .numeric, .numeric => compareDigits a.text.toList b.text.toList
    | .indexed, .indexed => Ord.compare a.text.toList b.text.toList
    | _, _ => Ord.compare (uniformChars a.text.toList) (uniformChars b.text.toList)

namespace Name

/-- The order of lists of elements. -/
def compareElements : List Element → List Element → Ordering
  | [], [] => .eq
  | [], _ :: _ => .lt
  | _ :: _, [] => .gt
  | a :: as, b :: bs => (a.compare b).then (compareElements as bs)

/-- The order of names. -/
def compare (a b : Name) : Ordering := compareElements a.elements b.elements

instance : Ord Name := ⟨compare⟩

/-- The names in order; names that compare equal keep their places. -/
def sort (names : List Name) : List Name := names.mergeSort fun a b => (compare a b).isLE

end Name

end TypedConfig
