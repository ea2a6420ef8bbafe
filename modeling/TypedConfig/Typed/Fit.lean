import TypedConfig.Typed.Basic
import TypedConfig.Value.Json

/-!
# Fitting documents to types

`Typed.fit` takes a JSON document to a type, if it fits, and gives the document that the typed value
writes: optional fields that are not there are null, sets are sorted and have no element twice, and
numbers have the precision of their type.
-/

namespace TypedConfig

open Number

/-- The number of levels of a document. -/
def Json.depth : Json → Nat
  | array items => itemsDepth items + 1
  | object members => membersDepth members + 1
  | _ => 1
where
  itemsDepth : List Json → Nat
    | [] => 0
    | j :: rest => max j.depth (itemsDepth rest)
  membersDepth : List (String × Json) → Nat
    | [] => 0
    | (_, j) :: rest => max j.depth (membersDepth rest)

namespace Typed

/-- The text is a key of the type, as the type writes it. -/
def keyFits (key : KeyType) (s : String) : Bool :=
  match key with
  | .string => true
  | .bool => s == "true" || s == "false"
  | .unsigned bits =>
    let n := digitsValue s.toList
    isDigits s.toList && s == toString n && n < 1 <<< bits

/-- The integer lies in a range. -/
def fitInteger (low high : Int) : Json → Option Json
  | .integer i => if low ≤ i.toInt ∧ i.toInt < high then some (.integer i) else none
  | _ => none

/-- Documents in the order of their scalars. -/
def scalarLE : Json → Json → Bool
  | .integer i, .integer j => i ≤ j
  | .string s, .string t => !(t < s)
  | _, _ => true

/-- Two documents are the same scalar. -/
def sameScalar : Json → Json → Bool
  | .integer i, .integer j => i == j
  | .string s, .string t => s == t
  | _, _ => false

/-- The list without elements that are like the one before them. -/
def dropRepeats : List Json → List Json
  | a :: b :: rest =>
    if sameScalar a b then dropRepeats (a :: rest) else a :: dropRepeats (b :: rest)
  | short => short
termination_by items => items.length

/-- The members of an object in the fields of a structure. -/
def fitMembers (fit : Typed → Json → Option Json) (held : List (String × Json)) :
    List Member → Option (List (String × Json))
  | [] => some []
  | m :: rest => do
    let value ← match Keyed.find? m.name held with
      | some j => fit m.type j
      | none => m.fallback.map Value.toJson
    return (m.name, value) :: (← fitMembers fit held rest)

/-- The items of an array, one after the other, in the fields of a structure; the array may end
before the fields do. -/
def fitItems (fit : Typed → Json → Option Json) :
    List Json → List Member → Option (List (String × Json))
  | [], [] => some []
  | _ :: _, [] => none
  | j :: items, m :: rest => do return (m.name, ← fit m.type j) :: (← fitItems fit items rest)
  | [], m :: rest => do
    return (m.name, ← m.fallback.map Value.toJson) :: (← fitItems fit [] rest)

/-- Takes a document to a type, where `fit` does so for the documents inside. -/
def fitWith (fit : Typed → Json → Option Json) : Typed → Json → Option Json
  | string, .string s => some (.string s)
  | bool, .bool b => some (.bool b)
  | char, .string s => if s.length = 1 then some (.string s) else none
  | double, .integer i => some (.ofFloat (Binary64.ofInt i.toInt))
  | double, .real x => some (.ofFloat x)
  | single, .integer i => some (.ofFloat (Binary64.singleOfInt i.toInt))
  | single, .real x => some (.ofFloat x.toSingle)
  | signed bits, j => fitInteger (-(1 <<< (bits - 1) : Nat)) (1 <<< (bits - 1) : Nat) j
  | unsigned bits, j => fitInteger 0 (1 <<< bits : Nat) j
  | option _, .null => some .null
  | option of, j => fitWith fit of j
  | list of, .array items => (items.mapM (fit of)).map .array
  | array size of, .array items =>
    if items.length = size then (items.mapM (fit of)).map .array else none
  | set of, .array items =>
    (items.mapM (fit of)).map fun fitted => .array (dropRepeats (fitted.mergeSort scalarLE))
  | map key value, .object members =>
    if members.all fun m => keyFits key m.1 then
      (members.mapM fun m => (fit value m.2).map fun j => (m.1, j)).map .ofMembers
    else none
  | struct type, .object members => (fitMembers fit members type.members).map .ofMembers
  | struct type, .array items => (fitItems fit items type.members).map .ofMembers
  | _, _ => none

/-- Takes a document of at most so many levels to a type. -/
def fitWithin : Nat → Typed → Json → Option Json
  | 0, _, _ => none
  | levels + 1, type, j => fitWith (fitWithin levels) type j

/-- Takes a document to a type, and gives what the typed value writes. -/
def fit (type : Typed) (j : Json) : Option Json := fitWithin j.depth type j

/-- Takes a value to a type, through JSON. -/
def fitValue (type : Typed) (v : Value) : Option Value := (type.fit v.toJson).map Json.toValue

end Typed

end TypedConfig
