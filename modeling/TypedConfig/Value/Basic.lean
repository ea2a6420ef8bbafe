import TypedConfig.Keyed
import TypedConfig.Number.Decimal

/-!
# Values

A value is what a source holds under a name and what binding builds: a scalar, a list, or a map
whose entries keep their order.

* `Value.equals`: equality of values. Numbers are compared as numbers within their type, so a NaN
  differs from itself; the order of map entries does not count.
* `Value.text?`: a scalar as text; `Value.display`: any value as a message shows it.
-/

namespace TypedConfig

open Number

/-- A configuration value. -/
inductive Value where
  | null
  | bool (b : Bool)
  | int (i : Int64)
  | float (x : Binary64)
  | string (s : String)
  | list (items : List Value)
  | map (entries : List (String × Value))
  deriving Repr

instance : Inhabited Value := ⟨.null⟩

/-- The entries of a map value. -/
abbrev Fields := List (String × Value)

namespace Value

/-- What a message calls a value of this type. -/
def typeName : Value → String
  | null => "null"
  | bool _ => "boolean"
  | int _ => "integer"
  | float _ => "float"
  | string _ => "string"
  | list _ => "list"
  | map _ => "map"

def isNull : Value → Bool
  | null => true
  | _ => false

/-- Neither a list nor a map. -/
def isScalar : Value → Bool
  | list _ | map _ => false
  | _ => true

/-! ## Views -/

def asBool? : Value → Option Bool
  | bool b => some b
  | _ => none

/-- The integer that the value is, also where a float writes it. -/
def asInt? : Value → Option Int64
  | int i => some i
  | float x => x.toInt?.bind narrow?
  | _ => none

/-- The number that the value is, an integer rounded to the nearest. -/
def asFloat? : Value → Option Binary64
  | float x => some x
  | int i => some (Binary64.ofInt i.toInt)
  | _ => none

def asString? : Value → Option String
  | string s => some s
  | _ => none

def asList? : Value → Option (List Value)
  | list items => some items
  | _ => none

def asFields? : Value → Option Fields
  | map entries => some entries
  | _ => none

/-- A map value of pairs, of which the last with a key counts. -/
def ofPairs (pairs : Fields) : Value := map (Keyed.ofList pairs)

/-! ## Equality -/

mutual

/-- The two values are the same. -/
def equals : Value → Value → Bool
  | null, null => true
  | bool a, bool b => a == b
  | int a, int b => a == b
  | float a, float b => a.equals b
  | string a, string b => a == b
  | list a, list b => itemsEqual a b
  | map a, map b => a.length == b.length && entriesHeld a b
  | _, _ => false

/-- The two lists have the same values in the same places. -/
def itemsEqual : List Value → List Value → Bool
  | [], [] => true
  | a :: as, b :: bs => a.equals b && itemsEqual as bs
  | _, _ => false

/-- Each entry of the first list is in the second. -/
def entriesHeld : Fields → Fields → Bool
  | [], _ => true
  | (key, a) :: rest, held =>
    (match Keyed.find? key held with
      | some b => a.equals b
      | none => false) && entriesHeld rest held

end

instance : BEq Value := ⟨equals⟩

/-! ## Text -/

/-- A scalar as text, without quotes. Null has none. -/
def text? : Value → Option String
  | string s => some s
  | bool b => some (if b then "true" else "false")
  | int i => some (toString i.toInt)
  | float x => some x.text
  | null | list _ | map _ => none

/-- A text between quotes, with a backslash before each quote in it. -/
def quote (s : String) : String :=
  String.ofList ('"' :: s.toList.flatMap (fun c => if c = '"' then ['\\', '"'] else [c]) ++ ['"'])

mutual

/-- The value as a message shows it. -/
def display : Value → String
  | null => "null"
  | bool b => if b then "true" else "false"
  | int i => toString i.toInt
  | float x => x.text
  | string s => quote s
  | list items => "[" ++ String.intercalate ", " (displayItems items) ++ "]"
  | map entries => "\x7b" ++ String.intercalate ", " (displayEntries entries) ++ "\x7d"

def displayItems : List Value → List String
  | [] => []
  | v :: rest => v.display :: displayItems rest

def displayEntries : Fields → List String
  | [] => []
  | (key, v) :: rest => (key ++ ": " ++ v.display) :: displayEntries rest

end

instance : ToString Value := ⟨display⟩

end Value

end TypedConfig
