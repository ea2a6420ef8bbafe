import TypedConfig.Value.Basic

/-!
# Values as JSON

`Json` is a JSON document whose objects are sorted by key. A value becomes JSON by `Value.toJson`
and comes back by `Json.toValue`; on the way a float that is not finite becomes null, and the
entries of a map are sorted.
-/

namespace TypedConfig

open Number

/-- A JSON document. -/
inductive Json where
  | null
  | bool (b : Bool)
  /-- A number written as an integer. -/
  | integer (i : Int64)
  /-- Any other number. It is finite. -/
  | real (x : Binary64)
  | string (s : String)
  | array (items : List Json)
  /-- The members, sorted by key. -/
  | object (members : List (String × Json))
  deriving Repr

instance : Inhabited Json := ⟨.null⟩

namespace Json

/-- The members with a value under a key. They stay sorted. -/
def insertMember (key : String) (value : Json) : List (String × Json) → List (String × Json)
  | [] => [(key, value)]
  | (k, v) :: rest =>
    if key = k then (key, value) :: rest
    else if key < k then (key, value) :: (k, v) :: rest
    else (k, v) :: insertMember key value rest

/-- The object with some members, of which the last with a key counts. -/
def ofMembers (members : List (String × Json)) : Json :=
  object (members.foldl (fun held (key, value) => insertMember key value held) [])

/-- The number, or null where JSON has none. -/
def ofFloat (x : Binary64) : Json := if x.isFinite then real x else null

mutual

/-- The value that a document is. -/
def toValue : Json → Value
  | null => .null
  | bool b => .bool b
  | integer i => .int i
  | real x => .float x
  | string s => .string s
  | array items => .list (itemsToValues items)
  | object members => .map (membersToFields members)

def itemsToValues : List Json → List Value
  | [] => []
  | j :: rest => j.toValue :: itemsToValues rest

def membersToFields : List (String × Json) → Fields
  | [] => []
  | (key, j) :: rest => (key, j.toValue) :: membersToFields rest

end

end Json

namespace Value

mutual

/-- The document that a value is. -/
def toJson : Value → Json
  | null => .null
  | bool b => .bool b
  | int i => .integer i
  | float x => .ofFloat x
  | string s => .string s
  | list items => .array (itemsToJson items)
  | map entries => .ofMembers (entriesToMembers entries)

def itemsToJson : List Value → List Json
  | [] => []
  | v :: rest => v.toJson :: itemsToJson rest

def entriesToMembers : Fields → List (String × Json)
  | [] => []
  | (key, v) :: rest => (key, v.toJson) :: entriesToMembers rest

end

/-- The value after a trip through JSON. -/
def throughJson (v : Value) : Value := v.toJson.toValue

end Value

end TypedConfig
