import TypedConfig.Shape.Basic

/-!
# Typed targets

The types that a bound value can be taken to: scalars, optional values, collections, maps and some
structures. Each has a shape to bind (`Typed.shape`); structures refer to one another by name, and
`Typed.definitions` say what the names stand for.
-/

namespace TypedConfig

/-- The types of map keys. -/
inductive KeyType where
  | string
  | bool
  | unsigned (bits : Nat)
  deriving DecidableEq, Repr

/-- The structures. -/
inductive Struct where
  | client
  | zoo
  | endpoint
  | treeNode
  | folder
  deriving DecidableEq, Repr

/-- A type. -/
inductive Typed where
  | string
  | bool
  | char
  | double
  | single
  | signed (bits : Nat)
  | unsigned (bits : Nat)
  /-- A value or none. -/
  | option (of : Typed)
  | list (of : Typed)
  | array (size : Nat) (of : Typed)
  | set (of : Typed)
  | map (key : KeyType) (value : Typed)
  | struct (type : Struct)
  deriving DecidableEq, Repr

/-- The scalar kind of a key. -/
def KeyType.kind : KeyType → ScalarKind
  | string => .string
  | bool => .bool
  | unsigned bits => .unsignedBits bits

/-- What the type is called. -/
def Struct.name : Struct → String
  | client => "Client"
  | zoo => "Zoo"
  | endpoint => "Endpoint"
  | treeNode => "TreeNode"
  | folder => "Folder"

namespace Typed

/-- The shape to bind for a type. -/
def shape : Typed → Shape
  | string => .scalar .string
  | bool => .scalar .bool
  | char => .scalar .char
  | double | single => .scalar .float
  | signed bits => .scalar (.signedBits bits)
  | unsigned bits => .scalar (.unsignedBits bits)
  | option of => of.shape
  | list of => .list of.shape
  | array _ of => .array of.shape
  | set of => .set of.shape
  | map key value => .map key.kind value.shape
  | struct type => .ref (.standard type.name)

end Typed

/-! ## Structures -/

/-- A field of a structure. -/
structure Member where
  name : String
  type : Typed
  /-- What stands for the field where a document does not have it; none if the document must. -/
  fallback : Option Value

/-- The fields of a structure, in order. -/
def Struct.members : Struct → List Member
  | client =>
    [⟨"retries", .unsigned 32, some (.int 0)⟩, ⟨"timeout", .unsigned 32, some (.int 0)⟩]
  | zoo =>
    [⟨"zebra", .string, some (.string "stripes")⟩,
      ⟨"max_load", .signed 16, some (.int (-5))⟩,
      ⟨"animals", .list .string, some (.list [.string "cat", .string "dog"])⟩,
      ⟨"cages", .map .string (.unsigned 16), some (.map [("big", .int 1), ("small", .int 2)])⟩,
      ⟨"boss", .option (.struct .client), some .null⟩]
  | endpoint =>
    [⟨"host", .string, none⟩, ⟨"port", .unsigned 16, none⟩, ⟨"secure", .option .bool, some .null⟩]
  | treeNode => [⟨"name", .string, none⟩, ⟨"child", .option (.struct .treeNode), some .null⟩]
  | folder =>
    [⟨"name", .string, some (.string "")⟩,
      ⟨"children", .list (.struct .folder), some (.list [])⟩]

/-- The state of a fresh instance of a structure that has one. -/
def Struct.defaultInstance : Struct → Option Value
  | client => some (.map [("retries", .int 0), ("timeout", .int 0)])
  | zoo =>
    some (.map [("animals", .list [.string "cat", .string "dog"]), ("boss", .null),
      ("cages", .map [("big", .int 1), ("small", .int 2)]), ("max_load", .int (-5)),
      ("zebra", .string "stripes")])
  | endpoint | treeNode | folder => none

/-- The constructor of an endpoint: a host, a port that is 8080 unless given, and optionally whether
the connection is secure. -/
def Struct.endpointConstructor : Constructor Shape :=
  ⟨[⟨"host", Typed.string.shape, .required⟩,
    ⟨"port", (Typed.unsigned 16).shape, .value (.string "8080")⟩,
    ⟨"secure", Typed.bool.shape, .optional⟩], false⟩

/-- The composite that a structure is bound as. -/
def Struct.composite (type : Struct) : Composite Shape :=
  match type with
  | endpoint => ⟨type.name, .record, false, [endpointConstructor], [], none⟩
  | _ =>
    ⟨type.name, .bean, false, [], type.members.map fun m => ⟨m.name, m.type.shape, true⟩,
      type.defaultInstance⟩

/-- What the names of structures stand for. -/
def Typed.definitions : Definitions :=
  [Struct.client, .zoo, .endpoint, .treeNode, .folder].map fun type =>
    (.standard type.name, .composite type.composite)

end TypedConfig
