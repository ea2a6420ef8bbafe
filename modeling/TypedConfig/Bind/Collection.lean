import TypedConfig.Bind.Binder

/-!
# Binding collections

Arrays, lists and sets are bound from items `name[0]`, `name[1]` and so on, or else from one value
at `name`: a list, or a text that is split at a delimiter.

* `Binder.bindItems`: items from a position up to the first that binds nothing;
* `Binder.bindFrom`: the items of one source. A source that lists its names may have no item left
  behind a gap.
* `CollectionKind.merge`: items on top of the collection that is there.
-/

namespace TypedConfig

/-- The collections. -/
inductive CollectionKind where
  | array
  | list
  | set
  deriving DecidableEq, Repr

/-- What the elements of a collection were read from. -/
inductive Provenance where
  | items
  | singleValue
  deriving DecidableEq, Repr

/-! ## Positions -/

/-- The position that an element counts, if it is an index of digits below `2 ^ 64`. -/
def Element.position? (e : Element) : Option Nat :=
  let n := Number.digitsValue e.text.toList
  if e.kind = .numeric ∧ n < UInt64.size then some n else none

/-- The position of the item of a collection at which, or below which, a name lies. -/
def Name.positionIn? (collection name : Name) : Option Nat :=
  if collection.isAncestorOf name then (name.element? collection.length).bind Element.position?
  else none

/-! ## Values -/

/-- The values without those that are there before. -/
def distinct (values : List Value) : List Value :=
  values.foldl (fun kept v => if kept.contains v then kept else kept ++ [v]) []

/-- The pieces of a text between separators. -/
def splitAtChar (sep : Char) : List Char → List (List Char)
  | [] => [[]]
  | c :: cs =>
    if c = sep then [] :: splitAtChar sep cs
    else match splitAtChar sep cs with
      | piece :: rest => (c :: piece) :: rest
      | [] => [[c]]

/-- The elements that a text writes. A blank text has none. -/
def Options.splitText (o : Options) (s : String) : List String :=
  if (Text.trimChars s.toList).isEmpty then []
  else (splitAtChar o.delimiter s.toList).map fun piece =>
    String.ofList (if o.trimElements then Text.trimChars piece else piece)

/-- The elements that a single value stands for. -/
def Options.pieces (o : Options) : Value → Except Obstacle (List Value)
  | .list items => .ok items
  | .string s => .ok ((o.splitText s).map .string)
  | .map _ => .error .mapAsCollection
  | v => .ok [v]

namespace CollectionKind

/-- The collection of some elements. -/
def collect (kind : CollectionKind) (elements : List Value) : Value :=
  match kind with
  | set => .list (distinct elements)
  | array | list => .list elements

/-- Items on top of the elements that are there: an array is replaced, a list takes them position by
position, a set takes those that it does not have. -/
def mergeItems (kind : CollectionKind) (existing additional : List Value) : List Value :=
  match kind with
  | array => additional
  | list => additional ++ existing.drop additional.length
  | set => additional.foldl (fun kept v => if kept.contains v then kept else kept ++ [v]) existing

/-- A bound collection on top of the one that is there. -/
def merge (kind : CollectionKind) (existing additional : Value) : Value :=
  match existing, additional with
  | .list old, .list new => .list (kind.mergeItems old new)
  | _, _ => additional

end CollectionKind

/-- The kind of a collection and the shape of its elements. -/
def Shape.collection? : Shape → Option (CollectionKind × Shape)
  | array element => some (.array, element)
  | list element => some (.list, element)
  | set element => some (.set, element)
  | _ => none

namespace Binder

/-! ## Items -/

/-- Binds items from a position on while they are worth a try, up to the first that binds nothing,
and at most `steps` of them. -/
def bindItems (bindItem : Nat → BindM (Option Value)) (worthTrying : Nat → Bool) :
    Nat → Nat → BindM (List Value)
  | 0, _ => do
    Journal.noteEndless .items
    return []
  | steps + 1, position =>
    if worthTrying position then do
      match ← bindItem position with
      | some v => return v :: (← bindItems bindItem worthTrying steps (position + 1))
      | none => return []
    else return []

/-- The positions from `start` on that a source lists names for. -/
def listedPositions (name : Name) (start : Nat) (names : List Name) : List Nat :=
  (names.filterMap name.positionIn?).filter (start ≤ ·)

/-- How many items a source can have from `start` on, if they end. One that lists its names has none
behind the last position. Any other is like itself at all positions that it has nothing at and no
handler has its way at, so an item that is bound there is bound at all positions after it. -/
def itemLimit (b : Binder) (source : Source) (start : Nat) : Option (List Nat) → Nat
  | some listed => listed.foldl max start + 1 - start
  | none => max source.reach b.handler.reach - start

/-- Refuses the items that a source has at some positions. -/
def refuseItems (i : Nat) (source : Source) (name : Name) (positions : List Nat) :
    BindM (List Value) := do
  let names := (source.names?.getD []).filter fun candidate =>
    (name.positionIn? candidate).any positions.contains
  Journal.ask (names.map fun candidate => (i, .get candidate))
  throw (.unboundProperties (names.filterMap source.get?))

/-- Binds the items of one source, from the position `start` on. -/
def bindFrom (b : Binder) (below : BindBelow) (scope : Scope) (name : Name) (element : Shape)
    (i : Nat) (source : Source) (start : Nat) : BindM (List Value) := do
  let listed := source.names?.map (listedPositions name start)
  let bindItem (position : Nat) : BindM (Option Value) :=
    below (scope.restrictedTo i) (name.item (toString position)) (.of element) source.isIterable
  let worthTrying (position : Nat) : Bool := listed.all fun known => known.any (position ≤ ·)
  let values ← bindItems bindItem worthTrying (b.itemLimit source start listed + 1) start
  let left := (listed.getD []).filter (start + values.length ≤ ·)
  if left.isEmpty then return values else refuseItems i source name left

/-- Binds the items of sources one after the other, each from the position that those before it
left off at. On the way the first single value is looked up, if it is asked for. -/
def bindFromAll (b : Binder) (below : BindBelow) (scope : Scope) (name : Name) (element : Shape)
    (direct : Bool) : List (Nat × Source) → List Value → Option Property →
    BindM (List Value × Option Property)
  | [], values, single => return (values, single)
  | (i, source) :: rest, values, single => do
    let single ← if direct && single.isNone then getFrom i source name else pure single
    let more ← b.bindFrom below scope name element i source values.length
    b.bindFromAll below scope name element direct rest (values ++ more) single

/-! ## Single values -/

/-- Converts the pieces of a property one after the other. -/
def convertPieces (b : Binder) (p : Property) (kind : ScalarKind) : List Value → BindM (List Value)
  | [] => return []
  | piece :: rest => do
    let v ← b.convertProperty (p.withValue piece) kind
    return v :: (← b.convertPieces p kind rest)

/-- The elements that a single value stands for, converted. -/
def splitValue (b : Binder) (p : Property) (element : Shape) : BindM (List Value) :=
  match b.resolve element with
  | .scalar kind =>
    match b.options.pieces p.value with
    | .ok pieces => b.convertPieces p kind pieces
    | .error obstacle => do throw (.conversion p (← b.describe element) obstacle)
  | _ => do throw (.conversion p (← b.describe element) .elements)

/-! ## Collections -/

/-- Binds a collection without regard to the one that is there. -/
def bindElements (b : Binder) (kind : CollectionKind) (below : BindBelow) (scope : Scope)
    (name : Name) (target : Target) (element : Shape) : BindM (Option (Value × Provenance)) := do
  let direct := !name.isEmpty && !target.nestedOnly
  let (values, single) ← b.bindFromAll below scope name element direct (b.visible scope) [] none
  if values.isEmpty then
    match single with
    | some p => return some (kind.collect (← b.splitValue p element), .singleValue)
    | none => return none
  else return some (kind.collect values, .items)

/-- Binds a collection. Items go on top of the one that is there, and a single value takes its
place. -/
def bindCollection (b : Binder) (kind : CollectionKind) (below : BindBelow) (scope : Scope)
    (name : Name) (target : Target) (element : Shape) : BindM (Option Value) := do
  let bound ← b.bindElements kind below scope.deeper name target element
  match bound, target.existing? with
  | some (additional, .items), some existing => return some (kind.merge existing additional)
  | some (additional, .items), none => return some additional
  | some (replacement, .singleValue), _ => do
    Journal.noteWhole name
    return some replacement
  | none, _ => return none

end Binder

end TypedConfig
