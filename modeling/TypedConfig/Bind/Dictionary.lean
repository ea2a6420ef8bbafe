import TypedConfig.Bind.Binder

/-!
# Binding maps

The entries of a map are the names that sources list below its name, or else the entries of one map
value at the name.

* `entryName`: the name that an entry is bound at. For scalars it is the whole name that a source
  lists, for collections what stands before the first position, for other values the next element.
* `entryKey`: its key, the elements below the map as they were written.
-/

namespace TypedConfig

namespace Binder

/-- The name cut before the first index of digits from element `start` on. -/
def cutAtPosition (n : Name) (start : Nat) : Name :=
  match ((List.range n.length).filter (start ≤ ·)).find? n.isNumericAt with
  | some i => n.take i
  | none => n

/-- The name of the entry that a listed name belongs to, by the shape of the values. -/
def entryName (root candidate : Name) : Shape → Name
  | .scalar _ => candidate
  | .array _ | .list _ | .set _ => cutAtPosition candidate (root.length + 1)
  | .map _ _ | .composite _ | .ref _ => candidate.take (root.length + 1)

/-- The key of an entry: the elements below the map as written, with dots between. -/
def entryKey (root entry : Name) : String :=
  String.intercalate "." ((entry.drop root.length).elements.map (·.render .written))

/-- The entries of a map so far, with the names that they were looked for at. -/
structure Gathered where
  seen : List Name := []
  entries : Fields := []

/-- Binds the entries of listed names one after the other. A name or key that was there before is
passed over, and so is a key without text. -/
def bindEntries (b : Binder) (below : BindBelow) (scope : Scope) (root : Name) (key : ScalarKind)
    (value : Shape) : List Name → Gathered → BindM Gathered
  | [], g => return g
  | candidate :: rest, g => do
    let entry := entryName root candidate value
    if g.seen.contains entry then b.bindEntries below scope root key value rest g
    else
      let g := { g with seen := entry :: g.seen }
      let converted ← b.convertProperty ⟨entry, .string (entryKey root entry), none⟩ key
      match converted.text? with
      | none => b.bindEntries below scope root key value rest g
      | some k =>
        if (Keyed.find? k g.entries).isSome then b.bindEntries below scope root key value rest g
        else
          let bound ← below scope entry (.of value) true
          let entries := g.entries ++ (bound.map fun v => (k, v)).toList
          b.bindEntries below scope root key value rest { g with entries }

/-- Takes the entries of a map value, one after the other, to the kinds of keys and values. -/
def convertEntries (b : Binder) (p : Property) (key : ScalarKind) (value : Shape) :
    Fields → Fields → BindM Fields
  | [], converted => return converted
  | (entryKey, entryValue) :: rest, converted => do
    let k := (← b.convertProperty (p.withValue (.string entryKey)) key).text?.getD entryKey
    let v ← match value with
      | .scalar kind => b.convertProperty (p.withValue entryValue) kind
      | _ => pure entryValue
    b.convertEntries p key value rest (Keyed.insert k v converted)

/-- Binds a map from a single value. -/
def bindMapValue (b : Binder) (p : Property) (key : ScalarKind) (value : Shape) : BindM Value :=
  match p.value with
  | .map entries => do
    let converted ← b.convertEntries p key value entries []
    Journal.setProperty (some p)
    return .map converted
  | _ => do throw (.conversion p (← b.describe (.map key value)) .notMap)

/-- Binds a map from sources one after the other. A single value, where it counts, is the whole
map. -/
def bindMapFrom (b : Binder) (below : BindBelow) (scope : Scope) (root : Name) (key : ScalarKind)
    (value : Shape) (direct : Bool) : List (Nat × Source) → Gathered → BindM (Option Value)
  | [], g => return if g.entries.isEmpty then none else some (.map g.entries)
  | (i, source) :: rest, g => do
    match ← if direct then getFrom i source root else pure none with
    | some p => return some (← b.bindMapValue p key value)
    | none =>
      let candidates := (source.names?.getD []).filter root.isAncestorOf
      let g ← b.bindEntries below scope root key value candidates g
      b.bindMapFrom below scope root key value direct rest g

/-- The entries of a map on top of the one that is there. -/
def mergeMaps (existing additional : Value) : Value :=
  match existing, additional with
  | .map old, .map new => .map (Keyed.insertAll old new)
  | _, _ => additional

/-- Binds a map. Its entries go on top of the one that is there. -/
def bindMap (b : Binder) (below : BindBelow) (scope : Scope) (name : Name) (target : Target)
    (key : ScalarKind) (value : Shape) : BindM (Option Value) := do
  let scope := scope.deeper
  let nested ← b.somethingBelow scope name
  let direct := !name.isEmpty && !nested && !target.nestedOnly
  let value := b.resolve value
  match ← b.bindMapFrom below scope name key value direct (b.visible scope) {},
      target.existing? with
  | some additional, some existing => return some (mergeMaps existing additional)
  | bound, _ => return bound

end Binder

end TypedConfig
