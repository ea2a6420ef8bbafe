import TypedConfig.Proofs.Value.Shuffled
import TypedConfig.Value.Json

/-!
# Values through JSON

A value that becomes a JSON document and comes back is the same with null in the place of each float
that is not finite, apart from the order of map entries (`Value.json_round_trip`). A second trip
changes nothing more.

This holds of every library of documents whose numbers read back as what they were made from, and
whose objects keep each key once. `Value.throughJson` is the trip with a library that sorts the
members of an object (`Value.KeysOnce.throughJson_eq`).

* `Document`: a document, with the numbers of a library; `JsonLibrary`: what the conversions use of
  one; `JsonLibrary.Lawful`: what they rely on.
* `Value.through`: a value after a trip through the documents of a library.
* `Value.KeysOnce.through_shuffled`: one trip. `Value.KeysOnce.throughJson_throughJson`: a second
  trip that sorts, with the order of entries.
-/

namespace TypedConfig

open Number

/-! ## Documents of a library -/

/-- A JSON document with numbers of a type. -/
inductive Document (ν : Type) where
  | null
  | bool (b : Bool)
  | number (n : ν)
  | string (s : String)
  | array (items : List (Document ν))
  | object (members : List (String × Document ν))

/-- What the conversions use of a library of documents. -/
structure JsonLibrary where
  Num : Type
  ofInt : Int64 → Num
  /-- A number, if JSON has one. -/
  ofFloat? : Binary64 → Option Num
  toInt? : Num → Option Int64
  toFloat? : Num → Option Binary64
  /-- The members of an object that is made of some. -/
  collect : List (String × Document Num) → List (String × Document Num)

/-- What the conversions rely on. -/
structure JsonLibrary.Lawful (lib : JsonLibrary) : Prop where
  /-- A number made from an integer reads back as that integer. -/
  ofInt_reads : ∀ i, lib.toInt? (lib.ofInt i) = some i
  /-- Exactly the finite floats have a number. -/
  ofFloat?_isSome : ∀ x, (lib.ofFloat? x).isSome = x.isFinite
  /-- A number made from a float reads back as that float, and never as an integer. -/
  ofFloat?_reads : ∀ {x n}, lib.ofFloat? x = some n → lib.toInt? n = none ∧ lib.toFloat? n = some x
  /-- An object keeps each key once, in an order of its own. -/
  collect_perm : ∀ {members}, (members.map (·.1)).Nodup → (lib.collect members).Perm members

/-- The library that sorts the members of an object. -/
def JsonLibrary.sorted : JsonLibrary where
  Num := Int64 ⊕ Binary64
  ofInt := .inl
  ofFloat? x := if x.isFinite then some (.inr x) else none
  toInt? := Sum.getLeft?
  toFloat? n := some (n.elim (fun i => Binary64.ofInt i.toInt) id)
  collect := Keyed.insertAllSorted []

theorem JsonLibrary.sorted_lawful : sorted.Lawful where
  ofInt_reads _ := rfl
  ofFloat?_isSome x := by
    show (if x.isFinite then some (Sum.inr x) else none : Option (Int64 ⊕ Binary64)).isSome = _
    cases x.isFinite <;> rfl
  ofFloat?_reads {x n} h := by
    change (if x.isFinite then some (Sum.inr x) else none) = some n at h
    split at h
    · cases h
      exact ⟨rfl, rfl⟩
    · cases h
  collect_perm h := Keyed.insertAllSorted_perm h

mutual

/-- The value that a document is. -/
def Document.toValue (lib : JsonLibrary) : Document lib.Num → Value
  | .null => .null
  | .bool b => .bool b
  | .number n =>
    match lib.toInt? n with
    | some i => .int i
    | none => .float ((lib.toFloat? n).getD Binary64.nan)
  | .string s => .string s
  | .array items => .list (itemsToValues lib items)
  | .object members => .map (Keyed.ofList (membersToFields lib members))

def Document.itemsToValues (lib : JsonLibrary) : List (Document lib.Num) → List Value
  | [] => []
  | j :: rest => j.toValue lib :: itemsToValues lib rest

def Document.membersToFields (lib : JsonLibrary) : List (String × Document lib.Num) → Fields
  | [] => []
  | (key, j) :: rest => (key, j.toValue lib) :: membersToFields lib rest

end

namespace Value

mutual

/-- The document that a value is. -/
def toDocument (lib : JsonLibrary) : Value → Document lib.Num
  | null => .null
  | bool b => .bool b
  | int i => .number (lib.ofInt i)
  | float x => ((lib.ofFloat? x).map .number).getD .null
  | string s => .string s
  | list items => .array (itemsToDocuments lib items)
  | map entries => .object (lib.collect (entriesToDocuments lib entries))

def itemsToDocuments (lib : JsonLibrary) : List Value → List (Document lib.Num)
  | [] => []
  | v :: rest => v.toDocument lib :: itemsToDocuments lib rest

def entriesToDocuments (lib : JsonLibrary) : Fields → List (String × Document lib.Num)
  | [] => []
  | (key, v) :: rest => (key, v.toDocument lib) :: entriesToDocuments lib rest

end

/-- The value after a trip through the documents of a library. -/
def through (lib : JsonLibrary) (v : Value) : Value := (v.toDocument lib).toValue lib

variable {lib : JsonLibrary} {v : Value} {entries : Fields}

/-! ## A trip -/

theorem through_list (lib : JsonLibrary) (items : List Value) :
    (list items).through lib = list (items.map (through lib)) := by
  have hitems : Document.itemsToValues lib (itemsToDocuments lib items) =
      items.map (through lib) := by
    induction items with
    | nil => rfl
    | cons v rest ih =>
      rw [itemsToDocuments, Document.itemsToValues, ih]
      rfl
  rw [through, toDocument, Document.toValue, hitems]

theorem entriesToDocuments_eq (lib : JsonLibrary) (entries : Fields) :
    entriesToDocuments lib entries = entries.map fun e => (e.1, e.2.toDocument lib) := by
  induction entries with
  | nil => rfl
  | cons e rest ih => rw [entriesToDocuments, ih, List.map_cons]

theorem membersToFields_eq (lib : JsonLibrary) (members : List (String × Document lib.Num)) :
    Document.membersToFields lib members = members.map fun m => (m.1, m.2.toValue lib) := by
  induction members with
  | nil => rfl
  | cons m rest ih => rw [Document.membersToFields, ih, List.map_cons]

/-- The entries that a map comes back with, in the order of the library. -/
def returned (lib : JsonLibrary) (entries : Fields) : Fields :=
  (lib.collect (entries.map fun e => (e.1, e.2.toDocument lib))).map fun m => (m.1, m.2.toValue lib)

/-- A map comes back with all its entries, each after its own trip. -/
theorem returned_perm (hlib : lib.Lawful) (hk : (entries.map (·.1)).Nodup) :
    (returned lib entries).Perm (entries.map fun e => (e.1, e.2.through lib)) := by
  have hkeys : ((entries.map fun e => (e.1, e.2.toDocument lib)).map (·.1)).Nodup := by
    rw [List.map_map]
    exact hk
  refine ((hlib.collect_perm hkeys).map _).trans (.of_eq ?_)
  rw [List.map_map]
  rfl

theorem keys_returned_perm (hlib : lib.Lawful) (hk : (entries.map (·.1)).Nodup) :
    ((returned lib entries).map (·.1)).Perm (entries.map (·.1)) := by
  rw [← keys_map (through lib) entries]
  exact (returned_perm hlib hk).map _

theorem through_map (hlib : lib.Lawful) (hk : (entries.map (·.1)).Nodup) :
    (map entries).through lib = map (returned lib entries) := by
  have hnodup : ((returned lib entries).map (·.1)).Nodup :=
    (keys_returned_perm hlib hk).nodup_iff.mpr hk
  rw [through, toDocument, entriesToDocuments_eq, Document.toValue, membersToFields_eq]
  exact congrArg Value.map (Keyed.ofList_eq_self hnodup)

theorem through_int (hlib : lib.Lawful) (i : Int64) : (int i).through lib = int i := by
  rw [through, toDocument, Document.toValue, hlib.ofInt_reads]

theorem through_float (hlib : lib.Lawful) (x : Binary64) :
    (float x).through lib = (float x).finite := by
  have hsome := hlib.ofFloat?_isSome x
  rw [through, toDocument, finite]
  cases hn : lib.ofFloat? x with
  | none =>
    rw [hn] at hsome
    rw [← hsome]
    rfl
  | some n =>
    obtain ⟨hint, hfloat⟩ := hlib.ofFloat?_reads hn
    rw [hn] at hsome
    rw [← hsome, Option.map_some, Option.getD_some, Document.toValue, hint, hfloat]
    rfl

/-- A value comes back with null in the place of each float that is not finite, apart from the order
of entries. -/
theorem KeysOnce.through_shuffled (hlib : lib.Lawful) (hv : v.KeysOnce) :
    (v.through lib).Shuffled v.finite := by
  induction hv with
  | null | bool b | string s => exact .scalar rfl
  | int i =>
    rw [through_int hlib]
    exact .scalar rfl
  | float x =>
    rw [through_float hlib, finite]
    split <;> exact .scalar rfl
  | @list items _ ih =>
    rw [through_list, finite_list]
    refine .list (by simp) fun i v' w' hv' hw' => ?_
    rw [List.getElem?_map] at hv' hw'
    obtain ⟨v, hv, rfl⟩ := Option.map_eq_some_iff.mp hv'
    rw [hv] at hw'
    cases hw'
    exact ih v (List.mem_of_getElem? hv)
  | @map entries hk _ ih =>
    have hperm := returned_perm hlib hk
    have hkeys := keys_returned_perm hlib hk
    rw [through_map hlib hk, finite_map]
    refine .map (hkeys.nodup_iff.mpr hk) ((keys_map finite entries).symm ▸ hkeys) ?_
    intro key v' w' hv' hw'
    rw [Keyed.find?_of_perm (keys_map (through lib) entries ▸ hk) hperm,
      Keyed.find?_map_values] at hv'
    rw [Keyed.find?_map_values] at hw'
    obtain ⟨v, hv, rfl⟩ := Option.map_eq_some_iff.mp hv'
    rw [hv] at hw'
    cases hw'
    exact ih _ (Keyed.mem_of_find?_eq_some hv)

/-! ## The trip that sorts -/

theorem throughJson_float (x : Binary64) : (float x).throughJson = (float x).finite := by
  rw [throughJson, toJson, Json.ofFloat, finite]
  cases x.isFinite <;> rfl

theorem throughJson_list (items : List Value) :
    (list items).throughJson = list (items.map throughJson) := by
  have hitems : Json.itemsToValues (itemsToJson items) = items.map throughJson := by
    induction items with
    | nil => rfl
    | cons v rest ih =>
      rw [itemsToJson, Json.itemsToValues, ih]
      rfl
  rw [throughJson, toJson, Json.toValue, hitems]

theorem insertMember_eq (key : String) (j : Json) (members : List (String × Json)) :
    Json.insertMember key j members = Keyed.insertSorted key j members := by
  induction members with
  | nil => rfl
  | cons m rest ih => rw [Json.insertMember, Keyed.insertSorted, ih]

theorem throughJson_map (entries : Fields) : (map entries).throughJson =
    map (Keyed.insertAllSorted [] (entries.map fun e => (e.1, e.2.throughJson))) := by
  have hmembers : entriesToMembers entries = entries.map fun e => (e.1, e.2.toJson) := by
    induction entries with
    | nil => rfl
    | cons e rest ih => rw [entriesToMembers, ih, List.map_cons]
  have hfields : ∀ members, Json.membersToFields members =
      members.map fun m => (m.1, m.2.toValue) := by
    intro members
    induction members with
    | nil => rfl
    | cons m rest ih => rw [Json.membersToFields, ih, List.map_cons]
  have hsorted : ∀ members : List (String × Json), Json.ofMembers members =
      .object (Keyed.insertAllSorted [] members) := by
    intro members
    simp only [Json.ofMembers, Keyed.insertAllSorted, insertMember_eq]
  rw [throughJson, toJson, hmembers, hsorted, Json.toValue, hfields, Keyed.insertAllSorted_map,
    List.map_map]
  rfl

theorem returned_sorted (entries : Fields) : returned .sorted entries =
    Keyed.insertAllSorted [] (entries.map fun e => (e.1, e.2.through .sorted)) := by
  refine (Keyed.insertAllSorted_map (Document.toValue .sorted) [] _).trans ?_
  rw [List.map_map]
  rfl

/-- Values go through JSON with the library that sorts. -/
theorem KeysOnce.throughJson_eq (hv : v.KeysOnce) : v.throughJson = v.through .sorted := by
  induction hv with
  | null | bool b | int i | string s => rfl
  | float x => rw [throughJson_float, through_float JsonLibrary.sorted_lawful]
  | @list items _ ih => rw [throughJson_list, through_list, List.map_congr_left ih]
  | @map entries hk _ ih =>
    have hmap : (entries.map fun e => (e.1, e.2.throughJson)) =
        entries.map fun e => (e.1, e.2.through .sorted) :=
      List.map_congr_left fun e he => Prod.ext rfl (ih e he)
    rw [throughJson_map, hmap, through_map JsonLibrary.sorted_lawful hk, returned_sorted]

/-- A second trip that sorts leaves everything as the first one did, also the order of entries. -/
theorem KeysOnce.throughJson_throughJson (hv : v.KeysOnce) :
    v.throughJson.throughJson = v.throughJson := by
  induction hv with
  | null | bool b | int i | string s => rfl
  | float x =>
    rw [throughJson_float, finite]
    split
    · rename_i hx
      rw [throughJson_float, finite, if_pos hx]
    · rfl
  | list _ ih =>
    rw [throughJson_list, throughJson_list, List.map_map]
    exact congrArg Value.list (List.map_congr_left ih)
  | @map entries hk _ ih =>
    rw [throughJson_map, throughJson_map]
    let back := entries.map fun e => (e.1, e.2.throughJson)
    have hperm : (Keyed.insertAllSorted [] back).Perm back :=
      Keyed.insertAllSorted_perm ((keys_map throughJson entries).symm ▸ hk)
    have hsame : ((Keyed.insertAllSorted [] back).map fun e => (e.1, e.2.throughJson)) =
        Keyed.insertAllSorted [] back := by
      refine map_eq_self fun e he => ?_
      obtain ⟨e', he', rfl⟩ := List.mem_map.mp (hperm.mem_iff.mp he)
      exact ih e' he'
    have hempty : Keyed.Sorted ([] : Fields) := List.Pairwise.nil
    have hsorted : Keyed.Sorted (Keyed.insertAllSorted [] back) := hempty.insertAllSorted back
    rw [hsame, Keyed.insertAllSorted_of_sorted hsorted]
    rfl

/-- A value survives a trip through JSON, apart from the order of map entries: it comes back with null
in the place of each float that is not finite, so as an equal value if all its floats are finite, and
a second trip changes nothing. This is so with every lawful library, and the one that sorts is such. -/
theorem json_round_trip (hlib : lib.Lawful) (hv : v.KeysOnce) :
    (v.through lib).Shuffled v.finite ∧
    ((∀ x ∈ v.floats, x.isFinite = true) → v.finite = v ∧ (v.through lib == v) = true) ∧
    ((v.through lib).through lib).Shuffled (v.through lib) ∧
    ((v.through lib).through lib == v.through lib) = true ∧
    v.throughJson = v.through .sorted ∧ v.throughJson.throughJson = v.throughJson ∧
    JsonLibrary.sorted.Lawful := by
  have htrip := hv.through_shuffled hlib
  have hsettled : (v.through lib).finite = v.through lib := htrip.finite_eq_self hv.finite_finite
  have hagain := htrip.keysOnce.through_shuffled hlib
  have hregular := htrip.keysOnce.finite_regular
  rw [hsettled] at hagain hregular
  refine ⟨htrip, fun hall => ?_, hagain, hagain.beq hregular, hv.throughJson_eq,
    hv.throughJson_throughJson, JsonLibrary.sorted_lawful⟩
  have hself := hv.finite_eq_self hall
  have hback := htrip.beq hv.finite_regular
  rw [hself] at hback
  exact ⟨hself, hback⟩

/-- A map in a list in a map, beside a NaN: the entries are sorted and the NaN becomes null. The inner
map has finite floats only, and one that is an integer stays a float. -/
theorem json_round_trip_nested :
    let inner : Value := .map [("y", .float ⟨0x3ff0000000000000⟩), ("x", .int 7)]
    let v : Value := .map [("b", .list [inner, .float Binary64.nan]), ("a", .bool true)]
    v.throughJson.Shuffled (.map [("b", .list [inner, .null]), ("a", .bool true)]) ∧
      v.throughJson.throughJson = v.throughJson ∧ (inner.throughJson == inner) = true := by
  intro inner v
  have hinner : inner.KeysOnce := .map (by decide) (List.forall_mem_cons.mpr
    ⟨.float _, List.forall_mem_cons.mpr ⟨.int 7, List.forall_mem_nil _⟩⟩)
  have hlist : KeysOnce (.list [inner, .float Binary64.nan]) := .list (List.forall_mem_cons.mpr
    ⟨hinner, List.forall_mem_cons.mpr ⟨.float _, List.forall_mem_nil _⟩⟩)
  have hv : v.KeysOnce := .map (by decide) (List.forall_mem_cons.mpr
    ⟨hlist, List.forall_mem_cons.mpr ⟨.bool true, List.forall_mem_nil _⟩⟩)
  obtain ⟨hback, -, -, -, hrun, hagain, -⟩ := json_round_trip JsonLibrary.sorted_lawful hv
  obtain ⟨-, hfinite, -, -, hrunInner, -, -⟩ := json_round_trip JsonLibrary.sorted_lawful hinner
  have hnull : v.finite = .map [("b", .list [inner, .null]), ("a", .bool true)] := rfl
  refine ⟨?_, hagain, ?_⟩
  · rwa [hrun, ← hnull]
  · rw [hrunInner]
    exact (hfinite (by decide)).2

end Value

end TypedConfig
