import TypedConfig.Proofs.Sorted
import TypedConfig.Proofs.Value.Regular

/-!
# Values up to the order of entries

Two values that are the same apart from the order of map entries, at every depth, are equal if there
is no NaN in them (`Value.Shuffled.beq`).

* `Value.finite`: the value with null in the place of each float that is not finite.
* `Value.floats`: the floats in a value.
* `Value.KeysOnce`: maps hold each key once, at every depth.
* `Value.Shuffled`: the same apart from the order of map entries, at every depth. (`Value.Reordered`
  looks at the outermost map only.)
-/

namespace TypedConfig.Value

open Number

/-! ## Floats -/

mutual

/-- The value with null in the place of each float that is not finite. -/
def finite : Value → Value
  | null => null
  | bool b => bool b
  | int i => int i
  | float x => if x.isFinite then float x else null
  | string s => string s
  | list items => list (finiteItems items)
  | map entries => map (finiteEntries entries)

def finiteItems : List Value → List Value
  | [] => []
  | v :: rest => v.finite :: finiteItems rest

def finiteEntries : Fields → Fields
  | [] => []
  | (key, v) :: rest => (key, v.finite) :: finiteEntries rest

end

mutual

/-- The floats in the value, at every depth. -/
def floats : Value → List Binary64
  | null | bool _ | int _ | string _ => []
  | float x => [x]
  | list items => floatsOfItems items
  | map entries => floatsOfEntries entries

def floatsOfItems : List Value → List Binary64
  | [] => []
  | v :: rest => v.floats ++ floatsOfItems rest

def floatsOfEntries : Fields → List Binary64
  | [] => []
  | (_, v) :: rest => v.floats ++ floatsOfEntries rest

end

theorem finite_list (items : List Value) : (list items).finite = list (items.map finite) := by
  have hitems : finiteItems items = items.map finite := by
    induction items with
    | nil => rfl
    | cons v rest ih => rw [finiteItems, ih, List.map_cons]
  rw [finite, hitems]

theorem finite_map (entries : Fields) :
    (map entries).finite = map (entries.map fun e => (e.1, e.2.finite)) := by
  have hentries : finiteEntries entries = entries.map fun e => (e.1, e.2.finite) := by
    induction entries with
    | nil => rfl
    | cons e rest ih => rw [finiteEntries, ih, List.map_cons]
  rw [finite, hentries]

theorem floats_list (items : List Value) : (list items).floats = items.flatMap floats := by
  have hitems : floatsOfItems items = items.flatMap floats := by
    induction items with
    | nil => rfl
    | cons v rest ih => rw [floatsOfItems, ih, List.flatMap_cons]
  rw [floats, hitems]

theorem floats_map (entries : Fields) : (map entries).floats = entries.flatMap (·.2.floats) := by
  have hentries : floatsOfEntries entries = entries.flatMap (·.2.floats) := by
    induction entries with
    | nil => rfl
    | cons e rest ih => rw [floatsOfEntries, ih, List.flatMap_cons]
  rw [floats, hentries]

/-! ## Maps that hold each key once -/

/-- The maps in the value hold each key once, as maps do. -/
inductive KeysOnce : Value → Prop
  | null : KeysOnce .null
  | bool (b : Bool) : KeysOnce (.bool b)
  | int (i : Int64) : KeysOnce (.int i)
  | float (x : Binary64) : KeysOnce (.float x)
  | string (s : String) : KeysOnce (.string s)
  | list {items : List Value} (h : ∀ v ∈ items, KeysOnce v) : KeysOnce (.list items)
  | map {entries : Fields} (hk : (entries.map (·.1)).Nodup) (h : ∀ e ∈ entries, KeysOnce e.2) :
      KeysOnce (.map entries)

/-- The values are the same, apart from the order in which maps hold their entries, at every
depth. -/
inductive Shuffled : Value → Value → Prop
  | scalar {v : Value} (h : v.isScalar = true) : Shuffled v v
  | list {items items' : List Value} (hlength : items.length = items'.length)
      (h : ∀ (i : Nat) v w, items[i]? = some v → items'[i]? = some w → Shuffled v w) :
      Shuffled (.list items) (.list items')
  | map {entries entries' : Fields} (hk : (entries.map (·.1)).Nodup)
      (hperm : (entries.map (·.1)).Perm (entries'.map (·.1)))
      (h : ∀ key v w, Keyed.find? key entries = some v → Keyed.find? key entries' = some w →
        Shuffled v w) :
      Shuffled (.map entries) (.map entries')

variable {v w : Value} {entries entries' : Fields}

theorem keys_map (f : Value → Value) (entries : Fields) :
    (entries.map fun e => (e.1, f e.2)).map (·.1) = entries.map (·.1) := by
  rw [List.map_map]
  rfl

theorem map_eq_self {f : Value → Value} (h : ∀ e ∈ entries, f e.2 = e.2) :
    (entries.map fun e => (e.1, f e.2)) = entries := by
  have hsame : ∀ e ∈ entries, (e.1, f e.2) = e := fun e he => Prod.ext rfl (h e he)
  rw [List.map_congr_left hsame, List.map_id']

/-- Without floats that are not finite, there is no NaN in the value. -/
theorem KeysOnce.finite_regular (hv : v.KeysOnce) : v.finite.Regular := by
  induction hv with
  | null => exact .null
  | bool b => exact .bool b
  | int i => exact .int i
  | float x =>
    rw [finite]
    split
    · rename_i hx
      refine .float ?_
      have hexp : (x.exponent == 2047) = false := bne_iff_ne.mp hx |> beq_false_of_ne
      rw [Binary64.isNaN, hexp, Bool.false_and]
    · exact .null
  | string s => exact .string s
  | list _ ih =>
    rw [finite_list]
    exact .list (List.forall_mem_map.mpr ih)
  | @map entries hk _ ih =>
    rw [finite_map]
    exact .map (keys_map finite entries ▸ hk) (List.forall_mem_map.mpr ih)

/-- A value with finite floats only is as it was. -/
theorem KeysOnce.finite_eq_self (hv : v.KeysOnce) (h : ∀ x ∈ v.floats, x.isFinite = true) :
    v.finite = v := by
  induction hv with
  | null | bool b | int i | string s => rfl
  | float x => rw [finite, if_pos (h x (.head _))]
  | @list items _ ih =>
    rw [floats_list] at h
    have hitems : ∀ v ∈ items, v.finite = v := fun v hv =>
      ih v hv fun x hx => h x (List.mem_flatMap_of_mem hv hx)
    rw [finite_list, List.map_congr_left hitems, List.map_id']
  | @map entries _ _ ih =>
    rw [floats_map] at h
    have hentries : ∀ e ∈ entries, e.2.finite = e.2 := fun e he =>
      ih e he fun x hx => h x (List.mem_flatMap_of_mem he hx)
    rw [finite_map, map_eq_self hentries]

theorem KeysOnce.finite_finite (hv : v.KeysOnce) : v.finite.finite = v.finite := by
  induction hv with
  | null | bool b | int i | string s => rfl
  | float x => cases hx : x.isFinite <;> simp [finite, hx]
  | list _ ih =>
    rw [finite_list, finite_list, List.map_map]
    exact congrArg Value.list (List.map_congr_left ih)
  | map _ _ ih =>
    rw [finite_map, finite_map, List.map_map]
    exact congrArg Value.map (List.map_congr_left fun e he => Prod.ext rfl (ih e he))

/-! ## Up to the order of entries -/

/-- What is held under a key on one side is held on the other. -/
theorem exists_find?_of_perm (hperm : (entries.map (·.1)).Perm (entries'.map (·.1)))
    {e : String × Value} (he : e ∈ entries) : ∃ w, Keyed.find? e.1 entries' = some w := by
  rw [← Option.isSome_iff_exists, Keyed.find?_isSome]
  exact ⟨e.1, hperm.mem_iff.mp (List.mem_map_of_mem he), BEq.rfl⟩

/-- Where something stands on one side, something stands on the other. -/
theorem exists_getElem?_of_length {items items' : List Value} (hlength : items.length = items'.length)
    (hv : v ∈ items) : ∃ (i : Nat) (w : Value), items[i]? = some v ∧ items'[i]? = some w := by
  obtain ⟨i, hi, rfl⟩ := List.mem_iff_getElem.mp hv
  exact ⟨i, _, List.getElem?_eq_getElem hi, List.getElem?_eq_getElem (hlength ▸ hi)⟩

theorem Shuffled.keysOnce (h : v.Shuffled w) : v.KeysOnce := by
  induction h with
  | @scalar v h =>
    cases v with
    | null => exact .null
    | bool b => exact .bool b
    | int i => exact .int i
    | float x => exact .float x
    | string s => exact .string s
    | list items => cases h
    | map entries => cases h
  | list hlength _ ih =>
    refine .list fun v hv => ?_
    obtain ⟨i, w, hi, hi'⟩ := exists_getElem?_of_length hlength hv
    exact ih i v w hi hi'
  | map hk hperm _ ih =>
    refine .map hk fun e he => ?_
    obtain ⟨w, hw⟩ := exists_find?_of_perm hperm he
    exact ih e.1 _ w (Keyed.find?_of_mem hk he) hw

/-- If no float is changed on one side, none is on the other. -/
theorem Shuffled.finite_eq_self (h : v.Shuffled w) (hw : w.finite = w) : v.finite = v := by
  induction h with
  | scalar _ => exact hw
  | @list items items' hlength _ ih =>
    rw [finite_list] at hw
    have hsame : ∀ v ∈ items, v.finite = v := fun v hv => by
      obtain ⟨i, w, hi, hi'⟩ := exists_getElem?_of_length hlength hv
      refine ih i v w hi hi' ?_
      have hmap : (items'.map finite)[i]? = items'[i]? := by rw [Value.list.inj hw]
      rw [List.getElem?_map, hi'] at hmap
      exact Option.some.inj hmap
    rw [finite_list, List.map_congr_left hsame, List.map_id']
  | @map entries entries' hk hperm _ ih =>
    rw [finite_map] at hw
    have hsame : ∀ e ∈ entries, e.2.finite = e.2 := fun e he => by
      obtain ⟨w, hfind⟩ := exists_find?_of_perm hperm he
      refine ih e.1 _ w (Keyed.find?_of_mem hk he) hfind ?_
      have hmap : Keyed.find? e.1 (entries'.map fun e => (e.1, e.2.finite)) =
          Keyed.find? e.1 entries' := by rw [Value.map.inj hw]
      rw [Keyed.find?_map_values, hfind] at hmap
      exact Option.some.inj hmap
    rw [finite_map, map_eq_self hsame]

theorem itemsEqual_of_getElem? {items items' : List Value} (hlength : items.length = items'.length)
    (h : ∀ (i : Nat) v w, items[i]? = some v → items'[i]? = some w → (v == w) = true) :
    itemsEqual items items' = true := by
  induction items generalizing items' with
  | nil =>
    rw [List.eq_nil_of_length_eq_zero hlength.symm]
    rfl
  | cons v rest ih =>
    cases items' with
    | nil => cases hlength
    | cons w rest' =>
      rw [itemsEqual, Bool.and_eq_true]
      exact ⟨h 0 v w rfl rfl, ih (Nat.succ.inj hlength) fun i => h (i + 1)⟩

/-- Values without NaN are equal up to the order of entries. -/
theorem Shuffled.beq (h : v.Shuffled w) (hw : w.Regular) : (v == w) = true := by
  induction h with
  | scalar _ => exact hw.beq_self
  | list hlength _ ih =>
    refine itemsEqual_of_getElem? hlength fun i v w hv hw' => ?_
    exact ih i v w hv hw' (hw.items w (List.mem_of_getElem? hw'))
  | @map entries entries' hk hperm _ ih =>
    have hlength : entries.length = entries'.length := by simpa using hperm.length_eq
    have hheld : entriesHeld entries entries' = true := by
      refine entriesHeld_of_mem fun e he => ?_
      obtain ⟨w, hfind⟩ := exists_find?_of_perm hperm he
      exact ⟨w, hfind, ih e.1 _ w (Keyed.find?_of_mem hk he) hfind (hw.find? hfind)⟩
    show (entries.length == entries'.length && entriesHeld entries entries') = true
    simp [hlength, hheld]

end TypedConfig.Value
