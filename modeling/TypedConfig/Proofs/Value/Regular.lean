import TypedConfig.Proofs.Keyed
import TypedConfig.Value.Basic

/-!
# Values that are equal to themselves

A NaN differs from itself, and so does every value with a NaN inside. `Value.Regular` are the values
without: they are equal to themselves (`Value.Regular.beq_self`). A map is written as the list of its
entries, and holds each key once.
-/

namespace TypedConfig.Value

open Number

/-- There is no NaN in the value, and its maps hold each key once, as maps do. -/
inductive Regular : Value → Prop
  | null : Regular .null
  | bool (b : Bool) : Regular (.bool b)
  | int (i : Int64) : Regular (.int i)
  | float {x : Binary64} (h : x.isNaN = false) : Regular (.float x)
  | string (s : String) : Regular (.string s)
  | list {items : List Value} (h : ∀ v ∈ items, Regular v) : Regular (.list items)
  | map {entries : Fields} (hk : (entries.map (·.1)).Nodup) (h : ∀ e ∈ entries, Regular e.2) :
      Regular (.map entries)

variable {values : List Value} {entries held : Fields}

theorem Regular.items (h : Regular (.list values)) : ∀ v ∈ values, v.Regular := by
  cases h with
  | list h => exact h

/-- What is found in a regular map is regular. -/
theorem Regular.find? (h : Regular (.map entries)) {key : String} {v : Value}
    (hv : Keyed.find? key entries = some v) : v.Regular := by
  cases h with
  | map _ h => exact h _ (Keyed.mem_of_find?_eq_some hv)

theorem itemsEqual_self (h : ∀ v ∈ values, (v == v) = true) : itemsEqual values values = true := by
  induction values with
  | nil => rfl
  | cons v rest ih =>
    obtain ⟨hv, hrest⟩ := List.forall_mem_cons.mp h
    simp only [itemsEqual, Bool.and_eq_true]
    exact ⟨hv, ih hrest⟩

theorem entriesHeld_of_mem
    (h : ∀ e ∈ entries, ∃ w, Keyed.find? e.1 held = some w ∧ (e.2 == w) = true) :
    entriesHeld entries held = true := by
  induction entries with
  | nil => rfl
  | cons e rest ih =>
    obtain ⟨⟨w, hw, heq⟩, hrest⟩ := List.forall_mem_cons.mp h
    simp only [entriesHeld, hw, Bool.and_eq_true]
    exact ⟨heq, ih hrest⟩

/-- A regular value is equal to itself. -/
theorem Regular.beq_self {v : Value} (h : v.Regular) : (v == v) = true := by
  induction h with
  | null => rfl
  | bool b => exact beq_self_eq_true b
  | int i => exact beq_self_eq_true i
  | @float x h =>
    show x.equals x = true
    simp [Binary64.equals, h]
  | string s => exact beq_self_eq_true s
  | list _ ih => exact itemsEqual_self ih
  | @map entries hk _ ih =>
    have hheld : entriesHeld entries entries = true :=
      entriesHeld_of_mem fun e he => ⟨e.2, Keyed.find?_of_mem hk he, ih e he⟩
    show (entries.length == entries.length && entriesHeld entries entries) = true
    simp [hheld]

end TypedConfig.Value
