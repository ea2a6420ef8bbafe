/-!
# Lists with one entry for each key

A list of pairs that keeps the order in which its keys came. `Keyed.insert` puts a value under a
key: where an equal key is held, that one keeps its place and its spelling, and takes the value.
Keys are equal as `==` says.
-/

namespace TypedConfig.Keyed

variable {κ α : Type} [BEq κ]

/-- The list with a value under a key. -/
def insert (key : κ) (value : α) : List (κ × α) → List (κ × α)
  | [] => [(key, value)]
  | (k, v) :: rest => if k == key then (k, value) :: rest else (k, v) :: insert key value rest

/-- The value under a key. -/
def find? (key : κ) : List (κ × α) → Option α
  | [] => none
  | (k, v) :: rest => if k == key then some v else find? key rest

/-- The list without the entry of a key. -/
def erase (key : κ) : List (κ × α) → List (κ × α)
  | [] => []
  | (k, v) :: rest => if k == key then rest else (k, v) :: erase key rest

/-- The list with all pairs of a second one put in, in order. -/
def insertAll (entries new : List (κ × α)) : List (κ × α) :=
  new.foldl (fun held (key, value) => insert key value held) entries

/-- The pairs with one entry for each key. -/
def ofList (pairs : List (κ × α)) : List (κ × α) := insertAll [] pairs

theorem find?_insert_self [EquivBEq κ] (key : κ) (value : α) (entries : List (κ × α)) :
    find? key (insert key value entries) = some value := by
  induction entries with
  | nil => simp [insert, find?]
  | cons entry rest ih =>
    obtain ⟨k, v⟩ := entry
    by_cases h : k == key <;> simp [insert, find?, h, ih]

theorem find?_insert_ne [EquivBEq κ] {key other : κ} (value : α) (entries : List (κ × α))
    (h : (key == other) = false) :
    find? other (insert key value entries) = find? other entries := by
  induction entries with
  | nil => simp [insert, find?, h]
  | cons entry rest ih =>
    obtain ⟨k, v⟩ := entry
    by_cases hk : k == key
    · have : (k == other) = false := by
        rw [BEq.congr_left hk]; exact h
      simp [insert, find?, hk, this]
    · by_cases ho : k == other <;> simp [insert, find?, hk, ho, ih]

end TypedConfig.Keyed
