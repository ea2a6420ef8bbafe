import Mathlib.Data.String.Basic
import TypedConfig.Proofs.Keyed

/-!
# Entries in the order of their keys

Entries whose keys are texts can be held in the order of the keys. Putting in pairs of which no key
repeats loses none (`Keyed.insertAllSorted_perm`), leaves the keys in order
(`Keyed.Sorted.insertAllSorted`), and changes nothing where they are in order already
(`Keyed.insertAllSorted_of_sorted`).
-/

namespace TypedConfig.Keyed

variable {α β : Type} {key : String} {entries new : List (String × α)}

/-- The entries with a value under a key. Sorted ones stay sorted. -/
def insertSorted (key : String) (value : α) : List (String × α) → List (String × α)
  | [] => [(key, value)]
  | (k, v) :: rest =>
    if key = k then (key, value) :: rest
    else if key < k then (key, value) :: (k, v) :: rest
    else (k, v) :: insertSorted key value rest

/-- The sorted entries with all pairs of a second list put in, in order. -/
def insertAllSorted (entries new : List (String × α)) : List (String × α) :=
  new.foldl (fun held (key, value) => insertSorted key value held) entries

/-- A new key stands somewhere among the others. -/
theorem insertSorted_perm (h : key ∉ entries.map (·.1)) (value : α) :
    (insertSorted key value entries).Perm ((key, value) :: entries) := by
  induction entries with
  | nil => exact .refl _
  | cons entry rest ih =>
    obtain ⟨k, v⟩ := entry
    have hne : key ≠ k := List.ne_of_not_mem_cons h
    rw [insertSorted, if_neg hne]
    split
    · exact .refl _
    · exact ((ih (List.not_mem_of_not_mem_cons h)).cons _).trans (.swap _ _ _)

/-- No pair is lost where no key repeats. -/
theorem insertAllSorted_perm (h : ((entries ++ new).map (·.1)).Nodup) :
    (insertAllSorted entries new).Perm (entries ++ new) := by
  induction new generalizing entries with
  | nil => simp [insertAllSorted]
  | cons pair rest ih =>
    obtain ⟨k, v⟩ := pair
    have hmid : (entries ++ (k, v) :: rest).Perm ((k, v) :: entries ++ rest) := List.perm_middle
    have hcons : ((k :: entries.map (·.1)) ++ rest.map (·.1)).Nodup := by
      simpa using (hmid.map (·.1)).nodup_iff.mp h
    have hk : k ∉ entries.map (·.1) := fun hmem =>
      (List.nodup_cons.mp hcons).1 (List.mem_append_left _ hmem)
    have hins : (insertSorted k v entries).Perm ((k, v) :: entries) := insertSorted_perm hk v
    have hnodup : ((insertSorted k v entries ++ rest).map (·.1)).Nodup := by
      refine (((hins.append_right rest).map (·.1)).nodup_iff).mpr ?_
      simpa using hcons
    exact ((ih hnodup).trans (hins.append_right rest)).trans hmid.symm

/-- Values may be changed before or after. -/
theorem insertSorted_map (f : α → β) (key : String) (value : α) (entries : List (String × α)) :
    (insertSorted key value entries).map (fun e => (e.1, f e.2)) =
      insertSorted key (f value) (entries.map fun e => (e.1, f e.2)) := by
  induction entries with
  | nil => rfl
  | cons entry rest ih =>
    obtain ⟨k, v⟩ := entry
    simp only [insertSorted, List.map_cons]
    split
    · rfl
    · split
      · rfl
      · rw [List.map_cons, ih]

theorem insertAllSorted_map (f : α → β) (entries new : List (String × α)) :
    (insertAllSorted entries new).map (fun e => (e.1, f e.2)) =
      insertAllSorted (entries.map fun e => (e.1, f e.2)) (new.map fun e => (e.1, f e.2)) := by
  induction new generalizing entries with
  | nil => rfl
  | cons pair rest ih =>
    obtain ⟨k, v⟩ := pair
    exact (ih (insertSorted k v entries)).trans
      (congrArg (insertAllSorted · _) (insertSorted_map f k v entries))

/-- The keys are in their order, and none repeats. -/
def Sorted (entries : List (String × α)) : Prop := (entries.map (·.1)).Pairwise (· < ·)

theorem mem_keys_insertSorted {k : String} {value : α}
    (h : k ∈ (insertSorted key value entries).map (·.1)) : k = key ∨ k ∈ entries.map (·.1) := by
  induction entries with
  | nil => exact .inl (by simpa [insertSorted] using h)
  | cons entry rest ih =>
    unfold insertSorted at h
    split at h
    · exact (List.mem_cons.mp h).imp_right (List.mem_cons_of_mem _)
    · split at h
      · exact List.mem_cons.mp h
      · rcases List.mem_cons.mp h with h | h
        · exact .inr (List.mem_cons.mpr (.inl h))
        · exact (ih h).imp_right (List.mem_cons_of_mem _)

theorem Sorted.insertSorted (h : Sorted entries) (key : String) (value : α) :
    Sorted (insertSorted key value entries) := by
  induction entries with
  | nil => exact List.pairwise_singleton _ _
  | cons entry rest ih =>
    obtain ⟨k, v⟩ := entry
    obtain ⟨hk, hrest⟩ := List.pairwise_cons.mp h
    unfold Keyed.insertSorted
    split
    · rename_i heq
      exact heq ▸ h
    · split
      · rename_i hlt
        refine List.pairwise_cons.mpr ⟨?_, h⟩
        exact List.forall_mem_cons.mpr ⟨hlt, fun k' hk' => hlt.trans (hk k' hk')⟩
      · rename_i hne hnot
        refine List.pairwise_cons.mpr ⟨fun k' hk' => ?_, ih hrest⟩
        rcases mem_keys_insertSorted hk' with rfl | hk'
        · exact lt_of_le_of_ne (not_lt.mp hnot) (Ne.symm hne)
        · exact hk k' hk'

theorem Sorted.insertAllSorted (h : Sorted entries) (new : List (String × α)) :
    Sorted (insertAllSorted entries new) := by
  induction new generalizing entries with
  | nil => exact h
  | cons pair rest ih => exact ih (h.insertSorted pair.1 pair.2)

/-- A key behind all others is put at the end. -/
theorem insertSorted_of_lt (h : ∀ k ∈ entries.map (·.1), k < key) (value : α) :
    insertSorted key value entries = entries ++ [(key, value)] := by
  induction entries with
  | nil => rfl
  | cons entry rest ih =>
    obtain ⟨hk, hrest⟩ := List.forall_mem_cons.mp h
    rw [insertSorted, if_neg (ne_of_gt hk), if_neg hk.asymm, ih hrest, List.cons_append]

/-- Sorted pairs are put in as they come. -/
theorem insertAllSorted_of_sorted (h : Sorted (entries ++ new)) :
    insertAllSorted entries new = entries ++ new := by
  induction new generalizing entries with
  | nil => simp [insertAllSorted]
  | cons pair rest ih =>
    obtain ⟨k, v⟩ := pair
    have hbefore : ∀ k' ∈ entries.map (·.1), k' < k := fun k' hk' => by
      rw [Sorted, List.map_append] at h
      exact (List.pairwise_append.mp h).2.2 k' hk' k (.head _)
    have hstep : insertAllSorted entries ((k, v) :: rest) =
        insertAllSorted (insertSorted k v entries) rest := rfl
    rw [hstep, insertSorted_of_lt hbefore, ih (by simpa using h), List.append_assoc]
    rfl

end TypedConfig.Keyed
