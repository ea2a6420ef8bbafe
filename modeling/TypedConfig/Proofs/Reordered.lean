import TypedConfig.Proofs.Keyed
import TypedConfig.Value.Basic

/-!
# Entries in another order

Two lists of entries are the same apart from their order if each is a permutation of the other and the
same is found under each key: a key may occur twice, and then the first occurrence counts. Values put
in under different keys come to the same in either order (`Keyed.Reordered.insert_comm`), apart from
the order of new keys.

* `Keyed.Reordered`: lists of entries, and `Value.Reordered`: values, apart from the order of the
  entries of a map.
-/

namespace TypedConfig

namespace Keyed

variable {κ α : Type} [BEq κ]

/-- The lists have the same entries in some order, and the same under each key. -/
structure Reordered (entries entries' : List (κ × α)) : Prop where
  perm : entries.Perm entries'
  find? : ∀ key, find? key entries = Keyed.find? key entries'

variable {key other : κ} {v w : α} {entries entries' entries'' : List (κ × α)}

/-! ## Putting in, up to the order -/

/-- An entry that is found stands somewhere among the others. -/
theorem perm_cons_erase [LawfulBEq κ] (h : find? key entries = some v) :
    entries.Perm ((key, v) :: erase key entries) := by
  induction entries with
  | nil => cases h
  | cons entry rest ih =>
    obtain ⟨k, x⟩ := entry
    by_cases hk : k == key
    · have hx : x = v := by simpa [find?, hk] using h
      simp [erase, hx, beq_iff_eq.mp hk]
    · have h : find? key rest = some v := by simpa [find?, hk] using h
      simp only [erase, hk]
      exact ((ih h).cons (k, x)).trans (.swap _ _ _)

/-- Putting in is taking out and adding. -/
theorem insert_perm [LawfulBEq κ] (key : κ) (v : α) (entries : List (κ × α)) :
    (insert key v entries).Perm ((key, v) :: erase key entries) := by
  induction entries with
  | nil => exact .refl _
  | cons entry rest ih =>
    obtain ⟨k, x⟩ := entry
    by_cases hk : k == key
    · simp [insert, erase, beq_iff_eq.mp hk]
    · simp only [insert, erase, hk]
      exact (ih.cons (k, x)).trans (.swap _ _ _)

theorem erase_of_find?_eq_none (h : find? key entries = none) : erase key entries = entries := by
  induction entries with
  | nil => rfl
  | cons entry rest ih =>
    obtain ⟨k, x⟩ := entry
    by_cases hk : k == key
    · simp [find?, hk] at h
    · have h : find? key rest = none := by simpa [find?, hk] using h
      simp [erase, hk, ih h]

theorem erase_comm [LawfulBEq κ] (key other : κ) (entries : List (κ × α)) :
    erase key (erase other entries) = erase other (erase key entries) := by
  induction entries with
  | nil => rfl
  | cons entry rest ih =>
    obtain ⟨k, x⟩ := entry
    by_cases hk : k = key <;> by_cases ho : k = other <;> simp_all [erase]

theorem erase_insert_of_ne [LawfulBEq κ] (h : key ≠ other) (v : α) (entries : List (κ × α)) :
    erase other (insert key v entries) = insert key v (erase other entries) := by
  induction entries with
  | nil => simp [insert, erase, h]
  | cons entry rest ih =>
    obtain ⟨k, x⟩ := entry
    by_cases hk : k = key
    · subst hk
      simp [insert, erase, h]
    · by_cases ho : k = other <;> simp_all [insert, erase]

/-! ## The same apart from the order -/

namespace Reordered

theorem refl (entries : List (κ × α)) : Reordered entries entries := ⟨.refl _, fun _ => rfl⟩

theorem trans (h : Reordered entries entries') (h' : Reordered entries' entries'') :
    Reordered entries entries'' :=
  ⟨h.perm.trans h'.perm, fun key => (h.find? key).trans (h'.find? key)⟩

theorem erase_perm [LawfulBEq κ] (h : Reordered entries entries') (key : κ) :
    (erase key entries).Perm (erase key entries') := by
  have hfind := h.find? key
  cases hf : Keyed.find? key entries with
  | none =>
    rw [erase_of_find?_eq_none hf, erase_of_find?_eq_none (hfind ▸ hf)]
    exact h.perm
  | some v =>
    have hleft := perm_cons_erase hf
    have hright := perm_cons_erase (hfind ▸ hf)
    exact ((hleft.symm.trans h.perm).trans hright).cons_inv

/-- The same value put in under the same key. -/
theorem insert [LawfulBEq κ] (h : Reordered entries entries') (key : κ) (v : α) :
    Reordered (insert key v entries) (Keyed.insert key v entries') where
  perm := (insert_perm key v entries).trans
    (((h.erase_perm key).cons _).trans (insert_perm key v entries').symm)
  find? k := by
    by_cases hk : key = k
    · subst hk
      rw [find?_insert_self, find?_insert_self]
    · rw [find?_insert_of_ne hk, find?_insert_of_ne hk]
      exact h.find? k

/-- Values under different keys come to the same in either order. -/
theorem insert_comm [LawfulBEq κ] (h : key ≠ other) (v w : α) (entries : List (κ × α)) :
    Reordered (Keyed.insert key v (Keyed.insert other w entries))
      (Keyed.insert other w (Keyed.insert key v entries)) where
  perm := by
    have hleft := insert_perm key v (Keyed.insert other w entries)
    have hright := insert_perm other w (Keyed.insert key v entries)
    rw [erase_insert_of_ne h.symm] at hleft
    rw [erase_insert_of_ne h] at hright
    have hboth : ((key, v) :: Keyed.insert other w (erase key entries)).Perm
        ((other, w) :: Keyed.insert key v (erase other entries)) := by
      refine ((insert_perm other w _).cons _).trans ((List.Perm.swap _ _ _).trans ?_)
      rw [erase_comm]
      exact (insert_perm key v _).symm.cons _
    exact (hleft.trans hboth).trans hright.symm
  find? k := by
    by_cases hk : key = k
    · subst hk
      rw [find?_insert_self, find?_insert_of_ne h.symm, find?_insert_self]
    · rw [find?_insert_of_ne hk]
      by_cases ho : other = k
      · subst ho
        rw [find?_insert_self, find?_insert_self]
      · rw [find?_insert_of_ne ho, find?_insert_of_ne ho, find?_insert_of_ne hk]

end Reordered

end Keyed

/-- The values are the same, apart from the order of the entries if they are maps. -/
inductive Value.Reordered : Value → Value → Prop
  | same (v : Value) : Reordered v v
  | map {entries entries' : Fields} (h : Keyed.Reordered entries entries') :
      Reordered (.map entries) (.map entries')

end TypedConfig
