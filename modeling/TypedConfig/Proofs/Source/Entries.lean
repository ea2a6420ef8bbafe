import TypedConfig.Proofs.Keyed
import TypedConfig.Proofs.Name.Built
import TypedConfig.Source.Basic

/-!
# Entries of a source in memory

`Entries.Built` are the entries that putting in and taking out give. Their names are well formed
(`Entries.Built.wellFormed`), so a name is held exactly if a name of its meaning is listed
(`Entries.find?_isSome`).
-/

namespace TypedConfig

namespace Entries

/-- Entries that putting in and taking out give. -/
inductive Built : Entries → Prop
  | empty : Built []
  | insert {held : Entries} (h : Built held) (key : String) (value : Value) :
      Built (held.insert key value)
  | remove {held : Entries} (h : Built held) (key : String) : Built (held.remove key)

theorem Built.ofList (pairs : List (String × Value)) : Built (ofList pairs) := by
  suffices h : ∀ held, Built held →
      Built (pairs.foldl (fun held pair => held.insert pair.1 pair.2) held) from h _ .empty
  induction pairs with
  | nil => exact fun _ h => h
  | cons pair rest ih => exact fun held h => ih _ (h.insert pair.1 pair.2)

/-- Each name can be built and is not the root. -/
theorem Built.mem_names {held : Entries} (h : Built held) :
    ∀ n ∈ held.names, n.Built ∧ n.isEmpty = false := by
  induction h with
  | empty => intro n hn; cases hn
  | insert h key value ih =>
    intro n hn
    unfold Entries.insert at hn
    simp only at hn
    split at hn
    · exact ih n hn
    · rename_i hkey
      rcases Keyed.mem_keys_insert hn with rfl | hn
      · exact ⟨.adapt key '.', Bool.eq_false_iff.mpr hkey⟩
      · exact ih n hn
  | @remove held h key ih =>
    exact fun n hn => ih n (((Keyed.erase_sublist _ held).map _).mem hn)

theorem Built.names {held : Entries} (h : Built held) : ∀ n ∈ held.names, n.Built :=
  fun n hn => (h.mem_names n hn).1

/-- No two names are equal. -/
theorem Built.apart {held : Entries} (h : Built held) :
    held.names.Pairwise fun m n => (m == n) = false := by
  induction h with
  | empty => exact .nil
  | insert h key value ih =>
    unfold Entries.insert
    simp only
    split
    · exact ih
    · exact Keyed.pairwise_keys_insert ih _
  | @remove held h key ih => exact ih.sublist ((Keyed.erase_sublist _ held).map _)

/-- All names are well formed. -/
def WellFormed (held : Entries) : Prop := ∀ n ∈ held.names, n.WellFormed

theorem Built.wellFormed {held : Entries} (h : Built held) : held.WellFormed :=
  fun n hn => (h.names n hn).wellFormed

/-- What is listed is found under its name. -/
theorem Built.find?_name {held : Entries} (h : Built held) {e : Name × Entry} (he : e ∈ held) :
    Keyed.find? e.1 held = some e.2 := by
  have hname : ∀ e ∈ held, e.1.WellFormed := fun e he => h.wellFormed e.1 (List.mem_map_of_mem he)
  refine Keyed.find?_of_pairwise ((List.pairwise_map.mp h.apart).imp_of_mem ?_) he
    ((Name.beq_iff (hname e he) (hname e he)).mpr rfl)
  intro p q hp hq hpq hqe
  refine Bool.eq_false_iff.mpr fun hpe => ?_
  rw [Name.beq_iff (hname p hp) (hname e he)] at hpe
  rw [Name.beq_iff (hname q hq) (hname e he)] at hqe
  rw [(Name.beq_iff (hname p hp) (hname q hq)).mpr (hpe.trans hqe.symm)] at hpq
  cases hpq

variable {held : Entries}

/-- A name is held if a listed name means the same. -/
theorem find?_isSome (h : held.WellFormed) {n : Name} (hn : n.WellFormed) :
    (Keyed.find? n held).isSome = true ↔ ∃ k ∈ held.names, k.meaning = n.meaning := by
  rw [Keyed.find?_isSome]
  constructor
  · rintro ⟨k, hk, heq⟩
    exact ⟨k, hk, (Name.beq_iff (h k hk) hn).mp heq⟩
  · rintro ⟨k, hk, heq⟩
    exact ⟨k, hk, (Name.beq_iff (h k hk) hn).mpr heq⟩

end Entries

end TypedConfig
