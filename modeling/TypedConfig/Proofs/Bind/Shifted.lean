import TypedConfig.Bind.Collection
import TypedConfig.Bind.Dictionary
import TypedConfig.Proofs.Name.Built

/-!
# Names below a prefix

`Name.Shifted p n n'` says that `n'` means the prefix `p` followed by `n`. Whatever binding works out
from names, it works out alike for names and shifted names: which are equal, which lie below which,
where an item counts, which entry of a map a name belongs to and with which key.

* `Name.Shifted.of_drop`: a name below the prefix is what is left of it without the prefix, shifted.
* `Name.Shifted.beq`, `Name.Shifted.isAncestorOf`, `Name.Shifted.positionIn?`: comparisons.
* `Binder.entryName_drop`, `Binder.entryKey_drop`: the entries of maps.
-/

namespace TypedConfig

namespace Name

/-- `n'` means the prefix followed by `n`, which is not the root. -/
structure Shifted (p n n' : Name) : Prop where
  built : n.Built
  built' : n'.Built
  nonempty : n.isEmpty = false
  meaning : n'.meaning = p.meaning ++ n.meaning

namespace Shifted

variable {p k l m n n' x y : Name}

theorem length (h : Shifted p n n') : n'.length = p.length + n.length := by
  simpa using congrArg List.length h.meaning

theorem length_pos (h : Shifted p n n') : 0 < n.length := isEmpty_eq_false_iff.mp h.nonempty

theorem nonempty' (h : Shifted p n n') : n'.isEmpty = false := by
  have hl := h.length
  have hn := h.length_pos
  exact isEmpty_eq_false_iff.mpr (by omega)

theorem append (h : Shifted p n n') (hk : k.Built) : Shifted p (n ++ k) (n' ++ k) where
  built := .append h.built hk
  built' := .append h.built' hk
  nonempty := by
    have hn := h.length_pos
    refine isEmpty_eq_false_iff.mpr ?_
    simp only [Name.length, elements_append, List.length_append] at hn ⊢
    omega
  meaning := by rw [meaning_append, meaning_append, h.meaning, List.append_assoc]

theorem take (h : Shifted p n n') {i : Nat} (hi : 0 < i) :
    Shifted p (n.take i) (n'.take (p.length + i)) where
  built := .take h.built i
  built' := .take h.built' _
  nonempty := by
    have hn := h.length_pos
    refine isEmpty_eq_false_iff.mpr ?_
    simp only [Name.length, elements_take, List.length_take] at hn ⊢
    omega
  meaning := by
    rw [meaning_take, meaning_take, h.meaning, ← length_meaning p, List.take_length_add_append]

theorem beq (h : Shifted p k l) (h' : Shifted p m n) : (k == m) = (l == n) := by
  rw [Bool.eq_iff_iff, beq_iff h.built.wellFormed h'.built.wellFormed,
    beq_iff h.built'.wellFormed h'.built'.wellFormed, h.meaning, h'.meaning,
    List.append_cancel_left_eq]

theorem isAncestorOf (h : Shifted p n n') (h' : Shifted p y x) :
    n.isAncestorOf y = n'.isAncestorOf x := by
  rw [Bool.eq_iff_iff, isAncestorOf_iff h.built.wellFormed h'.built.wellFormed,
    isAncestorOf_iff h.built'.wellFormed h'.built'.wellFormed, h.meaning, h'.meaning, h.length,
    h'.length, ← length_meaning p, List.take_length_add_append, List.append_cancel_left_eq]
  exact and_congr_left fun _ => by omega

/-- What lies below a shifted name lies below the prefix. -/
theorem isAncestorOf_of_shifted (h : Shifted p n n') (hp : p.Built) (hx : x.Built)
    (ha : n'.isAncestorOf x = true) : p.isAncestorOf x = true := by
  obtain ⟨hl, hm⟩ := (isAncestorOf_iff h.built'.wellFormed hx.wellFormed).mp ha
  have hlength := h.length
  refine (isAncestorOf_iff hp.wellFormed hx.wellFormed).mpr ⟨by omega, ?_⟩
  have htake : n'.meaning.take p.length = p.meaning := by
    rw [h.meaning, ← length_meaning p, List.take_left]
  rw [← htake, hm, List.take_take, Nat.min_eq_left (by omega)]

/-- A name below the prefix, without the prefix. -/
theorem of_drop (hp : p.Built) (hx : x.Built) (ha : p.isAncestorOf x = true) :
    Shifted p (x.drop p.length) x := by
  have hl := ((isAncestorOf_iff hp.wellFormed hx.wellFormed).mp ha).1
  refine ⟨.drop hx _, hx, isEmpty_eq_false_iff.mpr ?_,
    meaning_of_drop hp.wellFormed hx.wellFormed ha⟩
  simp only [Name.length, elements_drop, List.length_drop] at hl ⊢
  omega

/-- An item counts at the same position. -/
theorem positionIn? (h : Shifted p n n') (hp : p.Built) (hx : x.Built)
    (ha : p.isAncestorOf x = true) : n.positionIn? (x.drop p.length) = n'.positionIn? x := by
  have he : (x.drop p.length).element? n.length = x.element? n'.length := by
    rw [h.length]
    exact List.getElem?_drop
  unfold Name.positionIn?
  rw [h.isAncestorOf (.of_drop hp hx ha), he]

/-- No item counts that does not lie below the prefix. -/
theorem positionIn?_eq_none (h : Shifted p n n') (hp : p.Built) (hx : x.Built)
    (ha : p.isAncestorOf x = false) : n'.positionIn? x = none := by
  have hn : n'.isAncestorOf x = false := by
    rw [← Bool.not_eq_true]
    intro hn
    rw [h.isAncestorOf_of_shifted hp hx hn] at ha
    cases ha
  unfold Name.positionIn?
  rw [hn]
  rfl

end Shifted

end Name

/-! ## Entries of maps -/

namespace Binder

variable {p root root' x : Name}

theorem isNumericAt_drop (x : Name) (k i : Nat) : (x.drop k).isNumericAt i = x.isNumericAt (k + i) := by
  unfold Name.isNumericAt Name.element?
  rw [Name.elements_drop, List.getElem?_drop]

theorem take_drop (x : Name) (k i : Nat) : (x.drop k).take i = (x.take (k + i)).drop k :=
  congrArg Name.mk (List.take_drop ..)

/-- The positions from `k + start` on are those from `start` on, shifted. -/
theorem find?_range_shift (test : Nat → Bool) (k start length : Nat) :
    ((List.range (k + length)).filter (k + start ≤ ·)).find? test =
      (((List.range length).filter (start ≤ ·)).find? fun i => test (k + i)).map (k + ·) := by
  have hbefore : (List.range k).filter (k + start ≤ ·) = [] :=
    List.filter_eq_nil_iff.mpr fun i hi => by
      have := List.mem_range.mp hi
      simp only [decide_eq_true_eq]
      omega
  have hafter : ((List.range length).map (k + ·)).filter (k + start ≤ ·) =
      ((List.range length).filter (start ≤ ·)).map (k + ·) := by
    rw [List.filter_map]
    congr 2
    funext i
    simp
  rw [List.range_add, List.filter_append, hbefore, List.nil_append, hafter, List.find?_map]
  rfl

theorem cutAtPosition_drop {k : Nat} (hk : k ≤ x.length) (start : Nat) :
    cutAtPosition (x.drop k) start = (cutAtPosition x (k + start)).drop k := by
  obtain ⟨length, hlength⟩ := Nat.exists_eq_add_of_le hk
  have hdropped : (x.drop k).length = length := by
    simp only [Name.length, Name.elements_drop, List.length_drop] at hlength ⊢
    omega
  have htest : (x.drop k).isNumericAt = fun i => x.isNumericAt (k + i) :=
    funext (isNumericAt_drop x k)
  unfold cutAtPosition
  rw [hdropped, htest, hlength, find?_range_shift]
  cases ((List.range length).filter (start ≤ ·)).find? fun i => x.isNumericAt (k + i) with
  | none => rfl
  | some i => exact take_drop x k i

theorem cutAtPosition_eq_take {start : Nat} (h : start ≤ x.length) :
    ∃ i, start ≤ i ∧ cutAtPosition x start = x.take i := by
  unfold cutAtPosition
  split
  · rename_i i hi
    have hmem := (List.mem_filter.mp (List.mem_of_find?_eq_some hi)).2
    exact ⟨i, by simpa using hmem, rfl⟩
  · exact ⟨x.length, h, congrArg Name.mk (List.take_length ..).symm⟩

/-- An entry is a part of the name that goes beyond the map. -/
theorem entryName_eq_take (h : root.length < x.length) (value : Shape) :
    ∃ i, root.length < i ∧ entryName root x value = x.take i := by
  unfold entryName
  cases value with
  | scalar _ => exact ⟨x.length, h, congrArg Name.mk (List.take_length ..).symm⟩
  | array _ | list _ | set _ => exact cutAtPosition_eq_take h
  | map _ _ | composite _ | ref _ => exact ⟨root.length + 1, Nat.lt_succ_self _, rfl⟩

/-- Without the prefix, a name belongs to the entry that it belongs to, without the prefix. -/
theorem entryName_drop (hl : root'.length = p.length + root.length) (hp : p.length ≤ x.length)
    (value : Shape) :
    entryName root (x.drop p.length) value = (entryName root' x value).drop p.length := by
  unfold entryName
  rw [hl, Nat.add_assoc]
  cases value with
  | scalar _ => rfl
  | array _ | list _ | set _ => exact cutAtPosition_drop hp _
  | map _ _ | composite _ | ref _ => exact take_drop x p.length _

/-- The two entries are shifted. -/
theorem shifted_entryName {n n' : Name} (h : Name.Shifted p n n') (hx : Name.Shifted p (x.drop p.length) x)
    (hl : n'.length < x.length) (value : Shape) :
    Name.Shifted p (entryName n (x.drop p.length) value) (entryName n' x value) := by
  have hlength := h.length
  obtain ⟨i, hi, htake⟩ := entryName_eq_take hl value
  obtain ⟨j, rfl⟩ := Nat.exists_eq_add_of_le (show p.length ≤ i by omega)
  rw [entryName_drop hlength (by omega), htake, ← take_drop]
  exact hx.take (by omega)

/-- It has the same key. -/
theorem entryKey_drop (hl : root'.length = p.length + root.length) (entry : Name) :
    entryKey root (entry.drop p.length) = entryKey root' entry := by
  unfold entryKey
  rw [hl]
  simp only [Name.elements_drop, List.drop_drop]

end Binder

end TypedConfig
