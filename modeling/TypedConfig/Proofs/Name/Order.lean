import Mathlib.Data.String.Basic
import TypedConfig.Name.Order
import TypedConfig.Proofs.Name.Meaning

/-!
# The order of names

Elements are ordered by a key of four parts: their rank, how many significant digits they have,
these digits, and the characters that count. So the order is transitive and total
(`Element.compare_eq`), and for elements whose text is as their kind says it tells two apart exactly
if they differ in meaning (`Element.compare_eq_eq_iff`). The same holds of names, element by
element, and names of one meaning have one hash (`Name.hash_congr`).
-/

namespace TypedConfig

open Number
open Std (TransCmp OrientedCmp)

/-! ## Elements -/

namespace Element

/-- The digits by which an element is ordered as a number: none, unless it is a numeric index. -/
def significant (e : Element) : List Char :=
  if e.kind = .numeric then significantDigits e.text.toList else []

/-- The order of elements, by the four parts of their keys. -/
def compareKeys : Element → Element → Ordering :=
  compareLex (compareOn (·.kind.rank)) <| compareLex (compareOn (·.significant.length)) <|
    compareLex (compareOn significant) (compareOn (·.meaning.2))

theorem compare_eq : Element.compare = compareKeys := by
  funext a b
  unfold Element.compare compareKeys compareLex compareOn
  by_cases hrank : a.kind.rank = b.kind.rank
  · obtain ⟨ka, ta⟩ := a
    obtain ⟨kb, tb⟩ := b
    cases ka <;> cases kb <;>
      simp_all [Kind.rank, significant, meaning, isIndex, Kind.isIndex, compareDigits]
  · cases hc : Ord.compare a.kind.rank b.kind.rank with
    | eq => exact absurd (Std.compare_eq_iff_eq.mp hc) hrank
    | lt => rfl
    | gt => rfl

instance : TransCmp Element.compare := by
  rw [compare_eq]
  unfold compareKeys
  infer_instance

/-- Indexes are what does not have the last rank. -/
theorem isIndex_of_rank_eq {a b : Element} (h : a.kind.rank = b.kind.rank) :
    a.isIndex = b.isIndex := by
  obtain ⟨ka, ta⟩ := a
  obtain ⟨kb, tb⟩ := b
  cases ka <;> cases kb <;> simp_all [Kind.rank, isIndex, Kind.isIndex]

/-- Elements of one meaning have one key. -/
theorem key_eq_of_meaning_eq {a b : Element} (ha : a.WellFormed) (hb : b.WellFormed)
    (h : a.meaning = b.meaning) : a.kind.rank = b.kind.rank ∧ a.significant = b.significant := by
  have hnumeric := numeric_of_meaning_eq ha hb h
  obtain ⟨ka, ta⟩ := a
  obtain ⟨kb, tb⟩ := b
  cases ka <;> cases kb <;>
    simp_all +decide [meaning, isIndex, Kind.isIndex, Kind.rank, significant]

/-- Elements compare equal exactly if they mean the same. -/
theorem compare_eq_eq_iff {a b : Element} (ha : a.WellFormed) (hb : b.WellFormed) :
    a.compare b = .eq ↔ a.meaning = b.meaning := by
  rw [compare_eq]
  simp only [compareKeys, compareLex, compareOn, Ordering.then_eq_eq, Std.compare_eq_iff_eq]
  constructor
  · rintro ⟨hrank, -, -, hchars⟩
    refine Prod.ext ?_ hchars
    have hindex := isIndex_of_rank_eq hrank
    unfold meaning
    rw [hindex]
    split <;> rfl
  · intro h
    obtain ⟨hrank, hdigits⟩ := key_eq_of_meaning_eq ha hb h
    exact ⟨hrank, congrArg List.length hdigits, hdigits, congrArg Prod.snd h⟩

/-- The hash of an element sees its meaning alone. -/
theorem hash_congr {a b : Element} (h : a.meaning = b.meaning) : a.hash = b.hash := by
  have hchars : a.hashChars = b.hashChars := by
    unfold meaning at h
    unfold hashChars
    split at h <;> split at h <;> simp_all
  rw [hash, hash, hchars]

end Element

/-! ## Names -/

namespace Name

/-- The order of names is that of their elements, from the first on. -/
theorem compareElements_eq : compareElements = List.compareLex Element.compare := by
  funext as bs
  induction as generalizing bs with
  | nil => cases bs <;> rfl
  | cons a as ih =>
    cases bs with
    | nil => rfl
    | cons b bs =>
      rw [compareElements, List.compareLex, ih]
      cases a.compare b <;> rfl

instance : TransCmp Name.compare where
  eq_swap {a b} := by
    unfold Name.compare
    rw [compareElements_eq]
    exact OrientedCmp.eq_swap
  isLE_trans {a b c} hab hbc := by
    unfold Name.compare at *
    rw [compareElements_eq] at *
    exact TransCmp.isLE_trans hab hbc

/-- Names compare equal exactly if they mean the same. -/
theorem compare_eq_eq_iff {a b : Name} (ha : a.WellFormed) (hb : b.WellFormed) :
    a.compare b = .eq ↔ a.meaning = b.meaning := by
  obtain ⟨as⟩ := a
  obtain ⟨bs⟩ := b
  simp only [Name.compare, meaning]
  induction as generalizing bs with
  | nil => cases bs <;> simp [compareElements]
  | cons a as ih =>
    cases bs with
    | nil => simp [compareElements]
    | cons b bs =>
      have ih := ih (fun e he => ha e (List.mem_cons_of_mem _ he)) bs
        (fun e he => hb e (List.mem_cons_of_mem _ he))
      have hab := Element.compare_eq_eq_iff (ha a List.mem_cons_self) (hb b List.mem_cons_self)
      simp only [compareElements, Ordering.then_eq_eq, hab, ih, List.map_cons, List.cons.injEq]

/-- Names of one meaning have one hash. -/
theorem hash_congr {a b : Name} (h : a.meaning = b.meaning) : a.hash = b.hash := by
  obtain ⟨as⟩ := a
  obtain ⟨bs⟩ := b
  simp only [hash, meaning] at h ⊢
  generalize (0 : UInt32) = start
  induction as generalizing bs start with
  | nil =>
    cases bs with
    | nil => rfl
    | cons b bs => cases h
  | cons a as ih =>
    cases bs with
    | nil => cases h
    | cons b bs =>
      simp only [List.map_cons, List.cons.injEq] at h
      rw [List.foldl_cons, List.foldl_cons, Element.hash_congr h.1]
      exact ih bs h.2 _

end Name

end TypedConfig
