import Mathlib.Data.String.Basic
import TypedConfig.Text.Slice

/-!
# What stands between two places of a text

* `Text.slice?_eq_some_iff`: a stretch is a part of the text, and its offsets are the sizes of what
  stands before it and before its end.
* `Text.slice?_append`: neighbouring stretches make one.
-/

namespace TypedConfig.Text

open String

variable {s t u : String} {a b c : Nat}

theorem isValid_iff : Pos.Raw.isValid s ⟨a⟩ = true ↔ ∃ l r, s = l ++ r ∧ a = l.utf8ByteSize := by
  rw [Pos.Raw.isValid_eq_true_iff, Pos.Raw.isValid_iff_exists_append]
  simp only [Pos.Raw.ext_iff, byteIdx_rawEndPos]

/-- Of two beginnings of a text the larger goes on from the smaller. -/
theorem exists_append_of_le {l r l' r' : String} (h : l ++ r = l' ++ r')
    (hle : l.utf8ByteSize ≤ l'.utf8ByteSize) : ∃ m, l' = l ++ m ∧ r = m ++ r' := by
  have hlist : l.toList ++ r.toList = l'.toList ++ r'.toList := by
    rw [← toList_append, h, toList_append]
  rcases List.append_eq_append_iff.mp hlist with ⟨m, hm, hr⟩ | ⟨m, hm, hr⟩
  · refine ⟨ofList m, ?_, ?_⟩ <;> rw [← toList_inj, toList_append, toList_ofList] <;> assumption
  · -- Here `l` goes on from `l'`, by nothing, since it is not larger.
    have hl : l = l' ++ ofList m := by rw [← toList_inj, toList_append, toList_ofList, hm]
    have hsize : (ofList m).utf8ByteSize = 0 := by
      have := congrArg utf8ByteSize hl
      rw [utf8ByteSize_append] at this
      omega
    have hempty : ofList m = "" := utf8ByteSize_eq_zero_iff.mp hsize
    refine ⟨"", ?_, ?_⟩
    · rw [hl, hempty, append_empty, append_empty]
    · rw [← toList_inj, toList_append, hr]
      simpa using congrArg toList hempty

theorem extract_append (l m r : String) :
    Pos.Raw.extract (l ++ m ++ r) ⟨l.utf8ByteSize⟩ ⟨(l ++ m).utf8ByteSize⟩ = m := by
  have h := extract_of_valid l.toList m.toList r.toList
  rwa [← toList_append, ← toList_append, ofList_toList, ofList_toList, utf8Len_toList,
    utf8Len_toList, ← utf8ByteSize_append] at h

/-- A stretch of a text with what stands before and after it. -/
theorem slice?_eq_some_iff : slice? s a b = some t ↔
    ∃ l r, s = l ++ t ++ r ∧ a = l.utf8ByteSize ∧ b = (l ++ t).utf8ByteSize := by
  unfold slice?
  constructor
  · intro h
    split at h
    · rename_i hab
      simp only [Bool.and_eq_true, decide_eq_true_eq, isValid_iff] at hab
      obtain ⟨⟨hle, l, r, rfl, rfl⟩, l', r', hs, rfl⟩ := hab
      obtain ⟨m, rfl, rfl⟩ := exists_append_of_le hs hle
      rw [← String.append_assoc, extract_append] at h
      cases h
      exact ⟨l, r', String.append_assoc.symm, rfl, rfl⟩
    · cases h
  · rintro ⟨l, r, rfl, rfl, rfl⟩
    rw [extract_append, if_pos]
    simp only [Bool.and_eq_true, decide_eq_true_eq, isValid_iff]
    exact ⟨⟨by rw [utf8ByteSize_append]; omega, l, t ++ r, String.append_assoc, rfl⟩,
      l ++ t, r, rfl, rfl⟩

/-- Neighbouring stretches make one. -/
theorem slice?_append (ht : slice? s a b = some t) (hu : slice? s b c = some u) :
    slice? s a c = some (t ++ u) := by
  obtain ⟨l, r, hs, rfl, rfl⟩ := slice?_eq_some_iff.mp ht
  obtain ⟨l', r', hs', hb, rfl⟩ := slice?_eq_some_iff.mp hu
  have hl : l' = l ++ t := by
    have hcut : l ++ t ++ r = l' ++ (u ++ r') := by rw [← hs, hs', String.append_assoc]
    obtain ⟨m, rfl, -⟩ := exists_append_of_le hcut (Nat.le_of_eq hb)
    have hm : m = "" := by
      simp only [utf8ByteSize_append] at hb
      exact utf8ByteSize_eq_zero_iff.mp (by omega)
    rw [hm, String.append_empty]
  subst hl
  exact slice?_eq_some_iff.mpr ⟨l, r', by rw [hs', ← String.append_assoc], rfl,
    by rw [← String.append_assoc]⟩

/-- The whole of a text. -/
theorem slice?_self (s : String) : slice? s 0 s.utf8ByteSize = some s :=
  slice?_eq_some_iff.mpr ⟨"", "", by simp, rfl, by simp⟩

end TypedConfig.Text
