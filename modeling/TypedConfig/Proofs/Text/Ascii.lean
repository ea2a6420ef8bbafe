import TypedConfig.Proofs.Name.Meaning
import TypedConfig.Text.Letter

/-!
# Characters one by one

What is said of single characters holds of each if it holds of the first 128 and of all others
(`Text.forall_char`): the first are looked at one by one, and no other is a letter, a digit or a mark
of a name. So the characters that count in a word are the letters and digits, whatever their case
(`isWordChar_toLower`), and no lower-case form has a bracket but that of the bracket
(`Text.bracketFree_lowered`).
-/

namespace TypedConfig

namespace Text

variable {c : Char}

/-- What holds of the first 128 characters and of all others holds of each. -/
theorem forall_char {P : Char → Prop} (hfirst : ∀ k : Fin 128, P (Char.ofNat k))
    (hother : ∀ c : Char, 128 ≤ c.toNat → P c) (c : Char) : P c := by
  by_cases hc : c.toNat < 128
  · have := hfirst ⟨c.toNat, hc⟩
    rwa [Char.ofNat_toNat] at this
  · exact hother c (by omega)

/-- A character beyond the first 128 is not at or before one of them. -/
theorem not_le_of_le (h : 128 ≤ c.toNat) {d : Char} (hd : d.toNat < 128) : ¬c ≤ d := by
  have hval : c.val.toNat = c.toNat := rfl
  have hval' : d.val.toNat = d.toNat := rfl
  rw [Char.le_def, UInt32.le_iff_toNat_le]
  omega

theorem toLower_of_le (h : 128 ≤ c.toNat) : c.toLower = c := by
  unfold Char.toLower
  exact dif_neg fun hc => not_le_of_le h (d := 'Z') (by decide) hc.2

theorem isDigit_of_le (h : 128 ≤ c.toNat) : c.isDigit = false :=
  Bool.and_eq_false_imp.mpr fun _ => decide_eq_false (not_le_of_le h (d := '9') (by decide))

/-! ## Lower-case forms -/

theorem lowered_ne_nil (c : Char) : lowered c ≠ [] := by
  unfold lowered
  split
  · nofun
  · split
    · nofun
    · split <;> nofun

/-- The tables lead to no character at or before the brackets. -/
theorem bracket_lt_of_lowercaseShifts :
    ∀ entry ∈ lowercaseShifts, (']'.toNat : Int) < entry.1.first + entry.2 := by
  decide +kernel

theorem ofNat_ne {n : Nat} {c : Char} (h : c.toNat < n) (hc : c.toNat ≠ 0) : Char.ofNat n ≠ c := by
  rintro rfl
  unfold Char.ofNat at h hc
  by_cases hvalid : n.isValidChar
  · rw [dif_pos hvalid] at h
    exact Nat.lt_irrefl n h
  · rw [dif_neg hvalid] at hc
    exact hc rfl

/-- Only a bracket has one in its lower-case form. -/
theorem bracketFree_lowered {c d : Char} (hc : c ≠ '[' ∧ c ≠ ']') (hd : d ∈ lowered c) :
    d ≠ '[' ∧ d ≠ ']' := by
  unfold lowered at hd
  split at hd
  · have hsmall : ∀ c : Char, c ≠ '[' ∧ c ≠ ']' → c.toLower ≠ '[' ∧ c.toLower ≠ ']' :=
      forall_char (by decide +kernel) fun c hc h => by rwa [toLower_of_le hc]
    rw [List.mem_singleton.mp hd]
    exact hsmall c hc
  · split at hd
    · simp only [List.mem_cons, List.not_mem_nil, or_false] at hd
      rcases hd with rfl | rfl <;> decide
    · split at hd
      · rename_i entry shift hfind
        have hshift := bracket_lt_of_lowercaseShifts _ (List.mem_of_find?_eq_some hfind)
        have hcontains := List.find?_some hfind
        simp only [Stride.contains, Bool.and_eq_true, decide_eq_true_eq] at hcontains hshift
        have hopen : '['.toNat = 91 := rfl
        have hclose : ']'.toNat = 93 := rfl
        rw [List.mem_singleton.mp hd]
        constructor <;> refine ofNat_ne ?_ (by decide) <;> omega
      · rwa [List.mem_singleton.mp hd]

end Text

open Text

/-- The characters that count are letters and digits, in any case. -/
theorem isWordChar_toLower (c : Char) : isWordChar c.toLower = c.isAlphanum := by
  revert c
  refine forall_char (by decide +kernel) fun c hc => ?_
  have hupper : c.isUpper = false :=
    decide_eq_false fun h => not_le_of_le hc (d := 'Z') (by decide) h.2
  have hlower : c.isLower = false :=
    Bool.and_eq_false_imp.mpr fun _ => decide_eq_false (not_le_of_le hc (d := 'z') (by decide))
  show (c.toLower.isLower || c.toLower.isDigit) = (c.isUpper || c.isLower || c.isDigit)
  simp only [toLower_of_le hc, hupper, hlower, isDigit_of_le hc, Bool.or_self]

theorem Text.lt_of_isAlphanum {c : Char} (h : c.isAlphanum = true) : c.toNat < 128 := by
  refine Nat.lt_of_not_le fun hc => ?_
  rw [← isWordChar_toLower, toLower_of_le hc, isWordChar_iff] at h
  omega

/-- The letters and digits of a text in small letters. -/
theorem uniformChars_eq (cs : List Char) :
    uniformChars cs = (cs.filter Char.isAlphanum).map Char.toLower := by
  rw [uniformChars, List.filter_map]
  congr 2
  funext c
  exact isWordChar_toLower c

end TypedConfig
