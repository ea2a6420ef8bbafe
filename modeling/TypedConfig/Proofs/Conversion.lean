import TypedConfig.Proofs.Name.Trimmed
import TypedConfig.Proofs.Number.Numeral
import TypedConfig.Proofs.Shape.Fits
import TypedConfig.Proofs.Text.Split

/-!
# What conversion makes of a value

A value that converts to a kind becomes null or a value of the kind, and that is converted to
itself (`ScalarKind.Lands`): among the variants of an enumeration it is the first one that is
spelled alike, and no other is found for it. Integers and truth values are read back from their text
(`ScalarKind.convert_stable`).

* `ScalarKind.convertScalar_int_iff`: the integers of a kind are converted from what writes them between
  the bounds of the kind and of 64 bits, and from nothing else.
* `ScalarKind.convert_text_iff`: so it is for texts. A text may write an integer with a sign behind
  `0x`, which no other text of an integer has (`ScalarKind.convert_sign_behind_prefix`).
-/

namespace TypedConfig

open Number Text

/-! ## Texts of integers -/

/-- A digit is no blank. -/
theorem Text.not_isBlank_of_digitOf {c : Char} (h : digitOf c < 16) : isBlank c = false := by
  rw [← Bool.not_eq_true]
  intro hblank
  obtain ⟨hword, hlower⟩ := not_isWordChar_of_isBlank hblank
  have hmem : c ∈ digitChars := by
    rw [← List.idxOf_lt_length_iff]
    rwa [digitOf, hlower] at h
  have hall : digitChars.all isWordChar = true := by decide
  rw [List.all_eq_true.mp hall c hmem] at hword
  cases hword

theorem Number.Numeral.not_isBlank {base n : Nat} {ds : List Char} (h : Numeral base ds n)
    (hbase : base ≤ 16) : ∀ c ∈ ds, isBlank c = false :=
  fun c hc => not_isBlank_of_digitOf (Nat.lt_of_lt_of_le (h.digits c hc) hbase)

theorem Number.Sign.not_isBlank (s : Sign) : ∀ c ∈ s.chars, isBlank c = false := by
  cases s with
  | none => exact List.forall_mem_nil _
  | plus | minus => exact List.forall_mem_singleton.mpr (by decide)

/-- A text that writes an integer has no blanks. -/
theorem Number.Writes.not_isBlank {cs : List Char} {i : Int} (h : Writes cs i) :
    ∀ c ∈ cs, isBlank c = false := by
  cases h with
  | decimal s h => exact List.forall_mem_append.mpr ⟨s.not_isBlank, h.not_isBlank (by decide)⟩
  | hexadecimal s hx h =>
    refine List.forall_mem_append.mpr ⟨s.not_isBlank, List.forall_mem_cons.mpr ⟨by decide, ?_⟩⟩
    refine List.forall_mem_cons.mpr ⟨?_, h.not_isBlank (Nat.le_refl _)⟩
    rcases hx with rfl | rfl <;> decide

theorem Number.Writes.trimChars {cs : List Char} {i : Int} (h : Writes cs i) :
    Text.trimChars cs = cs := by
  refine trimChars_eq_self fun c hc => h.not_isBlank c ?_
  rcases hc with hc | hc
  · exact List.mem_of_mem_head? hc
  · exact List.mem_of_mem_getLast? hc

/-- An integer is read back from its text. -/
theorem Value.toInt?_toString (n : Int64) : (string (toString n.toInt)).toInt? = some n := by
  have hwrites := writes_toString n.toInt
  show (readInteger (trimChars (toString n.toInt).toList)).bind narrow? = some n
  rw [hwrites.trimChars, readInteger_toString, Option.bind_some, narrow?_toInt]

namespace ScalarKind

variable {kind : ScalarKind} {min max n : Int64} {v w : Value} {variants : List String}
  {text s : String}

/-! ## Integers -/

theorem checkRange_iff : checkRange min max n = .ok w ↔ (min ≤ n ∧ n ≤ max) ∧ w = .int n := by
  unfold checkRange
  split
  · rename_i h
    simp only [Bool.or_eq_true, decide_eq_true_eq, ← Int64.not_le] at h
    refine iff_of_false nofun fun hw => ?_
    tauto
  · rename_i h
    simp only [Bool.or_eq_true, decide_eq_true_eq, not_or, Int64.not_lt] at h
    simp [h, eq_comm]

/-- A scalar becomes the integer that it writes, if that is between the bounds. -/
theorem convertScalar_int_iff : (int min max).convertScalar v = .ok w ↔
    ∃ n, v.toInt? = some n ∧ min ≤ n ∧ n ≤ max ∧ w = .int n := by
  unfold convertScalar
  simp only
  split
  · rename_i n hn
    rw [checkRange_iff]
    simp [hn, and_assoc]
  · rename_i hn
    exact iff_of_false nofun (by simp [hn])

/-- A text is converted to an integer kind exactly if it writes an integer, blanks around it apart,
or one with a sign behind `0x`, and the integer lies between the bounds of 64 bits and of the
kind. -/
theorem convert_text_iff (min max : Int64) (t : String) (w : Value) :
    (int min max).convert (.string t) = .ok w ↔
      ∃ i, (Writes (trimChars t.toList) i ∨ WritesBehindPrefix (trimChars t.toList) i) ∧
        Int64.minValue.toInt ≤ i ∧ i ≤ Int64.maxValue.toInt ∧
        min.toInt ≤ i ∧ i ≤ max.toInt ∧ w = .int (Int64.ofInt i) := by
  have hconvert : (int min max).convert (.string t) = (int min max).convertScalar (.string t) := rfl
  have hread : ∀ n, (Value.string t).toInt? = some n ↔
      ∃ i, readInteger (trimChars t.toList) = some i ∧ narrow? i = some n :=
    fun n => Option.bind_eq_some_iff
  rw [hconvert, convertScalar_int_iff]
  constructor
  · rintro ⟨n, hn, hmin, hmax, rfl⟩
    obtain ⟨i, hi, hnarrow⟩ := (hread n).mp hn
    obtain rfl := toInt_of_narrow? hnarrow
    exact ⟨n.toInt, readInteger_eq_some_iff.mp hi, n.le_toInt, Int.le_of_lt_add_one n.toInt_lt,
      Int64.le_iff_toInt_le.mp hmin, Int64.le_iff_toInt_le.mp hmax, by rw [Int64.ofInt_toInt]⟩
  · rintro ⟨i, hi, hlow, hhigh, hmin, hmax, rfl⟩
    have hnarrow : narrow? i = some (Int64.ofInt i) := if_pos ⟨hlow, hhigh⟩
    have hvalue := toInt_of_narrow? hnarrow
    refine ⟨_, (hread _).mpr ⟨i, readInteger_eq_some_iff.mpr hi, hnarrow⟩, ?_, ?_, rfl⟩
    · rwa [Int64.le_iff_toInt_le, hvalue]
    · rwa [Int64.le_iff_toInt_le, hvalue]

/-- A sign behind `0x` is read, though no text with one writes an integer. -/
theorem convert_sign_behind_prefix :
    (¬∃ i, Writes (trimChars "0x+5".toList) i) ∧
      (int 0 10).convert (.string "0x+5") = .ok (.int 5) := by
  have htrim : trimChars "0x+5".toList = ['0', 'x', '+', '5'] := by decide +kernel
  have hbehind : WritesBehindPrefix ['0', 'x', '+', '5'] 5 :=
    .intro .none .plus (by simp) (.inl rfl)
      ⟨by simp, List.forall_mem_singleton.mpr (by decide), rfl⟩
  rw [htrim]
  refine ⟨?_, ?_⟩
  · rintro ⟨i, hi⟩
    exact hbehind.not_writes hi
  · rw [convert_text_iff, htrim]
    exact ⟨5, .inr hbehind, by decide, by decide, by decide, by decide, rfl⟩

/-! ## Variants -/

/-- The variant is the first one that has the letters and digits of the text. -/
def IsFirstAlike (variants : List String) (text variant : String) : Prop :=
  ∃ before after, variants = before ++ variant :: after ∧
    uniformForm variant = uniformForm text ∧ ∀ u ∈ before, uniformForm u ≠ uniformForm text

theorem selectVariant_iff :
    selectVariant variants text = .ok w ↔ ∃ s, w = .string s ∧ IsFirstAlike variants text s := by
  have hfind : ∀ s, (variants.find? fun variant => uniformForm variant == uniformForm text) = some s ↔
      IsFirstAlike variants text s := by
    intro s
    rw [List.find?_eq_some_iff_append]
    simp only [IsFirstAlike, beq_iff_eq, Bool.not_eq_eq_eq_not, Bool.not_true, beq_eq_false_iff_ne]
    tauto
  unfold selectVariant
  split
  · rename_i s hs
    constructor
    · rintro ⟨⟩
      exact ⟨s, rfl, (hfind s).mp hs⟩
    · rintro ⟨s', rfl, h⟩
      rw [(hfind s').mpr h] at hs
      cases hs
      rfl
  · rename_i hs
    refine iff_of_false nofun ?_
    rintro ⟨s, rfl, h⟩
    rw [(hfind s).mpr h] at hs
    cases hs

/-- A variant that was selected is selected by its own name. -/
theorem IsFirstAlike.self (h : IsFirstAlike variants text s) : IsFirstAlike variants s s := by
  obtain ⟨before, after, hsplit, halike, hfirst⟩ := h
  exact ⟨before, after, hsplit, rfl, by rwa [halike]⟩

/-! ## Stability -/

/-- What holds of a value and what it becomes as a scalar of a kind. -/
structure Lands (kind : ScalarKind) (v w : Value) : Prop where
  null_iff : w = .null ↔ v = .null
  /-- What is not null is of the kind. -/
  admits : kind.Admits w
  /-- A variant is the first one that is spelled like the value. -/
  variant : ∀ variants s, kind = enum variants → w = .string s →
    ∃ text, v.text? = some text ∧ IsFirstAlike variants text s
  again : kind.convert w = .ok w

/-- A value that is not null and converts has a text and is converted as a scalar. -/
theorem exists_text_of_convert (h : kind.convert v = .ok w) (hv : v ≠ .null) :
    ∃ text, v.text? = some text ∧ kind.convertScalar v = .ok w := by
  cases v with
  | null => exact absurd rfl hv
  | list items | map entries => cases h
  | bool b | int n | float x | string s => exact ⟨_, rfl, h⟩

/-- What a scalar becomes is not null, and is converted to itself. -/
theorem convertScalar_again (h : kind.convertScalar v = .ok w) :
    w ≠ .null ∧ kind.convert w = .ok w := by
  cases kind with
  | string =>
    cases h
    exact ⟨by simp, rfl⟩
  | bool | float =>
    simp only [convertScalar] at h
    split at h
    · cases h
      exact ⟨by simp, rfl⟩
    · cases h
  | int min max =>
    obtain ⟨n, -, hmin, hmax, rfl⟩ := convertScalar_int_iff.mp h
    have hagain : (int min max).convertScalar (.int n) = .ok (.int n) :=
      convertScalar_int_iff.mpr ⟨n, rfl, hmin, hmax, rfl⟩
    exact ⟨by simp, hagain⟩
  | char =>
    simp only [convertScalar, checkCharacter] at h
    split at h
    · rename_i hlength
      cases h
      exact ⟨by simp, if_pos hlength⟩
    · cases h
  | enum variants =>
    obtain ⟨s, rfl, hs⟩ := selectVariant_iff.mp h
    exact ⟨by simp, selectVariant_iff.mpr ⟨s, rfl, hs.self⟩⟩

theorem convert_lands (h : kind.convert v = .ok w) : kind.Lands v w := by
  by_cases hv : v = .null
  · subst hv
    cases h
    refine ⟨Iff.rfl, .inl rfl, ?_, rfl⟩
    rintro variants s - ⟨⟩
  · obtain ⟨text, htext, hscalar⟩ := exists_text_of_convert h hv
    obtain ⟨hw, hagain⟩ := convertScalar_again hscalar
    refine ⟨iff_of_false hw hv, convert_admits h, ?_, hagain⟩
    rintro variants s rfl rfl
    have hselect : selectVariant variants (v.text?.getD "") = .ok (.string s) := hscalar
    rw [htext] at hselect
    obtain ⟨variant, hvariant, halike⟩ := selectVariant_iff.mp hselect
    cases hvariant
    exact ⟨text, htext, halike⟩

/-- An integer between the bounds is read back from its text. -/
theorem convert_toString (hmin : min ≤ n) (hmax : n ≤ max) :
    (int min max).convert (.string (toString n.toInt)) = .ok (.int n) :=
  convertScalar_int_iff.mpr ⟨n, Value.toInt?_toString n, hmin, hmax, rfl⟩

/-- A truth value is read back from its text. -/
theorem convert_boolText (b : Bool) :
    bool.convert (.string (if b then "true" else "false")) = .ok (.bool b) := by
  have hread : readBool (if b then "true" else "false") = some b := by
    cases b <;> decide +kernel
  show convertScalar bool (.string _) = _
  simp only [convertScalar, Value.toBool?, hread]

/-- An integer or a truth value of a kind is converted to a text and back. -/
theorem exists_text_readsBack (hw : kind.Admits w) (h : (∃ n, w = .int n) ∨ ∃ b, w = .bool b) :
    ∃ text, string.convert w = .ok (.string text) ∧ kind.convert (.string text) = .ok w := by
  rcases h with ⟨n, rfl⟩ | ⟨b, rfl⟩ <;> rcases hw with hnull | hkind
  · cases hnull
  · cases kind with
    | int min max => exact ⟨_, rfl, convert_toString hkind.1 hkind.2⟩
    | string | bool | float | char | enum variants => cases hkind
  · cases hnull
  · cases kind with
    | bool => exact ⟨_, rfl, convert_boolText b⟩
    | string | int min max | float | char | enum variants => cases hkind

/-- Whatever converts to a kind becomes null, if it is null, or else a value of the kind, and that is
converted to itself. Integers and truth values of a kind are read back from their text. -/
theorem convert_stable (kind : ScalarKind) :
    (∀ v w, kind.convert v = .ok w → kind.Lands v w) ∧
      ∀ w, kind.Admits w → ((∃ n, w = .int n) ∨ ∃ b, w = .bool b) →
        ∃ text, string.convert w = .ok (.string text) ∧ kind.convert (.string text) = .ok w :=
  ⟨fun _ _ => convert_lands, fun _ => exists_text_readsBack⟩

/-- Two variants are spelled alike, and the first is selected for both spellings. The smallest
integer of 64 bits is read back from its text. -/
theorem convert_stable_darkBlue :
    (enum ["Red", "DarkBlue", "dark-blue"]).convert (.string "DARK_BLUE") =
        .ok (.string "DarkBlue") ∧
      (enum ["Red", "DarkBlue", "dark-blue"]).Lands (.string "DARK_BLUE") (.string "DarkBlue") ∧
      ∃ text, string.convert (.int Int64.minValue) = .ok (.string text) ∧
        (int Int64.minValue 0).convert (.string text) = .ok (.int Int64.minValue) := by
  have halike : IsFirstAlike ["Red", "DarkBlue", "dark-blue"] "DARK_BLUE" "DarkBlue" :=
    ⟨["Red"], ["dark-blue"], rfl, by decide +kernel, by decide +kernel⟩
  have hselect : selectVariant ["Red", "DarkBlue", "dark-blue"] "DARK_BLUE" =
      .ok (.string "DarkBlue") := selectVariant_iff.mpr ⟨_, rfl, halike⟩
  exact ⟨hselect, (convert_stable _).1 _ _ hselect,
    (convert_stable _).2 _ (.inr ⟨by decide, by decide⟩) (.inl ⟨_, rfl⟩)⟩

end ScalarKind

end TypedConfig
