import TypedConfig.Proofs.Name.Agreement
import TypedConfig.Proofs.Number.Numeral

/-!
# The order of numbered items

The items of a collection are numbered by digits of any length, and the order of names never makes a
number of them: it leaves the zeros in front out, compares how many digits are left, then the digits
one by one, then the texts. That is the order of the numbers, and of the texts where the numbers are
equal (`Window.item_compare_item`).

* `decimalOf`: the number that digits write. Zeros in front do not count (`decimalOf_significant`),
  of two numbers without them the one of fewer digits is smaller (`decimalOf_lt_of_length_lt`), and
  as many digits have the order of their numbers (`compare_decimalOf`).
* `compare_utf8Bytes`: the order of ASCII texts is that of their bytes.
-/

namespace TypedConfig

open Number

/-! ## Digits by value -/

section Digits

variable {c d : Char} {cs ds : List Char}

/-- A number is compared by what stands above a place first, and then by what stands below. -/
theorem compare_place {b low low' high high' : Nat} (h : low < b) (h' : low' < b) :
    compare (low + b * high) (low' + b * high') =
      (compare high high').then (compare low low') := by
  have hstep : ∀ {l k m n : Nat}, l < b → m < n → l + b * m < k + b * n := by
    intro l k m n hl hmn
    calc l + b * m < b * (m + 1) := by rw [Nat.mul_succ]; omega
      _ ≤ b * n := Nat.mul_le_mul_left b hmn
      _ ≤ k + b * n := Nat.le_add_left _ _
  rcases Nat.lt_trichotomy high high' with hlt | rfl | hgt
  · rw [Nat.compare_eq_lt.mpr (hstep h hlt), Nat.compare_eq_lt.mpr hlt]
    rfl
  · rw [Nat.compare_eq_eq.mpr rfl, Ordering.eq_then]
    simp only [Nat.compare_eq_ite_lt, Nat.add_lt_add_iff_right]
  · rw [Nat.compare_eq_gt.mpr (hstep h' hgt), Nat.compare_eq_gt.mpr hgt]
    rfl

/-- The number that digits write, the first one at the highest place. -/
def decimalOf (cs : List Char) : Nat := Nat.ofDigits 10 (cs.map digitOf).reverse

theorem decimalOf_cons (c : Char) (cs : List Char) :
    decimalOf (c :: cs) = decimalOf cs + 10 ^ cs.length * digitOf c := by
  simp [decimalOf, Nat.ofDigits_append]

theorem decimalOf_lt (h : ∀ c ∈ cs, digitOf c < 10) : decimalOf cs < 10 ^ cs.length := by
  have hdigits : ∀ n ∈ (cs.map digitOf).reverse, n < 10 := by simpa using h
  simpa [decimalOf] using Nat.ofDigits_lt_base_pow_length (by decide : 1 < 10) hdigits

/-- No character but the zero has its value. -/
theorem digitOf_eq_zero_iff : ∀ c : Char, digitOf c = 0 ↔ c = '0' := by
  refine Text.forall_char (by decide +kernel) fun c hc => ?_
  rw [digitOf_of_le hc]
  refine iff_of_false (by decide) ?_
  rintro rfl
  exact absurd hc (by decide)

/-- Zeros in front do not count. -/
theorem decimalOf_significant (cs : List Char) : decimalOf (significantDigits cs) = decimalOf cs := by
  induction cs with
  | nil => rfl
  | cons c cs ih =>
    unfold significantDigits at ih ⊢
    rw [List.dropWhile_cons]
    split
    · rename_i hc
      have hzero : digitOf c = 0 := (digitOf_eq_zero_iff c).mpr (by simpa using hc)
      rw [ih, decimalOf_cons, hzero, Nat.mul_zero, Nat.add_zero]
    · rfl

theorem digit_of_significant (h : ∀ c ∈ cs, digitOf c < 10) :
    ∀ c ∈ significantDigits cs, digitOf c < 10 :=
  fun c hc => h c ((List.dropWhile_sublist _).subset hc)

/-- What is left without the zeros in front does not start with one. -/
theorem head_significant_pos : ∀ c ∈ (significantDigits cs).head?, 0 < digitOf c := by
  intro c hc
  refine Nat.pos_of_ne_zero fun hzero => ?_
  have hhead := List.head?_dropWhile_not (· == '0') cs
  rw [show cs.dropWhile (· == '0') = significantDigits cs from rfl, hc] at hhead
  simp [(digitOf_eq_zero_iff c).mp hzero] at hhead

/-- Fewer digits write a smaller number than digits that do not start with a zero. -/
theorem decimalOf_lt_of_length_lt (h : ∀ c ∈ cs, digitOf c < 10)
    (hhead : ∀ d ∈ ds.head?, 0 < digitOf d) (hlt : cs.length < ds.length) :
    decimalOf cs < decimalOf ds := by
  cases ds with
  | nil => cases hlt
  | cons d ds =>
    calc decimalOf cs < 10 ^ cs.length := decimalOf_lt h
      _ ≤ 10 ^ ds.length := Nat.pow_le_pow_right (by decide) (Nat.le_of_lt_succ hlt)
      _ ≤ 10 ^ ds.length * digitOf d := Nat.le_mul_of_pos_right _ (hhead d rfl)
      _ ≤ decimalOf (d :: ds) := by rw [decimalOf_cons]; exact Nat.le_add_left _ _

/-- Two orders agree where they tell the same apart and put the same first. -/
theorem compareOfLessAndEq_congr {α β : Type} [LT α] [DecidableLT α] [DecidableEq α] [LT β]
    [DecidableLT β] [DecidableEq β] {a b : α} {x y : β} (hlt : a < b ↔ x < y) (heq : a = b ↔ x = y) :
    compareOfLessAndEq a b = compareOfLessAndEq x y := by
  simp only [compareOfLessAndEq, hlt, heq]

theorem toNat_of_digit : ∀ c : Char, digitOf c < 10 → c.toNat = digitOf c + '0'.toNat := by
  refine Text.forall_char (by decide +kernel) fun c hc hdigit => ?_
  rw [digitOf_of_le hc] at hdigit
  exact absurd hdigit (by decide)

/-- Digits have the order of their values. -/
theorem compare_digitOf (hc : digitOf c < 10) (hd : digitOf d < 10) :
    compare (digitOf c) (digitOf d) = compare c d := by
  have hc := toNat_of_digit c hc
  have hd := toNat_of_digit d hd
  refine compareOfLessAndEq_congr ?_ ?_
  · rw [Char.lt_def, UInt32.lt_iff_toNat_lt]
    show _ ↔ c.toNat < d.toNat
    omega
  · rw [← Char.toNat_inj]
    omega

/-- As many digits have the order of their numbers. -/
theorem compare_decimalOf (h : ∀ c ∈ cs, digitOf c < 10) (h' : ∀ d ∈ ds, digitOf d < 10)
    (hlength : cs.length = ds.length) : compare (decimalOf cs) (decimalOf ds) = compare cs ds := by
  induction cs generalizing ds with
  | nil =>
    obtain rfl : ds = [] := List.length_eq_zero_iff.mp hlength.symm
    rfl
  | cons c cs ih =>
    cases ds with
    | nil => cases hlength
    | cons d ds =>
      obtain ⟨hc, hcs⟩ := List.forall_mem_cons.mp h
      obtain ⟨hd, hds⟩ := List.forall_mem_cons.mp h'
      replace hlength : cs.length = ds.length := Nat.succ.inj hlength
      have hlow : decimalOf cs < 10 ^ ds.length := hlength ▸ decimalOf_lt hcs
      rw [decimalOf_cons, decimalOf_cons, hlength, compare_place hlow (decimalOf_lt hds),
        List.compare_cons_cons, compare_digitOf hc hd, ih hcs hds hlength]

/-- Digit texts have the order of their numbers, and their own where the numbers are equal. -/
theorem compareDigits_eq (h : ∀ c ∈ cs, digitOf c < 10) (h' : ∀ d ∈ ds, digitOf d < 10) :
    compareDigits cs ds = (compare (decimalOf cs) (decimalOf ds)).then (compare cs ds) := by
  have hcs := digit_of_significant h
  have hds := digit_of_significant h'
  rw [← decimalOf_significant cs, ← decimalOf_significant ds]
  simp only [compareDigits]
  rcases Nat.lt_trichotomy (significantDigits cs).length (significantDigits ds).length with
    hlt | heq | hgt
  · rw [Nat.compare_eq_lt.mpr hlt,
      Nat.compare_eq_lt.mpr (decimalOf_lt_of_length_lt hcs head_significant_pos hlt)]
    rfl
  · rw [Nat.compare_eq_eq.mpr heq, compare_decimalOf hcs hds heq]
    rfl
  · rw [Nat.compare_eq_gt.mpr hgt,
      Nat.compare_eq_gt.mpr (decimalOf_lt_of_length_lt hds head_significant_pos hgt)]
    rfl

/-! ## Texts by bytes -/

/-- The bytes of a text. -/
def utf8Bytes (s : String) : List UInt8 := s.toUTF8.data.toList

theorem utf8Bytes_ofList (cs : List Char) :
    utf8Bytes (String.ofList cs) = cs.flatMap String.utf8EncodeChar := by
  rw [utf8Bytes, String.toUTF8, String.toByteArray_ofList, List.utf8Encode, List.data_toByteArray]

/-- An ASCII character is one byte. -/
theorem utf8EncodeChar_of_lt (h : c.toNat < 128) :
    String.utf8EncodeChar c = [UInt8.ofNat c.toNat] := by
  have hsmall : c.val.toNat ≤ 127 := Nat.le_of_lt_succ h
  rw [String.utf8EncodeChar]
  exact if_pos hsmall

theorem compare_byte (hc : c.toNat < 128) (hd : d.toNat < 128) :
    compare (UInt8.ofNat c.toNat) (UInt8.ofNat d.toNat) = compare c d := by
  have hbyte : ∀ {n : Nat}, n < 128 → (UInt8.ofNat n).toNat = n :=
    fun h => UInt8.toNat_ofNat_of_lt' (Nat.lt_trans h (by decide))
  refine compareOfLessAndEq_congr ?_ ?_
  · rw [UInt8.lt_iff_toNat_lt, hbyte hc, hbyte hd, Char.lt_def, UInt32.lt_iff_toNat_lt]
    rfl
  · rw [← UInt8.toNat_inj, hbyte hc, hbyte hd, Char.toNat_inj]

/-- Texts of ASCII characters have the order of their bytes. -/
theorem compare_utf8Bytes (h : ∀ c ∈ cs, c.toNat < 128) (h' : ∀ d ∈ ds, d.toNat < 128) :
    compare (utf8Bytes (String.ofList cs)) (utf8Bytes (String.ofList ds)) = compare cs ds := by
  rw [utf8Bytes_ofList, utf8Bytes_ofList]
  induction cs generalizing ds with
  | nil =>
    cases ds with
    | nil => rfl
    | cons d ds =>
      rw [List.flatMap_cons, utf8EncodeChar_of_lt (h' d List.mem_cons_self)]
      rfl
  | cons c cs ih =>
    obtain ⟨hc, hcs⟩ := List.forall_mem_cons.mp h
    rw [List.flatMap_cons, utf8EncodeChar_of_lt hc]
    cases ds with
    | nil => rfl
    | cons d ds =>
      obtain ⟨hd, hds⟩ := List.forall_mem_cons.mp h'
      rw [List.flatMap_cons, utf8EncodeChar_of_lt hd, List.singleton_append, List.singleton_append,
        List.compare_cons_cons, List.compare_cons_cons, compare_byte hc hd, ih hcs hds]

end Digits

/-! ## Numbered items -/

section Items

variable {x y : String} {k l : Nat}

/-- Indexes of digits have the order of their numbers, and of their texts where these are equal. -/
theorem Element.compare_index (hx : Numeral 10 x.toList k) (hy : Numeral 10 y.toList l) :
    (index x).compare (index y) = (Ord.compare k l).then (Ord.compare x.toList y.toList) := by
  have hindex : ∀ {x : String} {k : Nat}, Numeral 10 x.toList k → index x = ⟨.numeric, x⟩ := by
    intro x k h
    rw [index_eq, Kind.ofIndex, if_pos (numeral_ten_iff.mp h).1]
  rw [hindex hx, hindex hy]
  show compareDigits x.toList y.toList = _
  rw [compareDigits_eq hx.digits hy.digits]
  exact congrArg₂ _ (congrArg₂ _ hx.value hy.value) rfl

/-- The items of one name are compared by their indexes alone. -/
theorem Name.compare_item (n : Name) (x y : String) :
    (n.item x).compare (n.item y) = (Element.index x).compare (Element.index y) := by
  have hend : compareElements [Element.index x] [Element.index y] =
      (Element.index x).compare (Element.index y) := by
    simp [compareElements]
  rw [← hend]
  simp only [Name.compare, elements_item]
  induction n.elements with
  | nil => rfl
  | cons e es ih =>
    have hself : e.compare e = .eq := Std.ReflCmp.compare_self
    rw [List.cons_append, List.cons_append, compareElements, ih, hself]
    rfl

namespace Window

/-- The items of any name that are numbered by digits, however many, have the order of their
numbers, and of the bytes of their texts where these are equal. So they compare as equal only if the
texts are the same. -/
theorem item_compare_item (w : Reached) (hx : Numeral 10 x.toList k) (hy : Numeral 10 y.toList l) :
    ∃ a b, w.1.item x = .ok a ∧ w.1.item y = .ok b ∧
      a.compare b = .ok ((Ord.compare k l).then (Ord.compare (utf8Bytes x) (utf8Bytes y))) ∧
      (a.compare b = .ok .eq ↔ x = y) := by
  have hascii : ∀ {x : String} {k : Nat}, Numeral 10 x.toList k → ∀ c ∈ x.toList, c.toNat < 128 := by
    intro x k h c hc
    have hdigit := h.digits c hc
    rw [toNat_of_digit c hdigit]
    exact Nat.add_lt_add_right hdigit _ |>.trans (by decide)
  have hbytes := compare_utf8Bytes (hascii hx) (hascii hy)
  rw [String.ofList_toList, String.ofList_toList] at hbytes
  obtain ⟨n, hw, -⟩ := w.shows
  obtain ⟨a, ha, hshowsa⟩ := hw.item x
  obtain ⟨b, hb, hshowsb⟩ := hw.item y
  have horder : a.compare b = .ok ((Ord.compare k l).then (Ord.compare x.toList y.toList)) := by
    rw [hshowsa.compare hshowsb, n.compare_item, Element.compare_index hx hy]
  refine ⟨a, b, ha, hb, hbytes ▸ horder, ?_⟩
  rw [horder, Except.ok.injEq, Ordering.then_eq_eq, Std.compare_eq_iff_eq, Std.compare_eq_iff_eq,
    String.toList_inj]
  refine ⟨And.right, ?_⟩
  rintro rfl
  exact ⟨hx.value.symm.trans hy.value, rfl⟩

/-- Neither number fits 64 bits, and the smaller one has the longer text. -/
theorem item_compare_item_padded :
    Numeral 10 "0099999999999999999999".toList 99999999999999999999 ∧
      Numeral 10 "100000000000000000000".toList 100000000000000000000 ∧
      ∃ a b, (adapt "app.items" '.').item "0099999999999999999999" = .ok a ∧
        (adapt "app.items" '.').item "100000000000000000000" = .ok b ∧ a.compare b = .ok .lt := by
  have hx : Numeral 10 "0099999999999999999999".toList 99999999999999999999 :=
    numeral_ten_iff.mpr (by decide +kernel)
  have hy : Numeral 10 "100000000000000000000".toList 100000000000000000000 :=
    numeral_ten_iff.mpr (by decide +kernel)
  obtain ⟨a, b, ha, hb, horder, -⟩ := item_compare_item ⟨_, .adapt "app.items" '.'⟩ hx hy
  exact ⟨hx, hy, a, b, ha, hb, horder.trans (by decide +kernel)⟩

end Window

end Items

end TypedConfig
