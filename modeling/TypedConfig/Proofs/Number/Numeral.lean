import Mathlib.Data.List.Basic
import Mathlib.Data.Nat.Digits.Defs
import TypedConfig.Number.Integer
import TypedConfig.Proofs.Text.Ascii

/-!
# What the text of an integer means

An integer is written as an optional sign and decimal digits, or `0x` and hexadecimal digits
(`Writes`), and its magnitude is what the library's `Nat.ofDigits` makes of the digits. Reading
takes every text that writes an integer to that integer. It takes one form more: behind `0x` a
second sign may stand, and it counts (`WritesBehindPrefix`).

* `Numeral`: digits of a base, at least one, and the number that they write.
* `readMagnitude_eq_some_iff`, `readInteger_eq_some_iff`: which texts are read, and as what.
* `readInteger_toString`: an integer in decimal is read as itself.
-/

namespace TypedConfig.Number

open Text

/-! ## Digits -/

/-- The digits, each at the place of its value. -/
def digitChars : List Char :=
  ['0', '1', '2', '3', '4', '5', '6', '7', '8', '9', 'a', 'b', 'c', 'd', 'e', 'f']

/-- The value of a digit, small or capital. No other character has a value below 16. -/
def digitOf (c : Char) : Nat := digitChars.idxOf c.toLower

/-- The characters are digits of a base, at least one, and write the number. -/
structure Numeral (base : Nat) (cs : List Char) (n : Nat) : Prop where
  nonempty : cs ≠ []
  digits : ∀ c ∈ cs, digitOf c < base
  value : Nat.ofDigits base (cs.map digitOf).reverse = n

section Digits

variable {c : Char} {cs : List Char} {n : Nat}

theorem digitOf_of_le (h : 128 ≤ c.toNat) : digitOf c = 16 := by
  have hmem : c ∉ digitChars := by
    intro hc
    have hsmall : digitChars.all (·.toNat < 128) = true := by decide
    exact absurd (of_decide_eq_true (List.all_eq_true.mp hsmall c hc)) (Nat.not_lt.mpr h)
  rw [digitOf, toLower_of_le h, List.idxOf_eq_length hmem]
  rfl

theorem hexDigit?_eq (c : Char) :
    hexDigit? c = if digitOf c < 16 then some (digitOf c) else none := by
  revert c
  refine forall_char (by decide +kernel) fun c hc => ?_
  have hle : ∀ d : Char, d.toNat < 128 → decide (c ≤ d) = false :=
    fun d hd => decide_eq_false (not_le_of_le hc hd)
  rw [digitOf_of_le hc, hexDigit?, isDigit_of_le hc, hle 'f' (by decide), hle 'F' (by decide)]
  simp

theorem isDigit_iff_digitOf (c : Char) : c.isDigit = true ↔ digitOf c < 10 := by
  revert c
  refine forall_char (by decide +kernel) fun c hc => ?_
  simp [digitOf_of_le hc, isDigit_of_le hc]

theorem digitOf_of_isDigit : ∀ c : Char, c.isDigit = true → c.toNat - '0'.toNat = digitOf c := by
  refine forall_char (by decide +kernel) fun c hc hdigit => ?_
  rw [isDigit_iff_digitOf, digitOf_of_le hc] at hdigit
  exact absurd hdigit (by decide)

/-! ## Numbers of digits -/

/-- Digits are taken in from the first to the last. -/
theorem ofDigits_reverse (base : Nat) (ds : List Nat) :
    Nat.ofDigits base ds.reverse = ds.foldl (fun n d => d + base * n) 0 := by
  rw [Nat.ofDigits_eq_foldr, List.foldr_reverse]
  rfl

theorem digitsValue_eq (h : ∀ c ∈ cs, c.isDigit = true) :
    digitsValue cs = Nat.ofDigits 10 (cs.map digitOf).reverse := by
  rw [ofDigits_reverse, List.foldl_map, digitsValue, Nat.ofDigitChars_eq_foldl]
  refine List.foldl_ext _ _ _ fun n c hc => ?_
  rw [digitOf_of_isDigit c (h c hc), Nat.add_comm]

/-- Decimal digits are those that are told as such, and write their value. -/
theorem numeral_ten_iff : Numeral 10 cs n ↔ isDigits cs = true ∧ digitsValue cs = n := by
  have hdigits : isDigits cs = true ↔ cs ≠ [] ∧ ∀ c ∈ cs, digitOf c < 10 := by
    simp [isDigits, isDigit_iff_digitOf]
  have hvalue : (∀ c ∈ cs, digitOf c < 10) →
      digitsValue cs = Nat.ofDigits 10 (cs.map digitOf).reverse :=
    fun h => digitsValue_eq fun c hc => (isDigit_iff_digitOf c).mpr (h c hc)
  rw [hdigits]
  constructor
  · rintro ⟨hne, hd, rfl⟩
    exact ⟨⟨hne, hd⟩, hvalue hd⟩
  · rintro ⟨⟨hne, hd⟩, rfl⟩
    exact ⟨hne, hd, (hvalue hd).symm⟩

/-- Hexadecimal digits are taken in one by one, as long as there are no others. -/
theorem hexValue?_eq_some_iff {acc : Nat} : hexValue? acc cs = some n ↔
    (∀ c ∈ cs, digitOf c < 16) ∧ (cs.map digitOf).foldl (fun n d => d + 16 * n) acc = n := by
  induction cs generalizing acc with
  | nil => simp [hexValue?]
  | cons c cs ih =>
    rw [hexValue?, hexDigit?_eq]
    by_cases hc : digitOf c < 16
    · simp [hc, ih, Nat.mul_comm acc, Nat.add_comm (16 * acc)]
    · simp [hc]

theorem readHexDigits_eq_some_iff : readHexDigits cs = some n ↔ Numeral 16 cs n := by
  unfold readHexDigits
  split
  · rename_i hcs
    exact iff_of_false nofun fun h => h.nonempty (List.isEmpty_iff.mp hcs)
  · rename_i hcs
    rw [hexValue?_eq_some_iff, ← ofDigits_reverse]
    constructor
    · rintro ⟨hd, hn⟩
      exact ⟨mt List.isEmpty_iff.mpr hcs, hd, hn⟩
    · intro h
      exact ⟨h.digits, h.value⟩

/-- Digits do not start with a sign. -/
theorem Numeral.head_ne {base : Nat} (h : Numeral base cs n) (hbase : base ≤ 16) :
    ∀ c ∈ cs.head?, c ≠ '-' ∧ c ≠ '+' := by
  intro c hc
  have hd := h.digits c (List.mem_of_mem_head? hc)
  constructor <;> rintro rfl <;> exact absurd (Nat.lt_of_lt_of_le hd hbase) (by decide)

end Digits

/-! ## Signs -/

/-- What may stand in front of the digits of a number. -/
inductive Sign where
  | none
  | plus
  | minus
  deriving DecidableEq, Repr

namespace Sign

def chars : Sign → List Char
  | none => []
  | plus => ['+']
  | minus => ['-']

/-- The integer that a sign makes of a magnitude. -/
def apply (s : Sign) (n : Int) : Int := if s = minus then -n else n

end Sign

section Signs

variable {cs ds : List Char} {i m : Int} {n : Nat}

/-- What is split off is a sign, and it counts. -/
theorem exists_sign (cs : List Char) : ∃ s : Sign, cs = s.chars ++ (splitSign cs).2 ∧
    ∀ n, signed (splitSign cs).1 n = s.apply n := by
  unfold splitSign
  split
  · exact ⟨.minus, rfl, fun n => rfl⟩
  · exact ⟨.plus, rfl, fun n => rfl⟩
  · exact ⟨.none, rfl, fun n => rfl⟩

/-- A sign is split off from what starts with no other. -/
theorem splitSign_append (s : Sign) (h : ∀ c ∈ ds.head?, c ≠ '-' ∧ c ≠ '+') :
    (splitSign (s.chars ++ ds)).2 = ds ∧
      ∀ n, signed (splitSign (s.chars ++ ds)).1 n = s.apply n := by
  cases s with
  | plus | minus => exact ⟨rfl, fun n => rfl⟩
  | none =>
    cases ds with
    | nil => exact ⟨rfl, fun n => rfl⟩
    | cons c ds =>
      obtain ⟨hminus, hplus⟩ := h c rfl
      have hsplit : splitSign (c :: ds) = (false, c :: ds) := by
        unfold splitSign
        split <;> simp_all
      rw [Sign.chars, List.nil_append, hsplit]
      exact ⟨rfl, fun n => rfl⟩

/-! ## Magnitudes -/

/-- The letter that makes a number hexadecimal. -/
def IsHexMark (x : Char) : Prop := x = 'x' ∨ x = 'X'

theorem readMagnitude_hex {x : Char} (hx : IsHexMark x) (cs : List Char) :
    readMagnitude ('0' :: x :: cs) =
      (readHexDigits (splitSign cs).2).map fun n : Nat => signed (splitSign cs).1 n := by
  rcases hx with rfl | rfl <;> simp only [readMagnitude] <;>
    cases readHexDigits (splitSign cs).2 <;> rfl

theorem readMagnitude_decimal (h : ∀ x ds, cs = '0' :: x :: ds → ¬IsHexMark x) :
    readMagnitude cs = if isDigits cs then some (digitsValue cs : Int) else none := by
  unfold readMagnitude
  split
  · exact absurd (.inl rfl) (h _ _ rfl)
  · exact absurd (.inr rfl) (h _ _ rfl)
  · rfl

/-- Decimal digits are no hexadecimal number. -/
theorem Numeral.not_hex (h : Numeral 10 cs n) {x : Char} (hx : cs = '0' :: x :: ds) :
    ¬IsHexMark x := by
  have hd := h.digits x (by simp [hx])
  rintro (rfl | rfl) <;> exact absurd hd (by decide)

/-- A magnitude is decimal digits, or hexadecimal ones behind `0x`, where a sign may stand. -/
theorem readMagnitude_eq_some_iff : readMagnitude cs = some m ↔
    (∃ n : Nat, Numeral 10 cs n ∧ m = n) ∨
      ∃ x ds, ∃ t : Sign, ∃ n : Nat, IsHexMark x ∧ cs = '0' :: x :: (t.chars ++ ds) ∧
        Numeral 16 ds n ∧ m = t.apply n := by
  constructor
  · intro h
    by_cases hhex : ∃ x ds, cs = '0' :: x :: ds ∧ IsHexMark x
    · obtain ⟨x, ds, rfl, hx⟩ := hhex
      obtain ⟨t, hds, ht⟩ := exists_sign ds
      rw [readMagnitude_hex hx, Option.map_eq_some_iff] at h
      obtain ⟨n, hn, rfl⟩ := h
      refine .inr ⟨x, _, t, n, hx, ?_, readHexDigits_eq_some_iff.mp hn, ht n⟩
      rw [← hds]
    · rw [readMagnitude_decimal fun x ds hcs hx => hhex ⟨x, ds, hcs, hx⟩] at h
      split at h
      · rename_i hdigits
        cases h
        exact .inl ⟨_, numeral_ten_iff.mpr ⟨hdigits, rfl⟩, rfl⟩
      · cases h
  · rintro (⟨n, hn, rfl⟩ | ⟨x, ds, t, n, hx, rfl, hn, rfl⟩)
    · obtain ⟨hdigits, rfl⟩ := numeral_ten_iff.mp hn
      rw [readMagnitude_decimal fun x ds hcs => hn.not_hex hcs, if_pos hdigits]
    · obtain ⟨hrest, ht⟩ := splitSign_append t (hn.head_ne (Nat.le_refl _))
      rw [readMagnitude_hex hx, hrest, readHexDigits_eq_some_iff.mpr hn, Option.map_some, ht n]

/-- A magnitude does not start with a sign. -/
theorem head_ne_of_readMagnitude (h : readMagnitude cs = some m) :
    ∀ c ∈ cs.head?, c ≠ '-' ∧ c ≠ '+' := by
  rcases readMagnitude_eq_some_iff.mp h with ⟨n, hn, -⟩ | ⟨x, ds, t, n, -, rfl, -⟩
  · exact hn.head_ne (by decide)
  · rintro c ⟨⟩
    decide

end Signs

/-! ## Integers -/

/-- The text writes the integer: a sign, if any, and decimal digits, or `0x` and hexadecimal
digits. -/
inductive Writes : List Char → Int → Prop
  | decimal (s : Sign) {ds : List Char} {n : Nat} (h : Numeral 10 ds n) :
      Writes (s.chars ++ ds) (s.apply n)
  | hexadecimal (s : Sign) {x : Char} {ds : List Char} {n : Nat} (hx : IsHexMark x)
      (h : Numeral 16 ds n) : Writes (s.chars ++ '0' :: x :: ds) (s.apply n)

/-- The text writes the integer with a sign behind `0x`. -/
inductive WritesBehindPrefix : List Char → Int → Prop
  | intro (s t : Sign) {x : Char} {ds : List Char} {n : Nat} (ht : t ≠ .none) (hx : IsHexMark x)
      (h : Numeral 16 ds n) :
      WritesBehindPrefix (s.chars ++ '0' :: x :: (t.chars ++ ds)) (s.apply (t.apply n))

theorem readInteger_eq (cs : List Char) :
    readInteger cs = (readMagnitude (splitSign cs).2).map (signed (splitSign cs).1) := rfl

/-- A sign counts in front of a magnitude. -/
theorem readInteger_append (s : Sign) {cs : List Char} {m : Int}
    (h : readMagnitude cs = some m) : readInteger (s.chars ++ cs) = some (s.apply m) := by
  obtain ⟨hrest, hs⟩ := splitSign_append s (head_ne_of_readMagnitude h)
  rw [readInteger_eq, hrest, h, Option.map_some, hs]

/-- What is read is a text that writes an integer, or one with a sign behind `0x`, and it is read as
that integer. -/
theorem readInteger_eq_some_iff {cs : List Char} {i : Int} :
    readInteger cs = some i ↔ Writes cs i ∨ WritesBehindPrefix cs i := by
  constructor
  · intro h
    obtain ⟨s, hcs, hs⟩ := exists_sign cs
    rw [readInteger_eq, Option.map_eq_some_iff] at h
    obtain ⟨m, hm, rfl⟩ := h
    rw [hs m]
    generalize (splitSign cs).2 = rest at hcs hm
    subst hcs
    rcases readMagnitude_eq_some_iff.mp hm with ⟨n, hn, rfl⟩ | ⟨x, ds, t, n, hx, rfl, hn, rfl⟩
    · exact .inl (.decimal s hn)
    · by_cases ht : t = .none
      · subst ht
        exact .inl (.hexadecimal s hx hn)
      · exact .inr (.intro s t ht hx hn)
  · rintro (h | h)
    · cases h with
      | decimal s h => exact readInteger_append s (readMagnitude_eq_some_iff.mpr (.inl ⟨_, h, rfl⟩))
      | hexadecimal s hx h =>
        exact readInteger_append s
          (readMagnitude_eq_some_iff.mpr (.inr ⟨_, _, .none, _, hx, rfl, h, rfl⟩))
    · cases h with
      | intro s t ht hx h =>
        exact readInteger_append s
          (readMagnitude_eq_some_iff.mpr (.inr ⟨_, _, t, _, hx, rfl, h, rfl⟩))

/-- No text has a sign behind `0x` and writes an integer without it. -/
theorem WritesBehindPrefix.not_writes {cs : List Char} {i j : Int} (h : WritesBehindPrefix cs i) :
    ¬Writes cs j := by
  cases h with
  | @intro s t x ds n ht hx h =>
    -- Only one sign can be split off, so what follows it is the same in both forms.
    have hrest : (splitSign (s.chars ++ '0' :: x :: (t.chars ++ ds))).2 = '0' :: x :: (t.chars ++ ds) :=
      (splitSign_append s (by rintro c ⟨⟩; decide)).1
    intro hwrites
    generalize htext : s.chars ++ '0' :: x :: (t.chars ++ ds) = text at hwrites hrest
    cases hwrites with
    | decimal s' h' =>
      rw [(splitSign_append s' (h'.head_ne (by decide))).1] at hrest
      exact h'.not_hex hrest hx
    | hexadecimal s' hx' h' =>
      rw [(splitSign_append s' (by rintro c ⟨⟩; decide)).1] at hrest
      obtain ⟨-, hdigits⟩ := List.cons.inj (List.cons.inj hrest).2
      have hhead := h'.head_ne (Nat.le_refl _)
      rw [hdigits] at hhead
      cases t with
      | none => exact ht rfl
      | plus => exact (hhead '+' rfl).2 rfl
      | minus => exact (hhead '-' rfl).1 rfl

/-! ## Integers in decimal -/

/-- A number in decimal. -/
theorem numeral_toDigits (n : Nat) : Numeral 10 (Nat.toDigits 10 n) n := by
  refine numeral_ten_iff.mpr ⟨?_, Nat.ofDigitChars_ten_toDigits⟩
  have hdigit : ∀ c ∈ Nat.toDigits 10 n, c.isDigit = true :=
    fun c hc => Nat.isDigit_of_mem_toDigits (by decide) (Nat.le_refl _) hc
  simpa [isDigits] using hdigit

/-- The decimal text of an integer writes it. -/
theorem writes_toString (i : Int) : Writes (toString i).toList i := by
  cases i with
  | ofNat n =>
    have h := Writes.decimal .none (numeral_toDigits n)
    rw [← Nat.toList_repr] at h
    exact h
  | negSucc n =>
    have h := Writes.decimal .minus (numeral_toDigits (n + 1))
    rw [← Nat.toList_repr] at h
    have htext : (toString (Int.negSucc n)).toList = Sign.minus.chars ++ (n + 1).repr.toList :=
      String.toList_append
    rw [htext]
    exact h

theorem readInteger_toString (i : Int) : readInteger (toString i).toList = some i :=
  readInteger_eq_some_iff.mpr (.inl (writes_toString i))

end TypedConfig.Number
