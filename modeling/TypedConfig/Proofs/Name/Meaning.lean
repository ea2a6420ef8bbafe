import TypedConfig.Name.Reading
import TypedConfig.Number.Integer

/-!
# The meaning of a name

Two names are `==` if they mean the same, and that is decided by the kinds of their elements: words
of known spelling are compared without a look at their case. The short cuts are sound only for
elements whose text is as their kind says (`Element.WellFormed`), and those are all that reading and
the operations on names make (`Name.Built.wellFormed`).

* `Name.meaning`: for each element whether it is an index, and the characters that count.
* `Name.beq_iff`: names that are well formed are `==` exactly if their meanings are equal, so that
  `==` is an equivalence on them.
* `Name.isAncestorOf_iff`: a name lies above another exactly if its meaning is a strict prefix.
* `Name.covers`: a name is another or lies above it, exactly if its meaning is a prefix
  (`Name.covers_iff`).
* `scanFrom_wellFormed`: the runs of a scan are well formed, for every text and separator.
-/

namespace TypedConfig

open Number

/-! ## Characters of words -/

theorem isWordChar_iff {c : Char} : isWordChar c = true ↔
    97 ≤ c.toNat ∧ c.toNat ≤ 122 ∨ 48 ≤ c.toNat ∧ c.toNat ≤ 57 := by
  show (decide ('a'.val ≤ c.val) && decide (c.val ≤ 'z'.val) ||
    decide ('0'.val ≤ c.val) && decide (c.val ≤ '9'.val)) = true ↔ _
  simp only [Bool.or_eq_true, Bool.and_eq_true, decide_eq_true_eq, UInt32.le_iff_toNat_le]
  exact Iff.rfl

theorem toLower_of_isWordChar {c : Char} (h : isWordChar c = true) : c.toLower = c := by
  rw [isWordChar_iff] at h
  have hval : c.val.toNat = c.toNat := rfl
  have hA : 'A'.val.toNat = 65 := rfl
  have hZ : 'Z'.val.toNat = 90 := rfl
  unfold Char.toLower
  rw [dif_neg]
  simp only [ge_iff_le, UInt32.le_iff_toNat_le]
  omega

/-- The uniform form only leaves out the dashes of a text of canonical characters. -/
theorem uniformChars_of_dashed {cs : List Char} (h : ∀ c ∈ cs, isWordChar c = true ∨ c = '-') :
    uniformChars cs = cs.filter (· != '-') := by
  induction cs with
  | nil => rfl
  | cons c cs ih =>
    have ih := ih fun d hd => h d (List.mem_cons_of_mem _ hd)
    simp only [uniformChars, List.map_cons] at ih ⊢
    rcases h c List.mem_cons_self with hc | rfl
    · have hd : c ≠ '-' := by rintro rfl; revert hc; decide
      rw [toLower_of_isWordChar hc, List.filter_cons_of_pos hc, ih,
        List.filter_cons_of_pos (by simpa using hd)]
    · rw [List.filter_cons_of_neg (by decide), ih, List.filter_cons_of_neg (by decide)]

theorem uniformChars_of_word {cs : List Char} (h : ∀ c ∈ cs, isWordChar c = true) :
    uniformChars cs = cs := by
  rw [uniformChars_of_dashed fun c hc => .inl (h c hc), List.filter_eq_self]
  intro c hc
  have hw := h c hc
  have hd : c ≠ '-' := by rintro rfl; revert hw; decide
  simpa using hd

/-! ## Elements -/

/-- The characters are as an element of the kind has them. -/
def Kind.Spells (kind : Kind) (cs : List Char) : Prop :=
  match kind with
  | .uniform => ∀ c ∈ cs, isWordChar c = true
  | .dashed => ∀ c ∈ cs, isWordChar c = true ∨ c = '-'
  | .nonUniform => True
  | .indexed => isDigits cs = false
  | .numeric => isDigits cs = true

theorem digitsValue_toString (k : Nat) : Number.digitsValue (toString k).toList = k := by
  rw [Number.digitsValue, Nat.toString_eq_repr, Nat.toList_repr, Nat.ofDigitChars_ten_toDigits]

/-- The index that a position is written as is one of digits. -/
theorem index_toString_kind (k : Nat) : (Element.index (toString k)).kind = .numeric := by
  unfold Element.index
  rw [if_pos]
  rw [Nat.toString_eq_repr, Bool.and_eq_true, Nat.toList_repr, List.all_eq_true]
  refine ⟨?_, fun c hc => Nat.isDigit_of_mem_toDigits (by omega) (by omega) hc⟩
  simp

namespace Element

/-- The text of the element is as its kind says. -/
def WellFormed (e : Element) : Prop := e.kind.Spells e.text.toList

/-- Whether the element is an index, and the characters of it that count. -/
def meaning (e : Element) : Bool × List Char :=
  if e.isIndex then (true, e.text.toList) else (false, uniformChars e.text.toList)

theorem index_wellFormed (key : String) : (index key).WellFormed := by
  unfold index
  split
  · rename_i h
    simp only [WellFormed, Kind.Spells, isDigits]
    simpa using h
  · rename_i h
    simp only [WellFormed, Kind.Spells, isDigits]
    simpa using h

theorem index_isIndex (key : String) : (index key).isIndex = true := by
  unfold index; split <;> rfl

@[simp] theorem index_text (key : String) : (index key).text = key := by
  unfold index; split <;> rfl

theorem index_meaning (key : String) : (index key).meaning = (true, key.toList) := by
  rw [meaning, if_pos (index_isIndex key), index_text]

theorem same_self (e : Element) : e.same e = true := by
  unfold same
  split <;> simp_all

theorem same_comm (a b : Element) : a.same b = b.same a := by
  obtain ⟨ka, ta⟩ := a
  obtain ⟨kb, tb⟩ := b
  cases ka <;> cases kb <;> simp only [same] <;> exact BEq.comm

/-- Elements mean the same exactly if their meanings are equal. -/
theorem same_iff {a b : Element} (ha : a.WellFormed) (hb : b.WellFormed) :
    a.same b = true ↔ a.meaning = b.meaning := by
  obtain ⟨ka, ta⟩ := a
  obtain ⟨kb, tb⟩ := b
  -- The dashes and the case of a word count in no kind, so each kind is taken to its uniform form.
  have hword : ∀ k t, Element.WellFormed ⟨k, t⟩ → k = .uniform → uniformChars t.toList = t.toList :=
    fun k t h hk => by subst hk; exact uniformChars_of_word h
  have hdash : ∀ k t, Element.WellFormed ⟨k, t⟩ → k = .uniform ∨ k = .dashed →
      uniformChars t.toList = undashed t := by
    rintro k t h (rfl | rfl)
    · exact uniformChars_of_dashed fun c hc => .inl (h c hc)
    · exact uniformChars_of_dashed h
  have wa := hword _ _ ha
  have wb := hword _ _ hb
  have da := hdash _ _ ha
  have db := hdash _ _ hb
  cases ka <;> cases kb <;>
    simp_all [same, meaning, isIndex, Kind.isIndex, ← String.toList_inj]

/-- Well-formed elements of one meaning are both numeric, or neither is. -/
theorem numeric_of_meaning_eq {a b : Element} (ha : a.WellFormed) (hb : b.WellFormed)
    (h : a.meaning = b.meaning) : (a.kind == .numeric) = (b.kind == .numeric) := by
  obtain ⟨ka, ta⟩ := a
  obtain ⟨kb, tb⟩ := b
  simp only [WellFormed, Kind.Spells] at ha hb
  cases ka <;> cases kb <;> simp_all +decide [meaning, isIndex, Kind.isIndex]

end Element

/-! ## Names -/

namespace Name

/-- All elements of the name are well formed. -/
def WellFormed (n : Name) : Prop := ∀ e ∈ n.elements, e.WellFormed

/-- The meanings of the elements. -/
def meaning (n : Name) : List (Bool × List Char) := n.elements.map Element.meaning

@[simp] theorem length_meaning (n : Name) : n.meaning.length = n.length := by
  simp [meaning, length]

theorem length_congr {m n : Name} (h : m.meaning = n.meaning) : m.length = n.length := by
  rw [← length_meaning, h, length_meaning]

theorem length_item (n : Name) (key : String) : (n.item key).length = n.length + 1 :=
  List.length_append

@[simp] theorem meaning_append (a b : Name) : (a ++ b).meaning = a.meaning ++ b.meaning := by
  simp [meaning]

@[simp] theorem meaning_item (n : Name) (key : String) :
    (n.item key).meaning = n.meaning ++ [(true, key.toList)] := by
  simp [meaning, Element.index_meaning]

@[simp] theorem meaning_take (n : Name) (k : Nat) : (n.take k).meaning = n.meaning.take k := by
  simp [meaning]

theorem WellFormed.append {a b : Name} (ha : a.WellFormed) (hb : b.WellFormed) :
    (a ++ b).WellFormed := by
  intro e he
  rcases List.mem_append.mp he with h | h
  · exact ha e h
  · exact hb e h

theorem WellFormed.item {n : Name} (h : n.WellFormed) (key : String) : (n.item key).WellFormed := by
  intro e he
  rcases List.mem_append.mp he with h' | h'
  · exact h e h'
  · rw [List.mem_singleton.mp h']; exact Element.index_wellFormed key

theorem WellFormed.take {n : Name} (h : n.WellFormed) (k : Nat) : (n.take k).WellFormed :=
  fun e he => h e (List.mem_of_mem_take he)

theorem WellFormed.drop {n : Name} (h : n.WellFormed) (k : Nat) : (n.drop k).WellFormed :=
  fun e he => h e (List.mem_of_mem_drop he)

theorem WellFormed.parent {n : Name} (h : n.WellFormed) : n.parent.WellFormed :=
  fun e he => h e (List.dropLast_subset _ he)

/-- The elements of the shorter list mean the same as those at the front of the longer. -/
theorem sameElements_iff {as bs : List Element} (ha : ∀ e ∈ as, e.WellFormed)
    (hb : ∀ e ∈ bs, e.WellFormed) (hl : as.length ≤ bs.length) :
    sameElements as bs = true ↔
      as.map Element.meaning = (bs.map Element.meaning).take as.length := by
  induction as generalizing bs with
  | nil => simp [sameElements]
  | cons a as ih =>
    cases bs with
    | nil => simp at hl
    | cons b bs =>
      have ih := @ih bs (fun e he => ha e (List.mem_cons_of_mem _ he))
        (fun e he => hb e (List.mem_cons_of_mem _ he)) (by simpa using hl)
      have hab := Element.same_iff (ha a List.mem_cons_self) (hb b List.mem_cons_self)
      simp [sameElements, hab, ih]

/-- Names mean the same exactly if their meanings are equal. -/
theorem beq_iff {a b : Name} (ha : a.WellFormed) (hb : b.WellFormed) :
    (a == b) = true ↔ a.meaning = b.meaning := by
  show a.same b = true ↔ _
  rw [same, Bool.and_eq_true, beq_iff_eq]
  constructor
  · rintro ⟨hl, hs⟩
    have h := (sameElements_iff ha hb (Nat.le_of_eq hl)).mp hs
    rwa [List.take_of_length_le (by rw [List.length_map]; exact Nat.le_of_eq hl.symm)] at h
  · intro h
    have hl : a.length = b.length := by simpa using congrArg List.length h
    refine ⟨hl, (sameElements_iff ha hb (Nat.le_of_eq hl)).mpr ?_⟩
    rw [List.take_of_length_le (by rw [List.length_map]; exact Nat.le_of_eq hl.symm)]
    exact h

theorem sameElements_comm (as bs : List Element) : sameElements as bs = sameElements bs as := by
  induction as generalizing bs with
  | nil => cases bs <;> rfl
  | cons a as ih =>
    cases bs with
    | nil => rfl
    | cons b bs => rw [sameElements, sameElements, Element.same_comm, ih]

theorem beq_comm (a b : Name) : (a == b) = (b == a) := by
  show a.same b = b.same a
  rw [same, same, sameElements_comm, BEq.comm (a := a.length)]

theorem isEmpty_eq_false_iff {n : Name} : n.isEmpty = false ↔ 0 < n.length := by
  simp [isEmpty, length, List.length_pos_iff]

/-- A name of the meaning of the root is the root. -/
theorem isEmpty_congr {a b : Name} (h : a.meaning = b.meaning) : a.isEmpty = b.isEmpty := by
  have hmeaning : ∀ n : Name, n.meaning.isEmpty = n.isEmpty := fun n => List.isEmpty_map
  rw [← hmeaning a, h, hmeaning b]

/-- What lies below a name is not the root. -/
theorem isEmpty_of_isAncestorOf {a b : Name} (h : a.isAncestorOf b = true) : b.isEmpty = false := by
  rw [isAncestorOf, Bool.and_eq_true, decide_eq_true_eq] at h
  exact isEmpty_eq_false_iff.mpr (Nat.lt_of_le_of_lt (Nat.zero_le _) h.1)

/-- A name lies above another exactly if its meaning is a strict prefix of the other's. -/
theorem isAncestorOf_iff {a b : Name} (ha : a.WellFormed) (hb : b.WellFormed) :
    a.isAncestorOf b = true ↔ a.length < b.length ∧ a.meaning = b.meaning.take a.length := by
  rw [isAncestorOf, Bool.and_eq_true, decide_eq_true_eq]
  exact and_congr_right fun hl => sameElements_iff ha hb (Nat.le_of_lt hl)

theorem sameElements_append_self (as bs : List Element) : sameElements as (as ++ bs) = true := by
  induction as with
  | nil => rfl
  | cons a as ih => simp [sameElements, Element.same_self, ih]

theorem sameElements_of_append {as bs cs : List Element} (h : sameElements (as ++ bs) cs = true) :
    sameElements as cs = true := by
  induction as generalizing cs with
  | nil => rfl
  | cons a as ih =>
    cases cs with
    | nil => rfl
    | cons c cs =>
      simp only [List.cons_append, sameElements, Bool.and_eq_true] at h ⊢
      exact ⟨h.1, ih h.2⟩

theorem sameElements_append_singleton {es fs : List Element} {e f : Element}
    (hf : fs[es.length]? = some f) :
    sameElements (es ++ [e]) fs = (sameElements es fs && e.same f) := by
  induction es generalizing fs with
  | nil =>
    cases fs with
    | nil => cases hf
    | cons g gs => cases hf; simp [sameElements]
  | cons d ds ih =>
    cases fs with
    | nil => cases hf
    | cons g gs =>
      simp only [List.cons_append, sameElements, Bool.and_assoc]
      rw [ih hf]

theorem sameElements_append_left (cs as bs : List Element) :
    sameElements (cs ++ as) (cs ++ bs) = sameElements as bs := by
  induction cs with
  | nil => rfl
  | cons c cs ih => simp [sameElements, Element.same_self, ih]

/-- Two names with one prefix lie below each other as they do without it. -/
theorem isAncestorOf_append_left (p a b : Name) :
    (p ++ a).isAncestorOf (p ++ b) = a.isAncestorOf b := by
  rw [Bool.eq_iff_iff]
  simp only [isAncestorOf, Bool.and_eq_true, decide_eq_true_eq]
  simp [length, sameElements_append_left]

/-- A name lies above what it is joined with. -/
theorem isAncestorOf_append (n : Name) {k : Name} (hk : k.elements ≠ []) :
    n.isAncestorOf (n ++ k) = true := by
  have hl : 0 < k.elements.length := List.length_pos_iff.mpr hk
  simp [isAncestorOf, length, sameElements_append_self, hl]

/-- What lies below a name lies below every name that it begins with. -/
theorem isAncestorOf_of_append {n k m : Name} (h : (n ++ k).isAncestorOf m = true) :
    n.isAncestorOf m = true := by
  rw [isAncestorOf, Bool.and_eq_true, decide_eq_true_eq] at h ⊢
  have hl : n.length ≤ (n ++ k).length := by simp [length]
  exact ⟨Nat.lt_of_le_of_lt hl h.1, sameElements_of_append h.2⟩

/-- A name below a prefix means the prefix with what is left of the name behind it. -/
theorem meaning_of_drop {p n : Name} (hp : p.WellFormed) (hn : n.WellFormed)
    (h : p.isAncestorOf n = true) : n.meaning = p.meaning ++ (n.drop p.length).meaning := by
  have hdrop : (n.drop p.length).meaning = n.meaning.drop p.length := by simp [meaning]
  rw [hdrop, ((isAncestorOf_iff hp hn).mp h).2, List.take_append_drop]

/-- What lies above a name lies above every name of the same meaning. -/
theorem isAncestorOf_congr {n a b : Name} (hn : n.WellFormed) (ha : a.WellFormed)
    (hb : b.WellFormed) (h : a.meaning = b.meaning) : n.isAncestorOf a = n.isAncestorOf b := by
  have hl : a.length = b.length := by simpa using congrArg List.length h
  rw [Bool.eq_iff_iff, isAncestorOf_iff hn ha, isAncestorOf_iff hn hb, h, hl]

/-- What lies above the beginning of a name lies above the name. -/
theorem isAncestorOf_of_take {n x : Name} (hn : n.WellFormed) (hx : x.WellFormed) {i : Nat}
    (h : n.isAncestorOf (x.take i) = true) : n.isAncestorOf x = true := by
  rw [isAncestorOf_iff hn (hx.take i), meaning_take, List.take_take] at h
  obtain ⟨hlt, heq⟩ := h
  have hlength : (x.take i).length = min i x.length := List.length_take
  rw [hlength] at hlt
  rw [Nat.min_eq_left (by omega)] at heq
  exact (isAncestorOf_iff hn hx).mpr ⟨by omega, heq⟩

/-! ### Names at or below a root -/

/-- `n` is the root or lies below it. -/
def covers (root n : Name) : Bool := root == n || root.isAncestorOf n

section Covers

variable {root n k x : Name} (hr : root.WellFormed) (hn : n.WellFormed)

include hr hn

/-- A root covers the names whose meaning begins with its own. -/
theorem covers_iff : root.covers n = true ↔ root.meaning <+: n.meaning := by
  rw [covers, Bool.or_eq_true, beq_iff hr hn, isAncestorOf_iff hr hn, List.prefix_iff_eq_take,
    length_meaning]
  constructor
  · rintro (heq | ⟨-, heq⟩)
    · have hlength : n.meaning.length = root.length := by rw [← heq, length_meaning]
      rw [List.take_of_length_le (Nat.le_of_eq hlength), heq]
    · exact heq
  · intro heq
    have hle : root.length ≤ n.length := by
      rw [← length_meaning, heq, List.length_take, length_meaning]
      exact Nat.min_le_right _ _
    rcases Nat.lt_or_eq_of_le hle with hlt | hlength
    · exact .inr ⟨hlt, heq⟩
    · rw [hlength, ← length_meaning n, List.take_length] at heq
      exact .inl heq

/-- What begins with a covered name is covered. -/
theorem covers_append (hk : k.WellFormed) (h : root.covers n = true) :
    root.covers (n ++ k) = true := by
  rw [covers_iff hr hn] at h
  rw [covers_iff hr (hn.append hk), meaning_append]
  exact h.trans (List.prefix_append _ _)

/-- What lies below a covered name is covered. -/
theorem covers_of_isAncestorOf (hx : x.WellFormed) (h : root.covers n = true)
    (hanc : n.isAncestorOf x = true) : root.covers x = true := by
  have hbelow : n.covers x = true := by rw [covers, hanc, Bool.or_true]
  rw [covers_iff hr hn] at h
  rw [covers_iff hn hx] at hbelow
  exact (covers_iff hr hx).mpr (h.trans hbelow)

/-- Names of one meaning are covered alike. -/
theorem covers_congr (hk : k.WellFormed) (h : n.meaning = k.meaning) :
    root.covers n = root.covers k := by
  rw [Bool.eq_iff_iff, covers_iff hr hn, covers_iff hr hk, h]

/-- The beginning of a name below a covered one is covered if it is as long as that. -/
theorem covers_take (hx : x.WellFormed) (h : root.covers n = true) (hanc : n.isAncestorOf x = true)
    {i : Nat} (hi : n.length ≤ i) : root.covers (x.take i) = true := by
  have hbelow : n.covers x = true := by rw [covers, hanc, Bool.or_true]
  rw [covers_iff hr hn] at h
  rw [covers_iff hn hx] at hbelow
  rw [covers_iff hr (hx.take i), meaning_take]
  exact h.trans (List.prefix_take_iff.mpr ⟨hbelow, by rwa [length_meaning]⟩)

/-- With one more element, a name lies below the names that cover it. -/
theorem isAncestorOf_append_one (hk : k.WellFormed) (hlength : k.length = 1) :
    root.isAncestorOf (n ++ k) = root.covers n := by
  have hlong : (n ++ k).length = n.length + 1 := by
    rw [← length_meaning, meaning_append, List.length_append, length_meaning, length_meaning,
      hlength]
  rw [Bool.eq_iff_iff, isAncestorOf_iff hr (hn.append hk), covers_iff hr hn, hlong,
    List.prefix_iff_eq_take, length_meaning, meaning_append, Nat.lt_succ_iff]
  constructor
  · rintro ⟨hle, heq⟩
    rwa [List.take_append_of_le_length (by rwa [length_meaning])] at heq
  · intro heq
    have hle : root.length ≤ n.length := by
      rw [← length_meaning, heq, List.length_take, length_meaning]
      exact Nat.min_le_right _ _
    exact ⟨hle, by rwa [List.take_append_of_le_length (by rwa [length_meaning])]⟩

end Covers

theorem covers_self {root : Name} (hr : root.WellFormed) : root.covers root = true :=
  (covers_iff hr hr).mpr (List.prefix_refl _)

/-- Names of one meaning have their numeric indexes in the same places. -/
theorem isNumericAt_congr {a b : Name} (ha : a.WellFormed) (hb : b.WellFormed)
    (h : a.meaning = b.meaning) (i : Nat) : a.isNumericAt i = b.isNumericAt i := by
  have hi : (a.elements[i]?).map Element.meaning = (b.elements[i]?).map Element.meaning := by
    rw [← List.getElem?_map, ← List.getElem?_map]
    exact congrArg (·[i]?) h
  unfold isNumericAt element?
  cases hea : a.elements[i]? with
  | none => cases heb : b.elements[i]? <;> simp_all
  | some e =>
    cases heb : b.elements[i]? with
    | none => simp_all
    | some e' =>
      rw [hea, heb] at hi
      exact Element.numeric_of_meaning_eq (ha e (List.mem_of_getElem? hea))
        (hb e' (List.mem_of_getElem? heb)) (by simpa using hi)

end Name

end TypedConfig
