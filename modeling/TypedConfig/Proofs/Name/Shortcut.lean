import Mathlib.Data.List.Forall2
import TypedConfig.Proofs.Name.Kept
import TypedConfig.Proofs.Name.Order

/-!
# The short cuts of names

An element whose kind says so is rendered as it was written, and a name without slots whose elements
stand one dot apart is taken from its text in one piece. Both give what the long way gives.

* `Element.render_eq_convert`: rendering an element is converting its text, whatever its kind.
* `Window.Shows.shortcut`: the short cut is the texts of the elements with dots between them.
* `Window.Shows.same`, `Window.Shows.text`: equality and the text of what is kept are those of the
  name that is shown.
-/

namespace TypedConfig

/-! ## Rendering elements -/

/-- The text of an element, converted to a form. An index is left as it is. -/
def Element.convert (form : Form) (e : Element) : String :=
  if e.isIndex then e.text
  else match form with
    | .written => String.ofList (writtenChars e.text.toList)
    | .dashed => String.ofList (dashedChars e.text.toList)
    | .uniform => uniformForm e.text

theorem keepChars_eq_self {keep : Bool → Char → Bool} {c : Char} {cs : List Char}
    (hc : keep true c = true) (hcs : ∀ d ∈ cs, keep false d = true) :
    keepChars keep (c :: cs) = c :: cs := by
  rw [keepChars, if_pos hc, List.filter_eq_self.mpr hcs]

theorem toLower_of_isCanonical {atStart : Bool} {c : Char} (h : isCanonical atStart c = true) :
    c.toLower = c := by
  simp only [isCanonical, Bool.or_eq_true, Bool.and_eq_true, beq_iff_eq] at h
  rcases h with h | ⟨-, rfl⟩
  · exact toLower_of_isWordChar h
  · rfl

/-- A canonical word has its first character and the others. -/
theorem exists_cons_of_isWord {cs : List Char} (h : isWord cs = true) :
    ∃ d ds, cs = d :: ds ∧ isCanonical true d = true ∧ ∀ c ∈ ds, isCanonical false c = true := by
  cases cs with
  | nil => cases h
  | cons d ds =>
    simp only [isWord, Bool.and_eq_true, List.all_eq_true] at h
    exact ⟨d, ds, rfl, by simp [isCanonical, h.1], fun c hc => by simpa [isCanonical] using h.2 c hc⟩

/-- A canonical word is written as it is. -/
theorem writtenChars_of_isWord {cs : List Char} (h : isWord cs = true) : writtenChars cs = cs := by
  obtain ⟨d, ds, rfl, hd, hds⟩ := exists_cons_of_isWord h
  refine keepChars_eq_self ?_ fun c hc => ?_
  · simp [toLower_of_isCanonical hd, hd]
  · simp [toLower_of_isCanonical (hds c hc), hds c hc]

/-- A canonical word is its own dashed form. -/
theorem dashedChars_of_isWord {cs : List Char} (h : isWord cs = true) : dashedChars cs = cs := by
  obtain ⟨d, ds, rfl, hd, hds⟩ := exists_cons_of_isWord h
  have hrest : ds.map Char.toLower = ds.map id :=
    List.map_congr_left fun c hc => toLower_of_isCanonical (hds c hc)
  unfold dashedChars
  rw [List.map_cons, toLower_of_isCanonical hd, hrest, List.map_id]
  exact keepChars_eq_self hd hds

namespace Element

variable {e : Element}

theorem Exact.isWord (h : e.Exact) (hk : e.kind.isPlain = true) :
    TypedConfig.isWord e.text.toList = true := by
  obtain ⟨kind, text⟩ := e
  cases kind with
  | uniform | dashed => exact h.1
  | nonUniform | indexed | numeric => cases hk

/-- The element in a form is its text converted to the form, whatever its kind. -/
theorem render_eq_convert (h : e.Exact) (form : Form) : e.render form = e.convert form := by
  obtain ⟨kind, text⟩ := e
  have hplain : kind.isPlain = true → writtenChars text.toList = text.toList ∧
      dashedChars text.toList = text.toList := fun hk =>
    ⟨writtenChars_of_isWord (h.isWord hk), dashedChars_of_isWord (h.isWord hk)⟩
  have huniform : kind = .uniform → uniformForm text = text := by
    rintro rfl
    rw [uniformForm, uniformChars_of_word h.spells, String.ofList_toList]
  cases kind <;> cases form <;>
    simp_all [render, convert, isIndex, Kind.isIndex, Kind.isPlain]

end Element

/-! ## Names in one piece -/

namespace Name

/-- What an element adds to the text of a name that goes on with it. -/
def tail (e : Element) : String :=
  if e.isIndex then "[" ++ e.render .written ++ "]" else "." ++ e.render .dashed

theorem textWith_of_ne {text : String} (h : text ≠ "") (e : Element) :
    textWith text e = text ++ tail e := by
  have hempty : text.isEmpty = false := by simpa using h
  unfold textWith tail
  split <;> simp [hempty, String.append_assoc]

/-- A text goes on with what each element adds to it. -/
theorem foldl_textWith {text : String} (h : text ≠ "") (es : List Element) :
    es.foldl textWith text = text ++ String.join (es.map tail) := by
  induction es generalizing text with
  | nil => simp
  | cons e es ih =>
    have hne : text ++ tail e ≠ "" := by simp [h]
    rw [List.foldl_cons, textWith_of_ne h, ih hne, List.map_cons, String.join_cons,
      String.append_assoc]

end Name

/-- The texts of elements with dots between them. -/
def dottedText (es : List Element) : String := ".".intercalate (es.map Element.text)

theorem dottedText_cons_cons (d e : Element) (es : List Element) :
    dottedText (d :: e :: es) = d.text ++ "." ++ dottedText (e :: es) :=
  String.intercalate_cons_cons

/-- A word in dashed form starts a name with its text, and goes on with a dot and its text. -/
theorem Element.text_of_isPlain {e : Element} (h : e.kind.isPlain = true) :
    Name.textWith "" e = e.text ∧ Name.tail e = "." ++ e.text := by
  obtain ⟨kind, text⟩ := e
  cases kind <;>
    simp_all [Name.textWith, Name.tail, isIndex, Kind.isIndex, Kind.isPlain, render]

theorem dottedText_cons {e : Element} {es : List Element}
    (h : ∀ d ∈ es, d.kind.isPlain = true) :
    dottedText (e :: es) = e.text ++ String.join (es.map Name.tail) := by
  induction es generalizing e with
  | nil => simp [dottedText]
  | cons d es ih =>
    rw [List.forall_mem_cons] at h
    rw [dottedText_cons_cons, ih h.2, List.map_cons, String.join_cons,
      (Element.text_of_isPlain h.1).2, String.append_assoc, String.append_assoc]

/-- The text of a name of plain words is their texts with dots between them. -/
theorem Name.text_of_isPlain {n : Name} (hn : n.Exact)
    (h : ∀ e ∈ n.elements, e.kind.isPlain = true) : n.text = dottedText n.elements := by
  obtain ⟨es⟩ := n
  cases es with
  | nil => rfl
  | cons e es =>
    obtain ⟨he, hes⟩ := List.forall_mem_cons.mp h
    have hne : e.text ≠ "" := by
      intro ht
      have hw := (hn e List.mem_cons_self).isWord he
      rw [ht] at hw
      cases hw
    show es.foldl Name.textWith (Name.textWith "" e) = _
    rw [(Element.text_of_isPlain he).1, Name.foldl_textWith hne, dottedText_cons hes]

/-- Uniform words are told apart by their texts in one piece, for they have no dots. -/
theorem dottedText_eq_iff {es fs : List Element} (hl : es.length = fs.length)
    (he : ∀ e ∈ es, e.WellFormed ∧ e.kind = .uniform)
    (hf : ∀ f ∈ fs, f.WellFormed ∧ f.kind = .uniform) :
    dottedText es = dottedText fs ↔ es.map Element.meaning = fs.map Element.meaning := by
  have hchars : ∀ ds : List Element,
      (dottedText ds).toList = ['.'].intercalate (ds.map (·.text.toList)) := by
    intro ds
    rw [dottedText, String.toList_intercalate, List.map_map]
    rfl
  have hmeaning : ∀ ds : List Element, (∀ d ∈ ds, d.WellFormed ∧ d.kind = .uniform) →
      ds.map Element.meaning = (ds.map (·.text.toList)).map fun cs => (false, cs) := by
    intro ds hd
    rw [List.map_map]
    refine List.map_congr_left fun d hmem => ?_
    obtain ⟨hw, hkind⟩ := hd d hmem
    obtain ⟨kind, text⟩ := d
    cases hkind
    simpa [Element.meaning, Element.isIndex, Kind.isIndex] using uniformChars_of_word hw
  have hsplit : ∀ ds : List Element, ds ≠ [] → (∀ d ∈ ds, d.WellFormed ∧ d.kind = .uniform) →
      (dottedText ds).toList.splitOn '.' = ds.map (·.text.toList) := by
    intro ds hne hd
    rw [hchars]
    refine List.splitOn_intercalate '.' ?_ (by simpa using hne)
    intro cs hcs hdot
    obtain ⟨d, hmem, rfl⟩ := List.mem_map.mp hcs
    obtain ⟨hw, hkind⟩ := hd d hmem
    obtain ⟨kind, text⟩ := d
    cases hkind
    have := hw '.' hdot
    revert this
    decide
  rw [hmeaning es he, hmeaning fs hf]
  constructor
  · intro h
    by_cases hes : es = []
    · have hfs : fs = [] := List.length_eq_zero_iff.mp (by rw [← hl, hes]; rfl)
      rw [hes, hfs]
    · have hfs : fs ≠ [] := by
        rintro rfl
        exact hes (List.length_eq_zero_iff.mp hl)
      rw [← hsplit es hes he, ← hsplit fs hfs hf, h]
  · intro h
    have htexts := List.map_injective_iff.mpr (fun _ _ h => (Prod.mk.inj h).2) h
    rw [← String.toList_inj, hchars, hchars, htexts]

namespace Window

/-- The span stands in the text where the element is. -/
def StandsFor (source : String) (span : Span) (e : Element) : Prop :=
  span.kind = e.kind ∧ Text.slice? source span.start span.stop = some e.text

/-- From the first of some spans that are one dot apart to the last there are the texts of the
elements with dots between them. -/
theorem slice_of_dotted {source : String} {accept : Kind → Bool} {spans : List Span}
    {es : List Element} (h : List.Forall₂ (StandsFor source) spans es)
    (hd : dotted source accept spans = true) {first last : Span}
    (hfirst : spans.head? = some first) (hlast : spans.getLast? = some last) :
    Text.slice? source first.start last.stop = some (dottedText es) ∧
      ∀ e ∈ es, accept e.kind = true := by
  induction h generalizing first with
  | nil => cases hfirst
  | @cons span e spans es hspan hrest ih =>
    cases hfirst
    obtain ⟨hkind, htext⟩ := hspan
    cases hrest with
    | nil =>
      cases hlast
      refine ⟨by simpa [dottedText] using htext, fun d hd' => ?_⟩
      rw [List.mem_singleton.mp hd', ← hkind]
      exact hd
    | @cons next f spans fs hnext hrest =>
      simp only [dotted, Bool.and_eq_true, beq_iff_eq] at hd
      obtain ⟨⟨haccept, hdot⟩, hd⟩ := hd
      rw [List.getLast?_cons_cons] at hlast
      obtain ⟨hslice, hkinds⟩ := ih hd rfl hlast
      refine ⟨?_, fun d hd' => ?_⟩
      · rw [dottedText_cons_cons]
        exact Text.slice?_append (Text.slice?_append htext hdot) hslice
      · rcases List.mem_cons.mp hd' with rfl | hd'
        · rwa [← hkind]
        · exact hkinds d hd'

variable {w a b : Window} {m n : Name}

/-- An element that no slot holds stands where a span says. -/
theorem standsFor_of_element {i : Nat} {e : Element} (h : w.element i = .ok e)
    (hheld : heldAt w.slots i = .ok none) :
    ∃ span, w.spans[w.offset + i]? = some span ∧ StandsFor w.source span e := by
  simp only [Window.element, hheld, bind, Except.bind] at h
  cases hi : w.spans[w.offset + i]? with
  | none => rw [hi] at h; cases h
  | some span =>
    rw [hi] at h
    simp only [spanned] at h
    cases ht : Text.slice? w.source span.start span.stop with
    | none => rw [ht] at h; cases h
    | some text =>
      rw [ht] at h
      cases h
      exact ⟨span, rfl, rfl, ht⟩

/-- Without slots every element of a name stands where a span says. -/
theorem Shows.spans (h : w.Shows n) (hs : w.slots = none) :
    List.Forall₂ (StandsFor w.source) ((w.spans.drop w.offset).take w.length) n.elements := by
  have hspan : ∀ (i : Nat) (e : Element), n.elements[i]? = some e →
      ∃ span, w.spans[w.offset + i]? = some span ∧ StandsFor w.source span e :=
    fun i e he => standsFor_of_element (h.element i e he) (by rw [hs]; rfl)
  have hn : n.elements.length = w.length := h.length.symm
  have hlen : ((w.spans.drop w.offset).take w.length).length = w.length := by
    rw [List.length_take, List.length_drop, Nat.min_eq_left]
    by_cases hw : w.length = 0
    · omega
    · -- The last element has a span.
      obtain ⟨span, hi, -⟩ := hspan (w.length - 1) _ (List.getElem?_eq_getElem (by omega))
      have := (List.getElem?_eq_some_iff.mp hi).1
      omega
  rw [List.forall₂_iff_get]
  refine ⟨by rw [hlen, hn], fun i hi hi' => ?_⟩
  obtain ⟨span, hspan, hstands⟩ := hspan i _ (List.getElem?_eq_getElem hi')
  obtain ⟨hlt, rfl⟩ := List.getElem?_eq_some_iff.mp hspan
  simpa using hstands

/-- The short cut, where there is one, is the texts of the elements with dots between them. -/
theorem Shows.shortcut (h : w.Shows n) (accept : Kind → Bool) :
    w.shortcut accept = .ok none ∨ (w.shortcut accept = .ok (some (dottedText n.elements)) ∧
      ∀ e ∈ n.elements, accept e.kind = true) := by
  unfold Window.shortcut
  cases hs : w.slots with
  | some slots => exact .inl rfl
  | none =>
    by_cases hw : w.length = 0
    · right
      rw [h.elements_eq_nil hw]
      simp [hw, dottedText]
    · have hall := h.spans hs
      have hlen : ¬((w.spans.drop w.offset).take w.length).length < w.length := by
        rw [hall.length_eq]
        exact Nat.not_lt.mpr (Nat.le_of_eq h.length)
      simp only [Option.isSome_none, Bool.false_eq_true, ↓reduceIte, hw, hlen]
      generalize (w.spans.drop w.offset).take w.length = spans at hall hlen
      split
      · rename_i hd
        right
        have hne : spans ≠ [] := by
          rintro rfl
          exact hlen (Nat.pos_of_ne_zero hw)
        have hfirst := List.head?_eq_some_head hne
        have hlast := List.getLast?_eq_some_getLast hne
        obtain ⟨hslice, hkinds⟩ := slice_of_dotted hall hd hfirst hlast
        simp only [hfirst, hlast, hslice]
        exact ⟨trivial, hkinds⟩
      · exact .inl rfl

/-! ## Equality, order, hash and text -/

/-- Comparing the positions from some one down compares the elements. -/
theorem Shows.sameBelow (ha : a.Shows m) (hb : b.Shows n) {k : Nat} (hm : k ≤ m.length)
    (hn : k ≤ n.length) :
    a.sameBelow b k = .ok (Name.sameElements (m.elements.take k) n.elements) := by
  induction k with
  | zero => rfl
  | succ k ih =>
    have hi : m.elements[k]? = some m.elements[k] := List.getElem?_eq_getElem hm
    have hj : n.elements[k]? = some n.elements[k] := List.getElem?_eq_getElem hn
    have hlen : (m.elements.take k).length = k := List.length_take_of_le (Nat.le_of_lt hm)
    rw [List.take_succ_eq_append_getElem hm,
      Name.sameElements_append_singleton (by rw [hlen]; exact hj)]
    simp only [Window.sameBelow, ha.element k _ hi, hb.element k _ hj, bind, Except.bind]
    rw [ih (Nat.le_of_lt hm) (Nat.le_of_lt hn)]
    cases Element.same m.elements[k] n.elements[k] <;> simp [pure, Except.pure]

/-- Two windows mean the same if the names that they show do. -/
theorem Shows.same (ha : a.Shows m) (hb : b.Shows n) (hm : m.Exact) (hn : n.Exact) :
    a.same b = .ok (m == n) := by
  have hlen : a.length = b.length ↔ m.length = n.length := by rw [ha.length, hb.length]
  unfold Window.same
  by_cases hl : a.length = b.length
  · have hslow : a.sameBelow b a.length = .ok (m == n) := by
      rw [ha.length, ha.sameBelow hb (Nat.le_refl _) (Nat.le_of_eq (hlen.mp hl))]
      show _ = Except.ok (m.same n)
      rw [Name.length, List.take_length, Name.same, beq_iff_eq.mpr (hlen.mp hl), Bool.true_and]
    simp only [ne_eq, hl, not_true_eq_false, ↓reduceIte]
    rw [← hl]
    rcases ha.shortcut (· == .uniform) with hcut | ⟨hcut, hu⟩ <;>
      rcases hb.shortcut (· == .uniform) with hcut' | ⟨hcut', hv⟩ <;> rw [hcut, hcut']
    · exact hslow
    · exact hslow
    · exact hslow
    · -- Both names are compared as texts.
      have hiff := dottedText_eq_iff (hlen.mp hl)
        (fun e he => ⟨hm.wellFormed e he, by simpa using hu e he⟩)
        (fun e he => ⟨hn.wellFormed e he, by simpa using hv e he⟩)
      have hbeq := Name.beq_iff hm.wellFormed hn.wellFormed
      refine congrArg Except.ok ?_
      rw [Bool.eq_iff_iff, beq_iff_eq, hiff, hbeq]
      rfl
  · have hne : (m == n) = false := by
      show m.same n = false
      simp [Name.same, hlen.not.mp hl]
    simp only [ne_eq, hl, not_false_eq_true, ↓reduceIte, hne]
    rfl

/-- A window lies above another if the name that it shows lies above the other's. -/
theorem Shows.isAncestorOf (ha : a.Shows m) (hb : b.Shows n) :
    a.isAncestorOf b = .ok (m.isAncestorOf n) := by
  unfold Window.isAncestorOf Name.isAncestorOf
  rw [ha.length, hb.length]
  by_cases hl : m.length < n.length
  · rw [if_pos hl, decide_eq_true hl, Bool.true_and,
      ha.sameBelow hb (Nat.le_refl _) (Nat.le_of_lt hl), Name.length, List.take_length]
  · rw [if_neg hl, decide_eq_false hl]
    rfl

theorem Shows.isParentOf (ha : a.Shows m) (hb : b.Shows n) :
    a.isParentOf b = .ok (m.isParentOf n) := by
  unfold Window.isParentOf Name.isParentOf
  rw [ha.length, hb.length, ha.isAncestorOf hb]
  by_cases hl : m.length + 1 = n.length <;> simp [hl, pure, Except.pure]

/-- The order of two windows is that of the names that they show. -/
theorem Shows.compareFrom (ha : a.Shows m) (hb : b.Shows n) {i k : Nat}
    (hk : i + k = min a.length b.length) :
    a.compareFrom b i k = .ok (Name.compareElements (m.elements.drop i) (n.elements.drop i)) := by
  have hm : m.elements.length = a.length := ha.length.symm
  have hn : n.elements.length = b.length := hb.length.symm
  induction k generalizing i with
  | zero =>
    -- One of the names is at its end here, so their lengths decide.
    rw [Window.compareFrom, ← hm, ← hn]
    refine congrArg Except.ok ?_
    rcases Nat.lt_trichotomy m.elements.length n.elements.length with h | h | h
    · rw [List.drop_of_length_le (by omega), List.drop_eq_getElem_cons (show i < _ by omega)]
      exact Nat.compare_eq_lt.mpr h
    · rw [List.drop_of_length_le (by omega), List.drop_of_length_le (by omega)]
      exact Nat.compare_eq_eq.mpr h
    · have hend : n.elements.drop i = [] := List.drop_of_length_le (by omega)
      rw [hend, List.drop_eq_getElem_cons (show i < _ by omega)]
      exact Nat.compare_eq_gt.mpr h
  | succ k ih =>
    have hi : i < m.elements.length := by omega
    have hj : i < n.elements.length := by omega
    have hmi : m.elements[i]? = some m.elements[i] := List.getElem?_eq_getElem hi
    have hnj : n.elements[i]? = some n.elements[i] := List.getElem?_eq_getElem hj
    rw [List.drop_eq_getElem_cons hi, List.drop_eq_getElem_cons hj]
    simp only [Window.compareFrom, ha.element i _ hmi, hb.element i _ hnj, bind, Except.bind,
      Name.compareElements]
    rw [ih (by omega)]
    cases Element.compare m.elements[i] n.elements[i] <;> rfl

theorem Shows.compare (ha : a.Shows m) (hb : b.Shows n) : a.compare b = .ok (m.compare n) :=
  ha.compareFrom hb (Nat.zero_add _)

theorem Shows.hash (h : w.Shows n) : w.hash = .ok n.hash := by
  unfold Window.hash
  rw [h.length]
  exact foldlM_range h.element 0

theorem Shows.text (h : w.Shows n) (hn : n.Exact) : w.text = .ok n.text := by
  unfold Window.text
  rcases h.shortcut Kind.isPlain with hcut | ⟨hcut, hplain⟩
  · rw [hcut, h.length]
    exact foldlM_range h.element ""
  · rw [hcut, Name.text_of_isPlain hn hplain]
    rfl

end Window

end TypedConfig
