import TypedConfig.Proofs.Name.Grammar
import TypedConfig.Proofs.Name.Shortcut

/-!
# The text of a name, piece by piece

An element stands in the text of a name as a word, in dashed form, or as a group. If that is a piece
indeed (`Element.Printable`), the text of a name is laid out as its elements are, with a dot in front
of each word but the first element (`Name.Printable.layout`). So strict reading accepts the text
exactly if the words are canonical (`Name.Printable.exists_parse_iff`), and finds the same pieces
(`Name.Printable.elements_of_parse`).
-/

namespace TypedConfig

/-- The piece that the element is in the text of a name. -/
def Element.piece (e : Element) : Piece :=
  if e.isIndex then .group e.text.toList else .word (e.render .dashed).toList

/-- The piece stands in the text as it is: a word has a character, and none that ends it, and an
index has something in it, and balanced brackets. -/
inductive Element.Printable (e : Element) : Prop
  | word (hi : e.isIndex = false) (hne : (e.render .dashed).toList ≠ [])
      (hplain : ∀ c ∈ (e.render .dashed).toList, isPlainChar c = true)
  | index (hi : e.isIndex = true) (hne : e.text.toList ≠ []) (hb : Balanced e.text.toList)

/-- All elements of the name stand in its text as pieces. -/
def Name.Printable (n : Name) : Prop := ∀ e ∈ n.elements, e.Printable

variable {e : Element} {es : List Element} {n : Name}

theorem Element.piece_of_word (hi : e.isIndex = false) :
    e.piece = .word (e.render .dashed).toList := by
  rw [piece, hi]
  rfl

theorem Element.piece_of_index (hi : e.isIndex = true) : e.piece = .group e.text.toList := by
  rw [piece, hi]
  rfl

/-- A word at the start of a text and behind other elements. -/
theorem toList_word (hi : e.isIndex = false) :
    (Name.textWith "" e).toList = (e.render .dashed).toList ∧
      (Name.tail e).toList = '.' :: (e.render .dashed).toList := by
  simp [Name.textWith, Name.tail, hi]

/-- An index at the start of a text and behind other elements. -/
theorem toList_index (hi : e.isIndex = true) :
    (Name.textWith "" e).toList = '[' :: (e.text.toList ++ [']']) ∧
      (Name.tail e).toList = '[' :: (e.text.toList ++ [']']) := by
  have hrender : e.render .written = e.text := by
    obtain ⟨kind, text⟩ := e
    cases kind <;> first | rfl | cases hi
  simp [Name.textWith, Name.tail, hi, hrender]

theorem Element.Printable.isRun_piece (h : e.Printable) : e.piece.isRun = true := by
  cases h with
  | word hi => rw [piece_of_word hi]; rfl
  | index hi hne => rw [piece_of_index hi]; simp [Piece.isRun, hne]

@[simp] theorem Kind.isIndex_ofIndex (cs : List Char) : (Kind.ofIndex cs).isIndex = true := by
  unfold Kind.ofIndex
  split <;> rfl

/-- The element of a word piece is that piece. -/
theorem Element.piece_ofWord (cs : List Char) :
    isIndex ⟨Kind.ofWord cs, String.ofList cs⟩ = false ∧
      (render .dashed ⟨Kind.ofWord cs, String.ofList cs⟩).toList = cs := by
  rcases Kind.ofWord_eq cs with h | h <;> rw [h] <;> exact ⟨rfl, String.toList_ofList⟩

theorem isPlainChar_of_isCanonical {c : Char} (h : isCanonical false c = true) :
    isPlainChar c = true := by
  refine isPlainChar_iff.mpr ⟨?_, ?_, ?_⟩ <;> (rintro rfl; revert h; decide)

/-! ## The layout of the text -/

/-- The text of a name is that of its first element, and what the others add to it. -/
theorem Name.text_cons (h : e.Printable) (es : List Element) :
    Name.text ⟨e :: es⟩ = Name.textWith "" e ++ String.join (es.map Name.tail) := by
  refine Name.foldl_textWith ?_ es
  rw [← String.toList_inj.ne]
  cases h with
  | word hi hne => rwa [(toList_word hi).1]
  | index hi => rw [(toList_index hi).1]; simp

/-- What elements add to a text is laid out as they are. It does not start with a word. -/
theorem exists_layout_tail (h : ∀ e ∈ es, e.Printable) :
    ∃ ps, Layout (String.join (es.map Name.tail)).toList ps ∧
      (∀ p ∈ ps.head?, p.isWord = false) ∧ ps.filter Piece.isRun = es.map Element.piece := by
  induction es with
  | nil => exact ⟨[], .nil, nofun, rfl⟩
  | cons e es ih =>
    obtain ⟨he, hes⟩ := List.forall_mem_cons.mp h
    obtain ⟨ps, hps, hhead, hpieces⟩ := ih hes
    have hfirst : (e.piece :: ps).filter Piece.isRun = (e :: es).map Element.piece := by
      rw [List.filter_cons_of_pos he.isRun_piece, hpieces, List.map_cons]
    rw [List.map_cons, String.join_cons, String.toList_append, ← hfirst]
    cases he with
    | word hi hne hplain =>
      rw [(toList_word hi).2, Element.piece_of_word hi]
      obtain ⟨d, ds, hchars⟩ := List.exists_cons_of_ne_nil hne
      rw [hchars] at hplain ⊢
      refine ⟨_, .dot (.word hplain hhead hps), ?_, rfl⟩
      rintro _ ⟨⟩
      rfl
    | index hi hne hb =>
      rw [(toList_index hi).2, Element.piece_of_index hi, List.cons_append, List.append_assoc]
      refine ⟨_, .group hb hps, ?_, rfl⟩
      rintro _ ⟨⟩
      rfl

namespace Name.Printable

/-- The text of a name is laid out as its elements are. -/
theorem layout (h : n.Printable) :
    ∃ ps, Layout n.text.toList ps ∧ ps.filter Piece.isRun = n.elements.map Element.piece := by
  obtain ⟨es⟩ := n
  cases es with
  | nil => exact ⟨[], .nil, rfl⟩
  | cons e es =>
    obtain ⟨he, hes⟩ := List.forall_mem_cons.mp h
    obtain ⟨ps, hps, hhead, hpieces⟩ := exists_layout_tail hes
    have hfirst : (e.piece :: ps).filter Piece.isRun = (e :: es).map Element.piece := by
      rw [List.filter_cons_of_pos he.isRun_piece, hpieces, List.map_cons]
    rw [text_cons he, String.toList_append, ← hfirst]
    cases he with
    | word hi hne hplain =>
      rw [(toList_word hi).1, Element.piece_of_word hi]
      obtain ⟨d, ds, hchars⟩ := List.exists_cons_of_ne_nil hne
      rw [hchars] at hplain ⊢
      exact ⟨_, .word hplain hhead hps, rfl⟩
    | index hi hne hb =>
      rw [(toList_index hi).1, Element.piece_of_index hi, List.cons_append, List.append_assoc]
      exact ⟨_, .group hb hps, rfl⟩

/-- No dot stands at the start of the text. -/
theorem head_ne_dot (h : n.Printable) : n.text.toList.head? ≠ some '.' := by
  obtain ⟨es⟩ := n
  cases es with
  | nil => nofun
  | cons e es =>
    have he := h e List.mem_cons_self
    rw [text_cons he, String.toList_append]
    cases he with
    | word hi hne hplain =>
      rw [(toList_word hi).1, List.head?_append_of_ne_nil _ hne]
      exact fun hdot => (isPlainChar_iff.mp (hplain '.' (List.mem_of_head? hdot))).1 rfl
    | index hi =>
      rw [(toList_index hi).1]
      simp

end Name.Printable

/-- No dot stands at the end of what an element adds to a text. -/
theorem Element.Printable.getLast?_textWith (h : e.Printable) (text : String) :
    (Name.textWith text e).toList.getLast? ≠ some '.' := by
  have hlast : ∀ {xs ys : List Char}, ys ≠ [] → ys.getLast? ≠ some '.' →
      (xs ++ ys).getLast? ≠ some '.' := fun hne hys => by
    rwa [List.getLast?_append_of_ne_nil _ hne]
  cases h with
  | word hi hne hplain =>
    have hdot : (e.render .dashed).toList.getLast? ≠ some '.' := fun hdot =>
      (isPlainChar_iff.mp (hplain '.' (List.mem_of_getLast? hdot))).1 rfl
    by_cases ht : text = ""
    · rwa [ht, (toList_word hi).1]
    · rw [Name.textWith_of_ne ht, String.toList_append, (toList_word hi).2]
      exact hlast (List.cons_ne_nil _ _) (@hlast ['.'] _ hne hdot)
  | index hi =>
    have hclose : ('[' :: (e.text.toList ++ [']'])).getLast? ≠ some '.' := by
      rw [← List.cons_append, List.getLast?_concat]
      decide
    by_cases ht : text = ""
    · rwa [ht, (toList_index hi).1]
    · rw [Name.textWith_of_ne ht, String.toList_append, (toList_index hi).2]
      exact hlast (List.cons_ne_nil _ _) hclose

namespace Name.Printable

/-- No dot stands at the end of the text. -/
theorem last_ne_dot (h : n.Printable) : n.text.toList.getLast? ≠ some '.' := by
  obtain ⟨es⟩ := n
  rcases List.eq_nil_or_concat es with rfl | ⟨init, e, rfl⟩
  · nofun
  · rw [List.concat_eq_append] at h ⊢
    have htext : Name.text ⟨init ++ [e]⟩ = Name.textWith (init.foldl Name.textWith "") e :=
      List.foldl_append ..
    rw [htext]
    exact (h e (List.mem_append_right _ (List.mem_singleton_self e))).getLast?_textWith _

/-! ## Reading the text -/

/-- The text of a name is accepted exactly if its words are canonical. -/
theorem exists_parse_iff (h : n.Printable) :
    (∃ m, Name.parse n.text = .ok m) ↔ ∀ e ∈ n.elements, e.piece.Canonical := by
  obtain ⟨ps, hps, hpieces⟩ := h.layout
  have hcanonical : (∀ p ∈ ps, p.Canonical) ↔ ∀ e ∈ n.elements, e.piece.Canonical := by
    rw [← Piece.canonical_filter_isRun, hpieces, List.forall_mem_map]
  rw [Name.exists_parse_iff_layout, ← hcanonical]
  constructor
  · rintro (hempty | ⟨-, -, -, hall⟩)
    · rw [hempty] at hps
      cases hps
      nofun
    · exact hall ps hps
  · exact fun hall => .inr ⟨h.head_ne_dot, h.last_ne_dot, hps.balanced,
      fun qs hqs => hqs.unique hps ▸ hall⟩

/-- What is read of the text of a name are its pieces. -/
theorem elements_of_parse {m : Name} (h : n.Printable) (hm : Name.parse n.text = .ok m) :
    m.elements = n.elements.filterMap (·.piece.element?) := by
  obtain ⟨ps, hps, hpieces⟩ := h.layout
  rw [Name.elements_of_layout hm hps, ← Piece.filterMap_filter_isRun, hpieces, List.filterMap_map]
  rfl

end Name.Printable

end TypedConfig
