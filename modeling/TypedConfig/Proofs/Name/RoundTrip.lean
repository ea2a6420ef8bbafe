import TypedConfig.Proofs.Name.Printed

/-!
# Canonical names and their texts

A name that strict reading gives, or that is joined and cut of such names and of indexes with a key
whose brackets are balanced, has canonical words and balanced indexes alone. So its elements are
those of the pieces of its text (`Element.Canonical.element?_piece`), and reading the text gives the
name again (`Window.Canonical.round_trip`).
-/

namespace TypedConfig

/-! ## Canonical elements -/

/-- What a canonical text can have as an element: a canonical word, or an index with something in it
whose brackets are balanced. -/
inductive Element.Canonical : Element → Prop
  | word {cs : List Char} (h : isWord cs = true) : Canonical ⟨Kind.ofWord cs, String.ofList cs⟩
  | index {cs : List Char} (hne : cs ≠ []) (h : Balanced cs) :
      Canonical ⟨Kind.ofIndex cs, String.ofList cs⟩

theorem isPlainChar_of_isWord {cs : List Char} (h : isWord cs = true) :
    ∀ c ∈ cs, isPlainChar c = true := by
  obtain ⟨d, ds, rfl, hd, hds⟩ := exists_cons_of_isWord h
  refine List.forall_mem_cons.mpr ⟨isPlainChar_of_isCanonical ?_,
    fun c hc => isPlainChar_of_isCanonical (hds c hc)⟩
  simp only [isCanonical, Bool.not_true, Bool.false_and, Bool.or_false] at hd
  simp [isCanonical, hd]

namespace Element.Canonical

variable {e : Element}

theorem exact (h : e.Canonical) : e.Exact := by
  cases h with
  | @word cs h =>
    rw [Element.Exact, String.toList_ofList]
    exact (Kind.Follows.canonical h).exact
  | @index cs =>
    rw [Element.Exact, String.toList_ofList]
    exact Kind.exact_ofIndex cs

/-- The element of an index with a key whose brackets are balanced. -/
theorem ofKey {key : String} (hne : key ≠ "") (h : Balanced key.toList) :
    (Element.index key).Canonical := by
  have hindex := index (show key.toList ≠ [] by simpa using hne) h
  rwa [String.ofList_toList, ← Element.index_eq] at hindex

end Element.Canonical

/-- All elements of the name are canonical. -/
def Name.Canonical (n : Name) : Prop := ∀ e ∈ n.elements, e.Canonical

theorem Name.Canonical.append {m n : Name} (hm : m.Canonical) (hn : n.Canonical) :
    (m ++ n).Canonical := fun e he => (List.mem_append.mp he).elim (hm e) (hn e)

theorem Layout.balanced_of_group {cs g : List Char} {ps : List Piece} (h : Layout cs ps)
    (hg : Piece.group g ∈ ps) : Balanced g := by
  induction h with
  | nil => cases hg
  | dot _ ih => exact ih (by simpa using hg)
  | group hbalanced _ ih =>
    rcases List.mem_cons.mp hg with heq | hg
    · cases heq; exact hbalanced
    · exact ih hg
  | word _ _ _ ih => exact ih (by simpa using hg)

/-- The elements of a text that strict reading accepts are canonical. -/
theorem Name.canonical_of_parse {s : String} {n : Name} (h : Name.parse s = .ok n) :
    n.Canonical := by
  rcases Name.exists_parse_iff_layout.mp ⟨n, h⟩ with rfl | ⟨-, -, hbalanced, hcanonical⟩
  · cases h
    nofun
  · obtain ⟨ps, hps⟩ := balanced_iff_layout.mp hbalanced
    intro e he
    rw [Name.elements_of_layout h hps] at he
    obtain ⟨p, hp, hpe⟩ := List.mem_filterMap.mp he
    cases p with
    | dot => cases hpe
    | word cs =>
      cases hpe
      exact .word (hcanonical ps hps _ hp)
    | group cs =>
      simp only [Piece.element?] at hpe
      split at hpe
      · cases hpe
      · rename_i hne
        cases hpe
        exact .index hne (hps.balanced_of_group hp)

/-! ## The text of canonical elements -/

section Text

variable {e : Element} {n : Name}

namespace Element

/-- A canonical element stands in the text of a name as a piece. -/
theorem Canonical.printable (h : e.Canonical) : e.Printable := by
  cases h with
  | @word cs hw =>
    obtain ⟨hi, htext⟩ := piece_ofWord cs
    have hne : cs ≠ [] := by rintro rfl; cases hw
    exact .word hi (htext.symm ▸ hne) (htext.symm ▸ isPlainChar_of_isWord hw)
  | @index cs hne hb =>
    exact .index (Kind.isIndex_ofIndex cs) (by simpa using hne) (by simpa using hb)

/-- Its piece is canonical. -/
theorem Canonical.piece (h : e.Canonical) : e.piece.Canonical := by
  cases h with
  | @word cs hw =>
    obtain ⟨hi, htext⟩ := piece_ofWord cs
    rwa [piece_of_word hi, htext]
  | @index cs =>
    have hi : isIndex ⟨Kind.ofIndex cs, String.ofList cs⟩ = true := Kind.isIndex_ofIndex cs
    rw [piece_of_index hi]
    trivial

/-- It is the element that is read of its piece. -/
theorem Canonical.element?_piece (h : e.Canonical) : e.piece.element? = some e := by
  cases h with
  | @word cs =>
    obtain ⟨hi, htext⟩ := piece_ofWord cs
    rw [piece_of_word hi, htext]
    rfl
  | @index cs hne =>
    have hi : isIndex ⟨Kind.ofIndex cs, String.ofList cs⟩ = true := Kind.isIndex_ofIndex cs
    rw [piece_of_index hi, String.toList_ofList]
    exact if_neg hne

end Element

/-- The text of a name of canonical elements is read as that name. -/
theorem Name.Canonical.parse_text (h : n.Canonical) : Name.parse n.text = .ok n := by
  have hprintable : n.Printable := fun e he => (h e he).printable
  obtain ⟨m, hm⟩ := hprintable.exists_parse_iff.mpr fun e he => (h e he).piece
  have hes : m.elements = n.elements := by
    rw [hprintable.elements_of_parse hm,
      List.filterMap_congr fun e he => (h e he).element?_piece, List.filterMap_some]
  rw [hm, show m = n from congrArg Name.mk hes]

end Text

/-! ## Canonical windows -/

namespace Window

/-- The windows that strict reading gives, and joining and cutting of such windows and of indexes
with a key that has something in it and whose brackets are balanced. -/
inductive Canonical : Window → Prop
  | parse {s : String} {w : Window} (h : parse s = .ok w) : Canonical w
  | extend {v w : Window} {s : String} (hv : Canonical v) (h : v.extend s = .ok w) : Canonical w
  | join {a b w : Window} (ha : Canonical a) (hb : Canonical b) (h : a.join b = .ok w) : Canonical w
  | item {v w : Window} {key : String} (hv : Canonical v) (hne : key ≠ "")
      (hkey : Balanced key.toList) (h : v.item key = .ok w) : Canonical w
  | parent {w : Window} (h : Canonical w) : Canonical w.parent
  | take {w : Window} (h : Canonical w) (k : Nat) : Canonical (w.take k)
  | subName {v w : Window} {k : Nat} (hv : Canonical v) (h : v.subName k = .ok w) : Canonical w

/-- A canonical window shows a name of canonical elements. -/
theorem Canonical.shows {w : Window} (h : w.Canonical) : ∃ n, w.Shows n ∧ n.Canonical := by
  induction h with
  | parse h =>
    obtain ⟨n, hn, hw⟩ := exists_of_parse h
    exact ⟨n, hw, Name.canonical_of_parse hn⟩
  | extend _ h ih =>
    obtain ⟨n, hv, hn⟩ := ih
    obtain ⟨m, hm, hw⟩ := exists_of_extend hv h
    rcases hm with rfl | ⟨k, hk, rfl⟩
    · exact ⟨m, hw, hn⟩
    · exact ⟨n ++ k, hw, hn.append (Name.canonical_of_parse hk)⟩
  | join _ _ h iha ihb =>
    obtain ⟨m, ha, hm⟩ := iha
    obtain ⟨n, hb, hn⟩ := ihb
    exact ⟨m ++ n, ha.of_join hb h, hm.append hn⟩
  | @item v w key _ hne hkey h ih =>
    obtain ⟨n, hv, hn⟩ := ih
    exact ⟨n.item key, hv.of_item h, hn.append (List.forall_mem_singleton.mpr (.ofKey hne hkey))⟩
  | parent _ ih =>
    obtain ⟨n, hw, hn⟩ := ih
    exact ⟨n.parent, hw.parent, fun e he => hn e (List.dropLast_subset _ he)⟩
  | take _ k ih =>
    obtain ⟨n, hw, hn⟩ := ih
    exact ⟨n.take k, hw.take k, fun e he => hn e (List.mem_of_mem_take he)⟩
  | @subName v w k _ h ih =>
    obtain ⟨n, hv, hn⟩ := ih
    exact ⟨n.drop k, hv.of_subName h, fun e he => hn e (List.mem_of_mem_drop he)⟩

/-- The text of a canonical name is read as a name that is equal to it and has the same elements,
of the same kinds and with the same texts, and the same text again. -/
theorem Canonical.round_trip {w : Window} (h : w.Canonical) :
    ∃ text v es, w.text = .ok text ∧ Window.parse text = .ok v ∧ v.same w = .ok true ∧
      w.elements = .ok es ∧ v.elements = .ok es ∧ v.text = .ok text := by
  obtain ⟨n, hw, hn⟩ := h.shows
  have hexact : n.Exact := fun e he => (hn e he).exact
  obtain ⟨hv, hshows⟩ := shows_parse hn.parse_text
  have hsame : (n == n) = true := (Name.beq_iff hexact.wellFormed hexact.wellFormed).mpr rfl
  exact ⟨n.text, _, n.elements, hw.text hexact, hv, hsame ▸ hshows.same hw hexact hexact,
    hw.elements, hshows.elements, hshows.text hexact⟩

/-- A name of collapsed and glued elements, with an index put behind them that nests brackets. -/
theorem Canonical.round_trip_nested :
    let text := "my-app..servers[a.[b]]x"
    let v := ofScan text (scan '.' text)
    let w := { v with length := 5, slots := some [none, none, none, none, some ⟨.indexed, "0[]"⟩] }
    Window.parse text = .ok v ∧ "0[]" ≠ "" ∧ Balanced "0[]".toList ∧ v.item "0[]" = .ok w ∧
      w.text = .ok "my-app.servers[a.[b]].x[0[]]" ∧
      ∃ text v es, w.text = .ok text ∧ Window.parse text = .ok v ∧ v.same w = .ok true ∧
        w.elements = .ok es ∧ v.elements = .ok es ∧ v.text = .ok text := by
  intro text v w
  have hparse : Window.parse text = .ok v := by decide +kernel
  have hkey : Balanced "0[]".toList := by decide +kernel
  have hitem : v.item "0[]" = .ok w := by decide +kernel
  exact ⟨hparse, by decide, hkey, hitem, by decide +kernel,
    Canonical.round_trip (.item (.parse hparse) (by decide) hkey hitem)⟩

end Window

end TypedConfig
