import TypedConfig.Proofs.Name.Shortcut

/-!
# Equality, order, hash and text of the names that are kept

Whatever window a name is kept as, equality, order and hash see the elements alone, and they see the
same of them (`Window.same_compare_hash_agree`): names that are equal compare as equal and have one
hash, and the order is total. None of the short cuts can be told from looking at each element
(`Window.shortcuts_unseen`).
-/

namespace TypedConfig

open Std (ReflCmp OrientedCmp TransCmp)

/-! ## Names that can be built -/

namespace Name

theorem adaptWith_exact {s : String} {sep : Char} {spell : String → String} {n : Name}
    (h : adaptWith s sep spell = .ok n) : n.Exact := by
  unfold adaptWith at h
  simp only at h
  cases hm : ((scan sep s).runs.filter (·.kind.isSome)).mapM (respell s spell) with
  | error e => rw [hm] at h; cases h
  | ok es =>
    rw [hm] at h
    cases h
    intro e he
    obtain ⟨r, -, hr⟩ := exists_of_mem_mapM hm he
    obtain ⟨text, htext⟩ := Window.scan_of_respell hr
    have hmem : e ∈ (adapt text '.').elements := htext ▸ List.mem_singleton_self e
    exact scan_exact '.' text e hmem

/-- The elements of a name that can be built are of the right kinds. -/
theorem Built.exact {n : Name} (h : n.Built) : n.Exact := by
  induction h with
  | parse h => rw [Window.elements_of_parse h]; exact scan_exact '.' _
  | adapt s sep => exact scan_exact sep s
  | adaptWith h => exact adaptWith_exact h
  | append _ _ iha ihb => exact iha.append ihb
  | item _ key ih => exact ih.item key
  | take _ k ih => exact ih.take k
  | drop _ k ih => exact ih.drop k
  | parent _ ih => exact fun e he => ih e (List.dropLast_subset _ he)

end Name

/-! ## What two elements have in common -/

/-- Two indexes of one text, or two words of the same small letters and digits. -/
def Element.Alike (e f : Element) : Prop :=
  (e.isIndex = true ∧ f.isIndex = true ∧ e.text = f.text) ∨
    (e.isIndex = false ∧ f.isIndex = false ∧ uniformForm e.text = uniformForm f.text)

theorem Element.meaning_eq_iff {e f : Element} : e.meaning = f.meaning ↔ e.Alike f := by
  unfold Element.meaning Element.Alike uniformForm
  cases e.isIndex <;> cases f.isIndex <;> simp [← String.toList_inj]

/-- Names mean the same exactly if their elements are alike, one by one. -/
theorem Name.meaning_eq_iff {m n : Name} :
    m.meaning = n.meaning ↔ List.Forall₂ Element.Alike m.elements n.elements := by
  unfold Name.meaning
  rw [← List.forall₂_eq_eq_eq, List.forall₂_map_left_iff, List.forall₂_map_right_iff]
  simp only [Element.meaning_eq_iff]

namespace Window

/-- The names that can be built, as they are kept. -/
abbrev Reached := {w : Window // w.Built}

/-- The two names are equal. -/
def Same (a b : Window) : Prop := a.same b = .ok true

/-- The first name does not come after the second. -/
def Le (a b : Window) : Prop := ∃ order, a.compare b = .ok order ∧ order.isLE = true

/-- A name that can be built shows one of elements of the right kinds. -/
theorem Reached.shows (w : Reached) : ∃ n, w.1.Shows n ∧ n.Exact := by
  obtain ⟨n, hw, hn⟩ := w.2.shows
  exact ⟨n, hw, hn.exact⟩

section Shown

variable {a b : Window} {m n : Name}

theorem Shows.same_iff (ha : a.Shows m) (hb : b.Shows n) (hm : m.Exact) (hn : n.Exact) :
    Same a b ↔ m.meaning = n.meaning := by
  rw [Same, ha.same hb hm hn, Except.ok.injEq, Name.beq_iff hm.wellFormed hn.wellFormed]

theorem Shows.le_iff (ha : a.Shows m) (hb : b.Shows n) : Le a b ↔ (m.compare n).isLE = true := by
  simp [Le, ha.compare hb]

end Shown

/-! ## Agreement -/

theorem same_equivalence : Equivalence fun a b : Reached => Same a.1 b.1 where
  refl a := by
    obtain ⟨n, ha, hn⟩ := a.shows
    exact (ha.same_iff ha hn hn).mpr rfl
  symm {a b} h := by
    obtain ⟨m, ha, hm⟩ := a.shows
    obtain ⟨n, hb, hn⟩ := b.shows
    exact (hb.same_iff ha hn hm).mpr ((ha.same_iff hb hm hn).mp h).symm
  trans {a b c} hab hbc := by
    obtain ⟨m, ha, hm⟩ := a.shows
    obtain ⟨n, hb, hn⟩ := b.shows
    obtain ⟨k, hc, hk⟩ := c.shows
    exact (ha.same_iff hc hm hk).mpr
      (((ha.same_iff hb hm hn).mp hab).trans ((hb.same_iff hc hn hk).mp hbc))

theorem le_total (a b : Reached) : Le a.1 b.1 ∨ Le b.1 a.1 := by
  obtain ⟨m, ha, -⟩ := a.shows
  obtain ⟨n, hb, -⟩ := b.shows
  have hswap : n.compare m = (m.compare n).swap := OrientedCmp.eq_swap
  rw [ha.le_iff hb, hb.le_iff ha, hswap]
  cases m.compare n <;> simp

theorem le_antisymm {a b : Reached} (hab : Le a.1 b.1) (hba : Le b.1 a.1) : Same a.1 b.1 := by
  obtain ⟨m, ha, hm⟩ := a.shows
  obtain ⟨n, hb, hn⟩ := b.shows
  rw [ha.le_iff hb] at hab
  rw [hb.le_iff ha] at hba
  refine (ha.same_iff hb hm hn).mpr ((Name.compare_eq_eq_iff hm.wellFormed hn.wellFormed).mp ?_)
  exact OrientedCmp.isLE_antisymm hab hba

theorem le_trans {a b c : Reached} (hab : Le a.1 b.1) (hbc : Le b.1 c.1) : Le a.1 c.1 := by
  obtain ⟨m, ha, -⟩ := a.shows
  obtain ⟨n, hb, -⟩ := b.shows
  obtain ⟨k, hc, -⟩ := c.shows
  exact (ha.le_iff hc).mpr (TransCmp.isLE_trans ((ha.le_iff hb).mp hab) ((hb.le_iff hc).mp hbc))

/-- Equality, order and hash have a result for any two names that can be built, and agree. -/
theorem same_compare_hash (a b : Reached) :
    ∃ same order h k, a.1.same b.1 = .ok same ∧ a.1.compare b.1 = .ok order ∧
      b.1.compare a.1 = .ok order.swap ∧ a.1.hash = .ok h ∧ b.1.hash = .ok k ∧
      (order = .eq ↔ same = true) ∧ (same = true → h = k) := by
  obtain ⟨m, ha, hm⟩ := a.shows
  obtain ⟨n, hb, hn⟩ := b.shows
  have hsame := Name.beq_iff hm.wellFormed hn.wellFormed
  have hswap : n.compare m = (m.compare n).swap := OrientedCmp.eq_swap
  refine ⟨m == n, m.compare n, m.hash, n.hash, ha.same hb hm hn, ha.compare hb,
    hswap ▸ hb.compare ha, ha.hash, hb.hash, ?_, fun h => Name.hash_congr (hsame.mp h)⟩
  rw [hsame, Name.compare_eq_eq_iff hm.wellFormed hn.wellFormed]

/-- Equality of names is an equivalence, their order is total, transitive and antisymmetric up to
equality, names compare as equal exactly if they are, and equal names have one hash. -/
theorem same_compare_hash_agree :
    Equivalence (fun a b : Reached => Same a.1 b.1) ∧
    (∀ a b : Reached, Le a.1 b.1 ∨ Le b.1 a.1) ∧
    (∀ a b : Reached, Le a.1 b.1 → Le b.1 a.1 → Same a.1 b.1) ∧
    (∀ a b c : Reached, Le a.1 b.1 → Le b.1 c.1 → Le a.1 c.1) ∧
    (∀ a b : Reached, ∃ same order h k, a.1.same b.1 = .ok same ∧ a.1.compare b.1 = .ok order ∧
      b.1.compare a.1 = .ok order.swap ∧ a.1.hash = .ok h ∧ b.1.hash = .ok k ∧
      (order = .eq ↔ same = true) ∧ (same = true → h = k)) :=
  ⟨same_equivalence, le_total, fun _ _ => le_antisymm, fun _ _ _ => le_trans, same_compare_hash⟩

example : (adapt "fooBar.x_1" '.').same (adapt "foo-bar/x1" '/') = .ok true := by decide +kernel

example : (adapt "a[07]" '.').compare (adapt "a[7]" '.') = .ok .lt := by decide +kernel

/-! ## Short cuts -/

/-- No short cut can be told from a look at each element: equality holds exactly if the elements are
alike one by one, also where a name is looked at once, an element in a form is its text converted to
the form, and the text of a name is put together from its elements. -/
theorem shortcuts_unseen (a b : Reached) :
    ∃ es fs, a.1.elements = .ok es ∧ b.1.elements = .ok fs ∧
      (∃ r, a.1.equal b.1 false = .ok r ∧ (r = true ↔ List.Forall₂ Element.Alike es fs)) ∧
      a.1.equal a.1 true = a.1.equal a.1 false ∧
      (∀ (form : Form) (i : Fin es.length), a.1.render i form = .ok ((es.get i).convert form)) ∧
      a.1.text = .ok (es.foldl Name.textWith "") := by
  obtain ⟨m, ha, hm⟩ := a.shows
  obtain ⟨n, hb, hn⟩ := b.shows
  refine ⟨m.elements, n.elements, ha.elements, hb.elements, ⟨m == n, ha.same hb hm hn, ?_⟩, ?_, ?_,
    ha.text hm⟩
  · rw [Name.beq_iff hm.wellFormed hn.wellFormed, Name.meaning_eq_iff]
  · exact (same_equivalence.refl a).symm
  · intro form i
    have he : m.elements[i.val]? = some (m.elements.get i) := List.getElem?_eq_getElem i.isLt
    rw [← Element.render_eq_convert (hm _ (List.get_mem _ i)) form, Window.render, ha.element i _ he]
    rfl

end Window

end TypedConfig
