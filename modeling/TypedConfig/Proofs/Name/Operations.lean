import TypedConfig.Proofs.Name.Agreement

/-!
# Joining and cutting names is joining and cutting lists

Whatever was done to a name, joining and cutting it does to its elements what it does to a list
(`Window.operations_are_of_lists`), and no step looks for an element where none is kept: there is a
slot for each position, and behind each empty one a span that stands in the text
(`Window.InBounds`). A window that was moved beyond its spans has a filled slot at each position.
-/

namespace TypedConfig.Window

/-- Whatever is read of the window is there. -/
structure InBounds (w : Window) : Prop where
  /-- There is one slot for each position, if there are slots at all. -/
  slots : ∀ slots, w.slots = some slots → slots.length = w.length
  /-- Where no slot is filled, a span stands in the text. -/
  spans : ∀ i : Fin w.length, heldAt w.slots i = .ok none → ∃ span text,
    w.spans[w.offset + i]? = some span ∧ Text.slice? w.source span.start span.stop = some text
  /-- Looking for the short cut finds all spans of the name, and the text between them. -/
  shortcut : ∀ accept, ∃ cut, w.shortcut accept = .ok cut

variable {w : Window} {n : Name}

/-- A window that shows a name is in bounds. -/
theorem Shows.inBounds (h : w.Shows n) : w.InBounds where
  slots := h.slots
  spans i hheld := by
    have hi : i.val < n.elements.length := by
      rw [← Name.length, ← h.length]
      exact i.isLt
    obtain ⟨span, hspan, -, htext⟩ :=
      standsFor_of_element (h.element i _ (List.getElem?_eq_getElem hi)) hheld
    exact ⟨span, _, hspan, htext⟩
  shortcut accept := by
    rcases h.shortcut accept with hcut | ⟨hcut, -⟩
    · exact ⟨_, hcut⟩
    · exact ⟨_, hcut⟩

/-- A position beyond the end of a name is refused. -/
theorem subName_of_lt {k : Nat} (hk : w.length < k) :
    w.subName k = .error (.outOfRange ⟨k, w.length⟩) := if_pos hk

/-- Joining and cutting names that can be built does to their elements what it does to lists, and
whatever is read of them is there. -/
theorem operations_are_of_lists (a b : Reached) : ∃ as bs,
    a.1.elements = .ok as ∧ b.1.elements = .ok bs ∧
      (∃ c, a.1.join b.1 = .ok c ∧ c.elements = .ok (as ++ bs)) ∧
      (∀ key, ∃ c, a.1.item key = .ok c ∧ c.elements = .ok (as ++ [Element.index key])) ∧
      (∀ k, (a.1.take k).elements = .ok (as.take k)) ∧
      (∀ k ≤ as.length, ∃ c, a.1.subName k = .ok c ∧ c.elements = .ok (as.drop k)) ∧
      (∀ k > as.length, a.1.subName k = .error (.outOfRange ⟨k, as.length⟩)) ∧
      a.1.parent.elements = .ok as.dropLast ∧ a.1.InBounds := by
  obtain ⟨m, ha, -⟩ := a.shows
  obtain ⟨n, hb, -⟩ := b.shows
  have hlen : a.1.length = m.elements.length := ha.length
  refine ⟨m.elements, n.elements, ha.elements, hb.elements, ?_, fun key => ?_,
    fun k => (ha.take k).elements, fun k hk => ?_, fun k hk => ?_, ha.parent.elements, ha.inBounds⟩
  · obtain ⟨c, hc, hshows⟩ := ha.join hb
    exact ⟨c, hc, hshows.elements⟩
  · obtain ⟨c, hc, hshows⟩ := ha.item key
    exact ⟨c, hc, hshows.elements⟩
  · obtain ⟨c, hc, hshows⟩ := ha.subName (hlen ▸ hk)
    exact ⟨c, hc, hshows.elements⟩
  · rw [← hlen] at hk ⊢
    exact subName_of_lt hk

-- The spans of `a.b` are behind this window, and its slots stand for both elements.
example : (do
    let w ← (← (adapt "a.b" '.').join (adapt "C[0]" '.')).subName 2
    return (w.offset, w.spans.length, ← w.elements)) =
      .ok (2, 2, [⟨.nonUniform, "C"⟩, ⟨.numeric, "0"⟩]) := by decide +kernel

end TypedConfig.Window
