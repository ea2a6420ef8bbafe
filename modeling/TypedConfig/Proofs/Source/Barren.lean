import TypedConfig.Proofs.Source.Entries

/-!
# Where a source has nothing

* `Source.BarrenAt`: the source has nothing at a name or below it. It is barren then at every name
  that begins with that one (`Source.BarrenAt.append`).
* `Source.Truthful`: where the source denies that there is anything below a name, there is nothing.
* `Source.barrenAt_entries`: entries are barren at a name that none of theirs equals or lies below.
  They are truthful (`Source.truthful_entries`).
-/

namespace TypedConfig.Source

/-- The source has nothing at a name or below it. At the root no value is looked up. -/
structure BarrenAt (s : Source) (n : Name) : Prop where
  here : n.isEmpty = false → s.get? n = none
  below : ∀ m, m.Built → n.isAncestorOf m = true → s.get? m = none
  listed : ∀ m ∈ s.names?.getD [], n.isAncestorOf m = false

/-- What the source denies is true: where there is nothing below a name, it lists nothing and holds
nothing there. -/
structure Truthful (s : Source) : Prop where
  listed : ∀ n, n.Built → s.presence n = .absent → ∀ m ∈ s.names?.getD [], n.isAncestorOf m = false
  held : ∀ n m, n.Built → m.Built → s.presence n = .absent → n.isAncestorOf m = true →
    s.get? m = none

/-- The source lists only names that can be built. -/
def ListsBuilt (s : Source) : Prop := ∀ n ∈ s.names?.getD [], n.Built

variable {s : Source} {n : Name}

/-- What begins with a barren name is barren. -/
theorem BarrenAt.append (h : s.BarrenAt n) (hn : n.Built) {k : Name} (hk : k.Built) :
    s.BarrenAt (n ++ k) where
  here hne := by
    cases hek : k.elements with
    | nil =>
      have heq : n ++ k = n := congrArg Name.mk (by rw [hek, List.append_nil])
      rw [heq] at hne ⊢
      exact h.here hne
    | cons e rest => exact h.below _ (.append hn hk) (n.isAncestorOf_append (by simp [hek]))
  below m hm hanc := h.below m hm (Name.isAncestorOf_of_append hanc)
  listed m hm := by
    rw [← Bool.not_eq_true]
    intro hanc
    have := h.listed m hm
    rw [Name.isAncestorOf_of_append hanc] at this
    cases this

/-- A truthful source is barren where it denies and has no value. -/
theorem Truthful.barrenAt (h : s.Truthful) (hn : n.Built) (ha : s.presence n = .absent)
    (hg : n.isEmpty = false → s.get? n = none) : s.BarrenAt n where
  here := hg
  below m hm := h.held n m hn hm ha
  listed := h.listed n hn ha

/-! ## Entries -/

section Entries

variable {label : String} {held : TypedConfig.Entries}

theorem get?_entries_eq_none {m : Name} (h : ∀ k ∈ held.names, (k == m) = false) :
    (entries label held).get? m = none := by
  have hf : Keyed.find? m held = none := by
    rw [← Option.not_isSome_iff_eq_none, Keyed.find?_isSome]
    rintro ⟨k, hk, heq⟩
    rw [h k hk] at heq
    cases heq
  simp only [get?, hf, Option.map_none]

/-- Where no entry lies below a name, nothing is found there. -/
theorem get?_entries_below (hwf : held.WellFormed) (hn : n.Built)
    (h : ∀ k ∈ held.names, n.isAncestorOf k = false) {m : Name} (hm : m.Built)
    (hanc : n.isAncestorOf m = true) : (entries label held).get? m = none := by
  refine get?_entries_eq_none fun k hk => ?_
  rw [← Bool.not_eq_true]
  intro heq
  have hkm := (Name.beq_iff (hwf k hk) hm.wellFormed).mp heq
  rw [← Name.isAncestorOf_congr hn.wellFormed (hwf k hk) hm.wellFormed hkm, h k hk] at hanc
  cases hanc

/-- Entries are barren at a name that none of theirs equals or lies below. -/
theorem barrenAt_entries (hwf : held.WellFormed) (hn : n.Built)
    (h : ∀ k ∈ held.names, (k == n) = false ∧ n.isAncestorOf k = false) :
    (entries label held).BarrenAt n where
  here _ := get?_entries_eq_none fun k hk => (h k hk).1
  below _ := get?_entries_below hwf hn fun k hk => (h k hk).2
  listed k hk := (h k hk).2

/-- Entries deny only what is not there. -/
theorem truthful_entries (hwf : held.WellFormed) : (entries label held).Truthful := by
  have hlisted : ∀ n : Name, (entries label held).presence n = .absent →
      ∀ m ∈ held.names, n.isAncestorOf m = false := by
    intro n ha m hm
    rw [← Bool.not_eq_true]
    intro hanc
    have hany : held.names.any n.isAncestorOf = true := List.any_eq_true.mpr ⟨m, hm, hanc⟩
    simp [presence, Presence.ofBool, hany] at ha
  exact ⟨fun n _ ha => hlisted n ha,
    fun n m hn hm ha hanc => get?_entries_below hwf hn (hlisted n ha) hm hanc⟩

theorem listsBuilt_entries (h : held.Built) : (entries label held).ListsBuilt := h.names

end Entries

end TypedConfig.Source
