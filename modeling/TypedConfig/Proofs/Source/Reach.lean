import Mathlib.Data.List.MinMax
import Mathlib.Order.Nat
import TypedConfig.Proofs.Source.Barren
import TypedConfig.Proofs.Source.Views

/-!
# How far the positions in a source reach

A source that holds finitely many names has a last position among them. From there on it has no items
(`Source.Finite.barrenAt_item`), so whoever reads a collection from it item by item comes to positions
where there is nothing.

* `Name.reach_congr`: names of one meaning reach as far as each other.
* `Source.Finite`: the names that lookups find something under are within reach. Entries are such
  sources, and so is every view of one.
-/

namespace TypedConfig

/-! ## Names -/

theorem Element.reach_congr {a b : Element} (ha : a.WellFormed) (hb : b.WellFormed)
    (h : a.meaning = b.meaning) : a.reach = b.reach := by
  have hkind := numeric_of_meaning_eq ha hb h
  unfold reach
  by_cases hnum : a.kind = .numeric
  · have hnum' : b.kind = .numeric := by simpa [hnum] using hkind.symm
    have htext : a.text.toList = b.text.toList := by
      simpa [meaning, isIndex, hnum, hnum', Kind.isIndex] using h
    rw [if_pos hnum, if_pos hnum', htext]
  · have hnum' : b.kind ≠ .numeric := by simpa [hnum] using hkind.symm
    rw [if_neg hnum, if_neg hnum']

/-- The index that a position is written as reaches just beyond it. -/
theorem Element.reach_index (k : Nat) : (index (toString k)).reach = k + 1 := by
  rw [reach, if_pos (index_toString_kind k), index_text, digitsValue_toString]

namespace Name

variable {n m : Name} {names : List Name} {k : Nat}

theorem reach_le_iff : n.reach ≤ k ↔ ∀ e ∈ n.elements, e.reach ≤ k := by
  constructor
  · exact fun h e he => (List.le_max_of_le (List.mem_map_of_mem he) le_rfl).trans h
  · exact fun h => List.max_le_of_forall_le _ _ (List.forall_mem_map.mpr h)

theorem reach_le_reachOf (h : n ∈ names) : n.reach ≤ reachOf names :=
  List.le_max_of_le (List.mem_map_of_mem h) le_rfl

/-- A name reaches as far as each of its elements. -/
theorem reach_le_of_subset (h : n.elements ⊆ m.elements) : n.reach ≤ m.reach :=
  reach_le_iff.mpr fun e he => reach_le_iff.mp le_rfl e (h he)

/-- Names of one meaning reach as far as each other. -/
theorem reach_congr (hn : n.WellFormed) (hm : m.WellFormed) (h : n.meaning = m.meaning) :
    n.reach = m.reach := by
  have hle : ∀ {n m : Name}, n.WellFormed → m.WellFormed → n.meaning = m.meaning →
      n.reach ≤ m.reach := by
    intro n m hn hm h
    refine reach_le_iff.mpr fun e he => ?_
    have hmem : e.meaning ∈ m.meaning := h ▸ List.mem_map_of_mem he
    obtain ⟨d, hd, heq⟩ := List.mem_map.mp hmem
    rw [← Element.reach_congr (hm d hd) (hn e he) heq]
    exact reach_le_iff.mp le_rfl d hd
  exact le_antisymm (hle hn hm h) (hle hm hn h.symm)

/-- What lies below a name reaches as far. -/
theorem reach_le_of_isAncestorOf (hn : n.WellFormed) (hm : m.WellFormed)
    (h : n.isAncestorOf m = true) : n.reach ≤ m.reach := by
  have hmeaning : n.meaning = (m.take n.length).meaning := by
    rw [meaning_take]
    exact ((isAncestorOf_iff hn hm).mp h).2
  rw [reach_congr hn (hm.take _) hmeaning]
  exact reach_le_of_subset (List.take_subset _ _)

/-- An item lies beyond what does not reach further than its position. -/
theorem lt_reach_item (n : Name) (k : Nat) : k < (n.item (toString k)).reach := by
  have hlast := reach_le_iff.mp (le_refl (n.item (toString k)).reach) (.index (toString k))
    (List.mem_append_right _ (List.mem_singleton_self _))
  rwa [Element.reach_index] at hlast

end Name

/-! ## Sources -/

namespace Source

/-- The source holds nothing beyond its reach, and lists only names that can be built. -/
structure Finite (s : Source) : Prop where
  built : s.ListsBuilt
  reach : ∀ n, n.Built → (s.get? n).isSome = true → n.reach ≤ s.reach

namespace Finite

variable {s : Source} {n : Name} {k : Nat}

/-- Where the source lists no names, it has no items from its reach on. -/
theorem barrenAt_item (h : s.Finite) (hl : s.names? = none) (hn : n.Built) (hk : s.reach ≤ k) :
    s.BarrenAt (n.item (toString k)) := by
  have hbeyond : ∀ m : Name, m.Built → k < m.reach → s.get? m = none := by
    intro m hm hreach
    rw [← Option.not_isSome_iff_eq_none]
    intro hsome
    exact absurd (h.reach m hm hsome) (by omega)
  have hitem : (n.item (toString k)).Built := .item hn _
  refine ⟨fun _ => hbeyond _ hitem (n.lt_reach_item k), fun m hm hanc => ?_, by rw [hl]; nofun⟩
  have hle := Name.reach_le_of_isAncestorOf hitem.wellFormed hm.wellFormed hanc
  exact hbeyond m hm (Nat.lt_of_lt_of_le (n.lt_reach_item k) hle)

theorem entries {held : Entries} (label : String) (h : held.Built) : (entries label held).Finite where
  built := h.names
  reach n hn hsome := by
    rw [get?, Option.isSome_map, Entries.find?_isSome h.wellFormed hn.wellFormed] at hsome
    obtain ⟨k, hk, heq⟩ := hsome
    rw [← Name.reach_congr (h.wellFormed k hk) hn.wellFormed heq]
    exact Name.reach_le_reachOf hk

theorem filtered (h : s.Finite) (test : Name → Bool) : (s.filtered test).Finite where
  built n hn := by
    refine h.built n ?_
    cases hs : s.names? with
    | none => rw [names?, hs] at hn; cases hn
    | some names => rw [names?, hs] at hn; exact List.mem_of_mem_filter hn
  reach n hn hsome := by
    rw [isSome_get?_filtered, Bool.and_eq_true] at hsome
    exact h.reach n hn hsome.2

theorem relocated {root : Name} (h : s.Finite) (hr : root.Built) : (s.relocated root).Finite where
  built n hn := by
    cases hs : s.names? with
    | none => rw [names?, hs] at hn; cases hn
    | some names =>
      rw [names?, hs] at hn
      obtain ⟨l, hl, -, rfl⟩ := mem_unprefixed.mp hn
      exact .drop (h.built l (by rw [hs]; exact hl)) _
  reach n hn hsome := by
    rw [isSome_get?_relocated] at hsome
    have hle : n.reach ≤ (root ++ n).reach :=
      Name.reach_le_of_subset (List.subset_append_right _ _)
    exact hle.trans (h.reach _ (.append hr hn) hsome)

theorem aliased {table : Aliases} (h : s.Finite) (ht : table.Regular) : (s.aliased table).Finite where
  built n hn := by
    cases hs : s.names? with
    | none => rw [names?, hs] at hn; cases hn
    | some names =>
      have hnames : ∀ k ∈ names, k.Built := fun k hk => h.built k (by rw [hs]; exact hk)
      rw [names?, hs, Option.map_some, Aliases.foldl_addName] at hn
      rcases List.mem_append.mp hn with hn | hn
      · exact hnames n hn
      · obtain ⟨m, hm, hn⟩ := List.mem_flatMap.mp (Entries.mem_of_mem_firstSpellings hn)
        exact ht.built_others (hnames m hm) hn
  reach n hn hsome := by
    have htable : ∀ c a, (c, a) ∈ table.pairs → c.reach ≤ table.reach ∧ a.reach ≤ table.reach := by
      intro c a hp
      obtain ⟨as, hmem, ha⟩ := Aliases.mem_pairs.mp hp
      exact ⟨Name.reach_le_reachOf (List.mem_flatMap.mpr ⟨_, hmem, .head _⟩),
        Name.reach_le_reachOf (List.mem_flatMap.mpr ⟨_, hmem, .tail _ ha⟩)⟩
    rcases isSome_get?_aliased.mp hsome with hsome | ⟨m, hm, -⟩
    · exact le_max_of_le_left (h.reach n hn hsome)
    · refine le_max_of_le_right ?_
      rcases ht.pair_of_other hn hm with ⟨c, hp, heq⟩ | ⟨a, hp, heq⟩
      · rw [← Name.reach_congr (ht.built_pairs hp).1.wellFormed hn.wellFormed heq]
        exact (htable _ _ hp).1
      · rw [← Name.reach_congr (ht.built_pairs hp).2.wellFormed hn.wellFormed heq]
        exact (htable _ _ hp).2

theorem lookupOnly (h : s.Finite) : s.lookupOnly.Finite := ⟨nofun, h.reach⟩

theorem unlisted (h : s.Finite) : s.unlisted.Finite := ⟨nofun, h.reach⟩

theorem shallow (h : s.Finite) : s.shallow.Finite := ⟨h.built, h.reach⟩

theorem recorded (h : s.Finite) : s.recorded.Finite := ⟨h.built, h.reach⟩

theorem hollow (presence : Presence) : (hollow presence).Finite := ⟨nofun, fun _ _ h => by cases h⟩

end Finite

end Source

end TypedConfig
