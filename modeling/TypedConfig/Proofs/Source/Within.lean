import Mathlib.Data.List.Basic
import TypedConfig.Proofs.Source.Barren

/-!
# Sources at and below a name

* `Source.AlikeWithin`: two sources answer alike at all names that a root covers (`Name.covers`).
* `Source.alikeWithin_entries`: so do entries that are the same there.
-/

namespace TypedConfig

/-- The entries at a name and below it. -/
def Entries.within (held : Entries) (root : Name) : Entries :=
  held.filter fun entry => root.covers entry.1

namespace Source

/-- The two sources answer alike at a root and below it. What they list elsewhere does not count. -/
structure AlikeWithin (root : Name) (s s' : Source) : Prop where
  get? : ∀ n : Name, n.Built → root.covers n = true → s.get? n = s'.get? n
  presence : ∀ n : Name, n.Built → root.covers n = true → s.presence n = s'.presence n
  iterable : s.isIterable = s'.isIterable
  reach : s.names? = none → s.reach = s'.reach
  names : s.names?.map (·.filter root.covers) = s'.names?.map (·.filter root.covers)
  built : s.ListsBuilt
  built' : s'.ListsBuilt

variable {s s' : Source} {root n : Name} {held held' : TypedConfig.Entries} {label : String}

/-- What passes a test among listed names can be found among those that the root covers, if only
covered names pass. -/
theorem map_filter_covers {α : Type} (hb : s.ListsBuilt) {f : Name → Option α}
    (hf : ∀ x, x.Built → root.covers x = false → f x = none) :
    (s.names?.map (·.filter root.covers)).map (·.filterMap f) = s.names?.map (·.filterMap f) := by
  unfold ListsBuilt at hb
  cases hnames : s.names? with
  | none => rfl
  | some names =>
    rw [hnames] at hb
    simp only [Option.map_some, List.filterMap_filter, Option.some.injEq]
    refine List.filterMap_congr fun x hx => ?_
    cases hc : root.covers x with
    | true => rfl
    | false => exact (hf x (hb x hx) hc).symm

/-- Two such sources list the same of what only covered names have. -/
theorem AlikeWithin.filterMap_names {α : Type} (h : s.AlikeWithin root s') {f : Name → Option α}
    (hf : ∀ x, x.Built → root.covers x = false → f x = none) :
    s.names?.map (·.filterMap f) = s'.names?.map (·.filterMap f) := by
  rw [← map_filter_covers h.built hf, ← map_filter_covers h.built' hf, h.names]

/-- They list the same names that pass a test, if only covered names pass. -/
theorem AlikeWithin.filter_names (h : s.AlikeWithin root s') {test : Name → Bool}
    (ht : ∀ x, x.Built → test x = true → root.covers x = true) :
    (s.names?.getD []).filter test = (s'.names?.getD []).filter test := by
  have hsame := h.filterMap_names (f := Option.guard (test ·)) fun x hx hc => by
    rw [Option.guard_eq_none_iff]
    simpa using fun hpass => Bool.false_ne_true (hc.symm.trans (ht x hx hpass))
  have hgetD : ∀ names : Option (List Name), (names.getD []).filter test =
      (names.map (·.filterMap (Option.guard (test ·)))).getD [] := by
    intro names
    cases names with
    | none => rfl
    | some names => simp
  rw [hgetD, hgetD, hsame]

theorem names_within (held : TypedConfig.Entries) (root : Name) :
    (held.within root).names = held.names.filter root.covers := by
  unfold TypedConfig.Entries.within TypedConfig.Entries.names
  rw [List.filter_map]
  rfl

/-- A name that is covered is found among the entries that are. -/
theorem find?_within (hr : root.Built) (hwf : held.WellFormed) (hn : n.Built)
    (h : root.covers n = true) : Keyed.find? n (held.within root) = Keyed.find? n held := by
  induction held with
  | nil => rfl
  | cons entry rest ih =>
    obtain ⟨k, v⟩ := entry
    have hk : k.WellFormed := hwf k (.head _)
    have ih := ih fun l hl => hwf l (.tail _ hl)
    unfold TypedConfig.Entries.within at ih ⊢
    cases hkept : root.covers k with
    | true =>
      rw [List.filter_cons_of_pos (p := fun entry : Name × Entry => root.covers entry.1) hkept]
      simp only [Keyed.find?, ih]
    | false =>
      have hne : (k == n) = false := by
        rw [← Bool.not_eq_true, Name.beq_iff hk hn.wellFormed]
        intro heq
        rw [Name.covers_congr hr.wellFormed hk hn.wellFormed heq, h] at hkept
        cases hkept
      rw [List.filter_cons_of_neg (p := fun entry : Name × Entry => root.covers entry.1)
        (by simp [hkept]), ih]
      simp only [Keyed.find?, hne, Bool.false_eq_true, ↓reduceIte]

/-- What lies below a covered name lies among the entries that are covered. -/
theorem any_isAncestorOf_within (hr : root.Built) (hwf : held.WellFormed) (hn : n.Built)
    (h : root.covers n = true) :
    (held.within root).names.any n.isAncestorOf = held.names.any n.isAncestorOf := by
  rw [names_within, List.any_filter, Bool.eq_iff_iff, List.any_eq_true, List.any_eq_true]
  refine exists_congr fun k => and_congr_right fun hk => ?_
  rw [Bool.and_eq_true, and_iff_right_iff_imp]
  exact Name.covers_of_isAncestorOf hr.wellFormed hn.wellFormed (hwf k hk) h

/-- Entries that are the same at a root and below it answer alike there. -/
theorem alikeWithin_entries (hr : root.Built) (h : held.Built) (h' : held'.Built)
    (hsame : held.within root = held'.within root) :
    AlikeWithin root (entries label held) (entries label held') where
  get? n hn hc := by
    unfold Source.get?
    rw [← find?_within hr h.wellFormed hn hc, ← find?_within hr h'.wellFormed hn hc, hsame]
  presence n hn hc := by
    unfold Source.presence
    rw [← any_isAncestorOf_within hr h.wellFormed hn hc,
      ← any_isAncestorOf_within hr h'.wellFormed hn hc, hsame]
  iterable := rfl
  reach hnone := by cases hnone
  names := by
    simp only [names?, Option.map_some, ← names_within, hsame]
  built := listsBuilt_entries h
  built' := listsBuilt_entries h'

end Source

end TypedConfig
