import TypedConfig.Proofs.Name.Agreement

/-!
# Ancestry

A name lies above another exactly if its meaning is a strict prefix of the other's
(`Name.isAncestorOf_iff_prefix`), so ancestry is transitive and sees equal names alike. What lies
above a name comes before it in the order, and whatever comes between the two lies below the upper
one as well (`Name.isAncestorOf_of_between`): the names below one stand next to each other, behind
it.

* `Window.Above`, `Window.Before`: ancestry and the strict order of the names that are kept.
* `Window.above_is_prefix_order`: all of this, for all names that can be built.
-/

namespace TypedConfig

open Std (OrientedCmp TransCmp)

/-! ## Elements -/

/-- Elements compare equal exactly if they are the same. -/
theorem Element.compare_eq_eq_iff_same {a b : Element} (ha : a.WellFormed) (hb : b.WellFormed) :
    a.compare b = .eq ↔ a.same b = true :=
  (compare_eq_eq_iff ha hb).trans (same_iff ha hb).symm

namespace Name

/-- What starts like a longer list comes before it. -/
theorem compareElements_of_sameElements {as bs : List Element} (ha : ∀ e ∈ as, e.WellFormed)
    (hb : ∀ e ∈ bs, e.WellFormed) (hl : as.length < bs.length) (h : sameElements as bs = true) :
    compareElements as bs = .lt := by
  induction as generalizing bs with
  | nil =>
    cases bs with
    | nil => simp at hl
    | cons b bs => rfl
  | cons a as ih =>
    cases bs with
    | nil => simp at hl
    | cons b bs =>
      obtain ⟨ha, has⟩ := List.forall_mem_cons.mp ha
      obtain ⟨hb, hbs⟩ := List.forall_mem_cons.mp hb
      obtain ⟨hab, h⟩ := Bool.and_eq_true_iff.mp h
      rw [compareElements, (Element.compare_eq_eq_iff_same ha hb).mpr hab]
      exact ih has hbs (Nat.lt_of_succ_lt_succ hl) h

/-- What comes behind a list, and before one that starts like it, starts like it as well. -/
theorem sameElements_of_between {as bs cs : List Element} (ha : ∀ e ∈ as, e.WellFormed)
    (hb : ∀ e ∈ bs, e.WellFormed) (hc : ∀ e ∈ cs, e.WellFormed) (hl : as.length < cs.length)
    (h : sameElements as cs = true) (hab : compareElements as bs = .lt)
    (hbc : compareElements bs cs = .lt) : as.length < bs.length ∧ sameElements as bs = true := by
  induction as generalizing bs cs with
  | nil =>
    cases bs with
    | nil => cases hab
    | cons b bs => exact ⟨Nat.succ_pos _, rfl⟩
  | cons a as ih =>
    cases cs with
    | nil => simp at hl
    | cons c cs =>
      cases bs with
      | nil => cases hab
      | cons b bs =>
        obtain ⟨ha, has⟩ := List.forall_mem_cons.mp ha
        obtain ⟨hb, hbs⟩ := List.forall_mem_cons.mp hb
        obtain ⟨hc, hcs⟩ := List.forall_mem_cons.mp hc
        obtain ⟨hac, h⟩ := Bool.and_eq_true_iff.mp h
        have heq : a.compare c = .eq := (Element.compare_eq_eq_iff_same ha hc).mpr hac
        -- The outer lists start alike, so what stands between them can start in no other way.
        have hswap : a.compare b = (b.compare c).swap :=
          (TransCmp.congr_left heq).trans OrientedCmp.eq_swap
        rw [compareElements] at hab hbc
        cases hfirst : b.compare c with
        | lt =>
          rw [hswap, hfirst] at hab
          cases hab
        | gt =>
          rw [hfirst] at hbc
          cases hbc
        | eq =>
          rw [hswap, hfirst] at hab
          rw [hfirst] at hbc
          obtain ⟨hlt, hrest⟩ := ih has hbs hcs (Nat.lt_of_succ_lt_succ hl) h hab hbc
          have hsame : a.same b = true :=
            (Element.compare_eq_eq_iff_same ha hb).mp (by rw [hswap, hfirst]; rfl)
          exact ⟨Nat.succ_lt_succ hlt, Bool.and_eq_true_iff.mpr ⟨hsame, hrest⟩⟩

/-! ## Names -/

section WellFormed

variable {a b c : Name} (ha : a.WellFormed) (hb : b.WellFormed)

include ha hb

theorem isAncestorOf_iff_prefix : a.isAncestorOf b = true ↔
    a.meaning <+: b.meaning ∧ a.meaning.length < b.meaning.length := by
  rw [isAncestorOf_iff ha hb, List.prefix_iff_eq_take, length_meaning, length_meaning, and_comm]

/-- What lies above a name comes before it. -/
theorem compare_of_isAncestorOf (h : a.isAncestorOf b = true) : a.compare b = .lt := by
  rw [isAncestorOf, Bool.and_eq_true, decide_eq_true_eq] at h
  exact compareElements_of_sameElements ha hb h.1 h.2

/-- What comes between a name and one below it lies below it. -/
theorem isAncestorOf_of_between (hc : c.WellFormed) (h : a.isAncestorOf c = true)
    (hab : a.compare b = .lt) (hbc : b.compare c = .lt) : a.isAncestorOf b = true := by
  rw [isAncestorOf, Bool.and_eq_true, decide_eq_true_eq] at h ⊢
  exact sameElements_of_between ha hb hc h.1 h.2 hab hbc

end WellFormed

end Name

/-! ## The names that are kept -/

namespace Window

/-- The first name lies above the second. -/
def Above (a b : Window) : Prop := a.isAncestorOf b = .ok true

/-- The first name comes before the second. -/
def Before (a b : Window) : Prop := a.compare b = .ok .lt

section Shown

variable {a b : Window} {m n : Name}

theorem Shows.above_iff (ha : a.Shows m) (hb : b.Shows n) :
    Above a b ↔ m.isAncestorOf n = true := by
  rw [Above, ha.isAncestorOf hb, Except.ok.injEq]

theorem Shows.before_iff (ha : a.Shows m) (hb : b.Shows n) : Before a b ↔ m.compare n = .lt := by
  rw [Before, ha.compare hb, Except.ok.injEq]

end Shown

variable {a a' b b' c : Reached}

/-- Ancestry has a result for any two names, and is that of a strict beginning. -/
theorem isAncestorOf_total (a b : Reached) : ∃ above parent, a.1.isAncestorOf b.1 = .ok above ∧
    a.1.isParentOf b.1 = .ok parent ∧
      (above = true ↔ a.1.length < b.1.length ∧ Same (b.1.take a.1.length) a.1) ∧
      (parent = true ↔ above = true ∧ a.1.length + 1 = b.1.length) := by
  obtain ⟨m, ha, hm⟩ := a.shows
  obtain ⟨n, hb, hn⟩ := b.shows
  refine ⟨_, _, ha.isAncestorOf hb, ha.isParentOf hb, ?_, ?_⟩
  · rw [Name.isAncestorOf_iff hm.wellFormed hn.wellFormed, ha.length, hb.length,
      (hb.take _).same_iff ha (hn.take _) hm, Name.meaning_take, eq_comm (a := m.meaning)]
  · rw [Name.isParentOf, Bool.and_eq_true, beq_iff_eq, ha.length, hb.length, and_comm]

/-- What lies below a name comes behind it, and is the name joined with what is cut off. -/
theorem Above.before_and_rejoins (h : Above a.1 b.1) : Before a.1 b.1 ∧
    ∃ rest whole, b.1.subName a.1.length = .ok rest ∧ a.1.join rest = .ok whole ∧
      Same whole b.1 := by
  obtain ⟨m, ha, hm⟩ := a.shows
  obtain ⟨n, hb, hn⟩ := b.shows
  rw [ha.above_iff hb] at h
  have hlt := ((Name.isAncestorOf_iff hm.wellFormed hn.wellFormed).mp h).1
  have hle : a.1.length ≤ b.1.length := by
    rw [ha.length, hb.length]
    exact Nat.le_of_lt hlt
  obtain ⟨rest, hrest, hshows⟩ := hb.subName hle
  obtain ⟨whole, hwhole, hjoined⟩ := ha.join hshows
  refine ⟨(ha.before_iff hb).mpr (Name.compare_of_isAncestorOf hm.wellFormed hn.wellFormed h),
    rest, whole, hrest, hwhole, ?_⟩
  rw [hjoined.same_iff hb (hm.append (hn.drop _)) hn, Name.meaning_append, ha.length]
  exact (Name.meaning_of_drop hm.wellFormed hn.wellFormed h).symm

theorem not_above_self (a : Reached) : ¬Above a.1 a.1 := by
  obtain ⟨m, ha, hm⟩ := a.shows
  rw [ha.above_iff ha, Name.isAncestorOf_iff hm.wellFormed hm.wellFormed]
  exact fun h => Nat.lt_irrefl _ h.1

theorem Above.trans (hab : Above a.1 b.1) (hbc : Above b.1 c.1) : Above a.1 c.1 := by
  obtain ⟨m, ha, hm⟩ := a.shows
  obtain ⟨n, hb, hn⟩ := b.shows
  obtain ⟨k, hc, hk⟩ := c.shows
  rw [ha.above_iff hb, Name.isAncestorOf_iff_prefix hm.wellFormed hn.wellFormed] at hab
  rw [hb.above_iff hc, Name.isAncestorOf_iff_prefix hn.wellFormed hk.wellFormed] at hbc
  rw [ha.above_iff hc, Name.isAncestorOf_iff_prefix hm.wellFormed hk.wellFormed]
  exact ⟨hab.1.trans hbc.1, Nat.lt_trans hab.2 hbc.2⟩

theorem above_congr (ha : Same a.1 a'.1) (hb : Same b.1 b'.1) :
    Above a.1 b.1 ↔ Above a'.1 b'.1 := by
  obtain ⟨m, ham, hm⟩ := a.shows
  obtain ⟨m', ham', hm'⟩ := a'.shows
  obtain ⟨n, hbn, hn⟩ := b.shows
  obtain ⟨n', hbn', hn'⟩ := b'.shows
  rw [ham.above_iff hbn, ham'.above_iff hbn', Name.isAncestorOf_iff_prefix hm.wellFormed hn.wellFormed,
    Name.isAncestorOf_iff_prefix hm'.wellFormed hn'.wellFormed, (ham.same_iff ham' hm hm').mp ha,
    (hbn.same_iff hbn' hn hn').mp hb]

theorem Above.of_between (h : Above a.1 c.1) (hab : Before a.1 b.1) (hbc : Before b.1 c.1) :
    Above a.1 b.1 := by
  obtain ⟨m, ha, hm⟩ := a.shows
  obtain ⟨n, hb, hn⟩ := b.shows
  obtain ⟨k, hc, hk⟩ := c.shows
  rw [ha.above_iff hb]
  exact Name.isAncestorOf_of_between hm.wellFormed hn.wellFormed hk.wellFormed
    ((ha.above_iff hc).mp h) ((ha.before_iff hb).mp hab) ((hb.before_iff hc).mp hbc)

/-- Ancestry is the order of strict beginnings, and a parent is one element above. It is irreflexive
and transitive and does not tell equal names apart. What lies below a name comes behind it, is the
name joined with what is cut off, and has nothing between it and the name but what lies below the
name as well. -/
theorem above_is_prefix_order :
    (∀ a b : Reached, ∃ above parent, a.1.isAncestorOf b.1 = .ok above ∧
      a.1.isParentOf b.1 = .ok parent ∧
        (above = true ↔ a.1.length < b.1.length ∧ Same (b.1.take a.1.length) a.1) ∧
        (parent = true ↔ above = true ∧ a.1.length + 1 = b.1.length)) ∧
    (∀ a b : Reached, Above a.1 b.1 → Before a.1 b.1 ∧ ∃ rest whole,
      b.1.subName a.1.length = .ok rest ∧ a.1.join rest = .ok whole ∧ Same whole b.1) ∧
    (∀ a : Reached, ¬Above a.1 a.1) ∧
    (∀ a b c : Reached, Above a.1 b.1 → Above b.1 c.1 → Above a.1 c.1) ∧
    (∀ a a' b b' : Reached, Same a.1 a'.1 → Same b.1 b'.1 → (Above a.1 b.1 ↔ Above a'.1 b'.1)) ∧
    (∀ a b c : Reached, Above a.1 c.1 → Before a.1 b.1 → Before b.1 c.1 → Above a.1 b.1) :=
  ⟨isAncestorOf_total, fun _ _ => Above.before_and_rejoins, not_above_self,
    fun _ _ _ => Above.trans, fun _ _ _ _ => above_congr, fun _ _ _ => Above.of_between⟩

/-- Items are ordered by their numbers, so the second item of a list comes between the list and its
tenth item, and lies below the list. -/
theorem above_is_prefix_order_items : Before (adapt "app.items" '.') (adapt "APP.items[2]" '.') ∧
    Before (adapt "APP.items[2]" '.') (adapt "app.i-tems[10].port" '.') ∧
    Above (adapt "app.items" '.') (adapt "APP.items[2]" '.') := by
  have hfirst : Before (adapt "app.items" '.') (adapt "APP.items[2]" '.') := by
    unfold Before
    decide +kernel
  have hsecond : Before (adapt "APP.items[2]" '.') (adapt "app.i-tems[10].port" '.') := by
    unfold Before
    decide +kernel
  have habove : Above (adapt "app.items" '.') (adapt "app.i-tems[10].port" '.') := by
    unfold Above
    decide +kernel
  exact ⟨hfirst, hsecond, above_is_prefix_order.2.2.2.2.2 ⟨_, .adapt "app.items" '.'⟩
    ⟨_, .adapt "APP.items[2]" '.'⟩ ⟨_, .adapt "app.i-tems[10].port" '.'⟩ habove hfirst hsecond⟩

end Window

end TypedConfig
