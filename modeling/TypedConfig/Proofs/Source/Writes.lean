import Mathlib.Data.List.Induction
import TypedConfig.Proofs.Name.Order
import TypedConfig.Proofs.Source.Entries

/-!
# Entries after a run of changes

What a source in memory holds is decided by the changes that were made to it, however the keys were
spelled: the last change under a name counts, and a name stands where its entry was made.

* `Entries.Stands`: a value was put in under a name, and no later change was under that name.
* `Entries.CreatedAt`: the change at a position made the entry of a name, and none took it out.
* `Entries.find?_after`: what is held under a name is what stands.
* `Entries.names_after`: the names are those whose entries were made, in the order in which they were
  made (`Entries.CreationOrder`).
* `Source.last_change_counts`: the answers of the source after any changes.
-/

namespace TypedConfig

/-- A change to the entries of a source in memory. -/
inductive Change where
  | insert (key : String) (value : Value)
  | remove (key : String)

namespace Change

/-- The name that a change is under. -/
def name : Change → Name
  | insert key _ | remove key => .adapt key '.'

/-- The entry that a change leaves under its name. -/
def entry? : Change → Option Entry
  | insert key value => some ⟨key, value⟩
  | remove _ => none

/-- The entries after a change. -/
def apply (held : Entries) : Change → Entries
  | insert key value => held.insert key value
  | remove key => held.remove key

end Change

namespace Entries

/-- The entries after all the changes to a source that was empty. -/
def after (changes : List Change) : Entries := changes.foldl Change.apply []

/-- A value was put in under a name, and nothing was put in or taken out there later. -/
def Stands (changes : List Change) (q : Name) (entry : Entry) : Prop :=
  ∃ before later, changes = before ++ .insert entry.key entry.value :: later ∧
    (Name.adapt entry.key '.' == q) = true ∧ q.isEmpty = false ∧
    ∀ c ∈ later, (c.name == q) = false

/-- The change at a position put in a value under a name where none stood, and nothing was taken out
there later. -/
def CreatedAt (changes : List Change) (n : Name) (i : Nat) : Prop :=
  ∃ before key value later, changes = before ++ .insert key value :: later ∧ before.length = i ∧
    Name.adapt key '.' = n ∧ n.isEmpty = false ∧ (∀ entry, ¬Stands before n entry) ∧
    ∀ other, .remove other ∈ later → (Name.adapt other '.' == n) = false

variable {held : Entries} {changes before later : List Change} {c : Change} {n q : Name}
  {entry : Entry} {key : String} {value : Value} {i : Nat}

/-! ## One change to well-formed entries -/

theorem find?_insert (h : held.WellFormed) (hn : n.WellFormed) (hq : q.WellFormed) (entry : Entry) :
    Keyed.find? q (Keyed.insert n entry held) =
      if n == q then some entry else Keyed.find? q held := by
  induction held with
  | nil => rfl
  | cons first rest ih =>
    obtain ⟨k, v⟩ := first
    have hk : k.WellFormed := h k (.head _)
    have ih := ih fun l hl => h l (.tail _ hl)
    cases hsame : k == n with
    | true =>
      have hcongr : (k == q) = (n == q) := by
        rw [Bool.eq_iff_iff, Name.beq_iff hk hq, Name.beq_iff hn hq, (Name.beq_iff hk hn).mp hsame]
      simp only [Keyed.insert, hsame, if_true, Keyed.find?, hcongr]
      split <;> rfl
    | false =>
      rw [Keyed.insert, hsame, if_neg Bool.false_ne_true, Keyed.find?, Keyed.find?, ih]
      cases hfound : k == q with
      | false => rfl
      | true =>
        have hother : (n == q) = false := by
          rw [← Bool.not_eq_true, Name.beq_iff hn hq, ← (Name.beq_iff hk hq).mp hfound, eq_comm,
            ← Name.beq_iff hk hn, hsame]
          exact Bool.false_ne_true
        simp only [hother, if_true, Bool.false_eq_true, if_false]

section Erase

variable (h : held.WellFormed) (hapart : held.names.Pairwise fun m n => (m == n) = false)
  (hn : n.WellFormed)

include h hapart hn

/-- Taking out a name leaves the entries of all other names. -/
theorem erase_eq_filter : Keyed.erase n held = held.filter fun entry => !(entry.1 == n) := by
  refine Keyed.erase_eq_filter ((List.pairwise_map.mp hapart).imp_of_mem fun hp hq hdiffer hpn => ?_)
  have hp := h _ (List.mem_map_of_mem hp)
  have hq := h _ (List.mem_map_of_mem hq)
  rw [← Bool.not_eq_true, Name.beq_iff hp hq] at hdiffer
  rw [← Bool.not_eq_true, Name.beq_iff hq hn, ← (Name.beq_iff hp hn).mp hpn]
  exact fun heq => hdiffer heq.symm

theorem find?_erase (hq : q.WellFormed) :
    Keyed.find? q (Keyed.erase n held) = if n == q then none else Keyed.find? q held := by
  rw [erase_eq_filter h hapart hn, Keyed.find?_filter fun k => !(k == n)]
  · rw [Name.beq_comm q n]
    cases n == q <;> rfl
  · intro k hk heq
    have hk := h k hk
    have hsame : (k == n) = (q == n) := by
      rw [Bool.eq_iff_iff, Name.beq_iff hk hn, Name.beq_iff hq hn, (Name.beq_iff hk hq).mp heq]
    rw [hsame]

theorem names_erase : names (Keyed.erase n held) = held.names.filter fun k => !(k == n) := by
  rw [erase_eq_filter h hapart hn, names, names, List.filter_map]
  rfl

end Erase

/-! ## One more change -/

theorem after_concat : after (changes ++ [c]) = c.apply (after changes) := by
  simp [after]

theorem after_append : after (before ++ later) = later.foldl Change.apply (after before) := by
  simp [after]

theorem Built.apply (h : held.Built) (c : Change) : (c.apply held).Built := by
  cases c with
  | insert key value => exact h.insert key value
  | remove key => exact h.remove key

theorem built_after (changes : List Change) : (after changes).Built := by
  induction changes using List.reverseRecOn with
  | nil => exact .empty
  | append_singleton changes c ih => exact after_concat ▸ ih.apply c

/-- Where a list is cut behind its last element, or in front of that. -/
theorem concat_eq_append_cons {α : Type} {l before later : List α} {a b : α} :
    l ++ [a] = before ++ b :: later ↔
      (later = [] ∧ before = l ∧ b = a) ∨ ∃ rest, later = rest ++ [a] ∧ l = before ++ b :: rest := by
  constructor
  · intro h
    rcases List.eq_nil_or_concat later with rfl | ⟨rest, d, rfl⟩
    · obtain ⟨hl, hlast⟩ := List.append_inj' h rfl
      exact .inl ⟨rfl, hl.symm, (List.singleton_inj.mp hlast).symm⟩
    · rw [List.concat_eq_append, ← List.cons_append, ← List.append_assoc] at h
      obtain ⟨hl, hlast⟩ := List.append_inj' h rfl
      exact .inr ⟨rest, by rw [List.concat_eq_append, List.singleton_inj.mp hlast], hl⟩
  · rintro (⟨rfl, rfl, rfl⟩ | ⟨rest, rfl, rfl⟩)
    · rfl
    · simp

theorem stands_concat : Stands (changes ++ [c]) q entry ↔
    q.isEmpty = false ∧ if c.name == q then c.entry? = some entry else Stands changes q entry := by
  have hput : c.entry? = some entry ↔ c = .insert entry.key entry.value := by
    cases c with
    | insert key value =>
      rw [Change.entry?, Option.some.injEq, Change.insert.injEq, Entry.mk.injEq]
    | remove key => exact iff_of_false (Option.some_ne_none entry).symm Change.noConfusion
  rw [hput]
  unfold Stands
  simp only [concat_eq_append_cons]
  constructor
  · rintro ⟨before, later, ⟨rfl, rfl, rfl⟩ | ⟨rest, rfl, hcut⟩, hkey, hne, hlater⟩
    · exact ⟨hne, by rw [if_pos (by exact hkey)]⟩
    · have hc := hlater c (List.mem_append_right _ (List.mem_singleton_self _))
      rw [hc, if_neg Bool.false_ne_true]
      exact ⟨hne, before, rest, hcut, hkey, hne, fun d hd => hlater d (List.mem_append_left _ hd)⟩
  · rintro ⟨hne, h⟩
    split at h
    · rename_i hname
      subst h
      exact ⟨changes, [], .inl ⟨rfl, rfl, rfl⟩, hname, hne, List.forall_mem_nil _⟩
    · rename_i hname
      obtain ⟨before, later, hcut, hkey, -, hlater⟩ := h
      refine ⟨before, later ++ [c], .inr ⟨later, rfl, hcut⟩, hkey, hne, fun d hd => ?_⟩
      rcases List.mem_append.mp hd with hd | hd
      · exact hlater d hd
      · rw [List.mem_singleton.mp hd]
        exact Bool.eq_false_iff.mpr hname

theorem createdAt_concat : CreatedAt (changes ++ [c]) n i ↔
    (CreatedAt changes n i ∧ ∀ other, c = .remove other → (Name.adapt other '.' == n) = false) ∨
      (i = changes.length ∧ n.isEmpty = false ∧ (∀ entry, ¬Stands changes n entry) ∧
        ∃ key value, c = .insert key value ∧ Name.adapt key '.' = n) := by
  unfold CreatedAt
  simp only [concat_eq_append_cons]
  constructor
  · rintro ⟨before, key, value, later, ⟨rfl, rfl, rfl⟩ | ⟨rest, rfl, hcut⟩, hi, hkey, hne, hnew, hkept⟩
    · exact .inr ⟨hi.symm, hne, hnew, key, value, rfl, hkey⟩
    · refine .inl ⟨⟨before, key, value, rest, hcut, hi, hkey, hne, hnew, fun other hother => ?_⟩, ?_⟩
      · exact hkept other (List.mem_append_left _ hother)
      · rintro other rfl
        exact hkept other (List.mem_append_right _ (List.mem_singleton_self _))
  · rintro (⟨⟨before, key, value, later, hcut, hi, hkey, hne, hnew, hkept⟩, hlast⟩ |
      ⟨rfl, hne, hnew, key, value, rfl, hkey⟩)
    · refine ⟨before, key, value, later ++ [c], .inr ⟨later, rfl, hcut⟩, hi, hkey, hne, hnew,
        fun other hother => ?_⟩
      rcases List.mem_append.mp hother with hother | hother
      · exact hkept other hother
      · exact hlast other (List.mem_singleton.mp hother).symm
    · exact ⟨changes, key, value, [], .inl ⟨rfl, rfl, rfl⟩, rfl, hkey, hne, hnew, by simp⟩

theorem CreatedAt.lt_length (h : CreatedAt changes n i) : i < changes.length := by
  obtain ⟨before, key, value, later, rfl, rfl, -⟩ := h
  simp

/-! ## All changes -/

/-- A change leaves what stands under all other names. -/
theorem find?_apply (h : held.Built) (hq : q.WellFormed) (hne : q.isEmpty = false) (c : Change) :
    Keyed.find? q (c.apply held) = if c.name == q then c.entry? else Keyed.find? q held := by
  cases c with
  | insert key value =>
    have hn := Name.adapt_wellFormed key '.'
    show Keyed.find? q (held.insert key value) = if Name.adapt key '.' == q then _ else _
    unfold Entries.insert
    cases hroot : (Name.adapt key '.').isEmpty with
    | true =>
      have hother : (Name.adapt key '.' == q) = false := by
        rw [← Bool.not_eq_true, Name.beq_iff hn hq]
        intro heq
        rw [Name.isEmpty_congr heq, hne] at hroot
        cases hroot
      rw [hother, if_pos hroot, if_neg Bool.false_ne_true]
    | false =>
      simp only [hroot, Bool.false_eq_true, if_false]
      exact find?_insert h.wellFormed hn hq _
  | remove key => exact find?_erase h.wellFormed h.apart (Name.adapt_wellFormed key '.') hq

/-- What is held under a name is what stands there. -/
theorem find?_after (hq : q.WellFormed) :
    Keyed.find? q (after changes) = some entry ↔ Stands changes q entry := by
  cases hne : q.isEmpty with
  | true =>
    constructor
    · intro hfound
      obtain ⟨k, hk, heq⟩ := (find?_isSome (built_after changes).wellFormed hq).mp (hfound ▸ rfl)
      have hroot := ((built_after changes).mem_names k hk).2
      rw [Name.isEmpty_congr heq, hne] at hroot
      cases hroot
    · rintro ⟨before, later, -, -, hne', -⟩
      rw [hne] at hne'
      cases hne'
  | false =>
    induction changes using List.reverseRecOn with
    | nil =>
      constructor
      · rintro ⟨⟩
      · rintro ⟨before, later, hcut, -⟩
        exact absurd hcut.symm (List.append_ne_nil_of_right_ne_nil before (List.cons_ne_nil _ _))
    | append_singleton changes c ih =>
      rw [after_concat, find?_apply (built_after changes) hq hne, stands_concat, and_iff_right hne]
      split
      · rfl
      · exact ih

/-- Nothing is held under a name exactly if nothing stands there. -/
theorem find?_after_eq_none (hq : q.WellFormed) :
    Keyed.find? q (after changes) = none ↔ ∀ entry, ¬Stands changes q entry := by
  simp only [← find?_after hq, Option.eq_none_iff_forall_ne_some, ne_eq]

/-- Putting in a value makes an entry exactly if the key is a name under which none is. -/
theorem names_insert : (held.insert key value).names =
    if (Name.adapt key '.').isEmpty || (Keyed.find? (Name.adapt key '.') held).isSome then held.names
    else held.names ++ [Name.adapt key '.'] := by
  unfold Entries.insert
  cases hroot : (Name.adapt key '.').isEmpty with
  | true => simp [hroot]
  | false =>
    cases hfound : Keyed.find? (Name.adapt key '.') held with
    | some old =>
      have hsame := Keyed.keys_insert_of_isSome (Entry.mk key value)
        (Option.isSome_of_eq_some hfound)
      simpa [hroot, names] using hsame
    | none => simp [hroot, Keyed.insert_of_find?_eq_none _ hfound, names]

/-! ## The order of the names -/

/-- The names are those whose entries were made and not taken out since, in the order in which they
were made. -/
structure CreationOrder (changes : List Change) (names : List Name) : Prop where
  mem : ∀ n, n ∈ names ↔ ∃ i, CreatedAt changes n i
  sorted : names.Pairwise fun m n => ∀ i j, CreatedAt changes m i → CreatedAt changes n j → i < j

variable {names : List Name}

theorem CreationOrder.empty : CreationOrder [] [] where
  mem _ := by
    refine iff_of_false List.not_mem_nil ?_
    rintro ⟨i, h⟩
    exact absurd h.lt_length (Nat.not_lt_zero i)
  sorted := .nil

/-- The names stay in order if entries are taken out. -/
theorem CreationOrder.filter (h : CreationOrder changes names) {later : List Change} {test : Name → Bool}
    (hc : ∀ n i, CreatedAt later n i ↔ CreatedAt changes n i ∧ test n = true) :
    CreationOrder later (names.filter test) where
  mem n := by simp only [List.mem_filter, h.mem, hc, exists_and_right]
  sorted := (h.sorted.filter test).imp fun hlt i j hi hj =>
    hlt i j ((hc _ i).mp hi).1 ((hc _ j).mp hj).1

/-- They stay so if an entry is made last. -/
theorem CreationOrder.concat (h : CreationOrder changes names) (hnew : n ∉ names)
    (hc : ∀ m i, CreatedAt (changes ++ [c]) m i ↔
      CreatedAt changes m i ∨ i = changes.length ∧ m = n) :
    CreationOrder (changes ++ [c]) (names ++ [n]) where
  mem m := by
    simp only [List.mem_append, List.mem_singleton, h.mem, hc, exists_or, exists_eq_left]
  sorted := by
    have hfresh : ∀ i, ¬CreatedAt changes n i := fun i hi => hnew ((h.mem n).mpr ⟨i, hi⟩)
    have hold : ∀ m ∈ names, ∀ i, CreatedAt (changes ++ [c]) m i → CreatedAt changes m i := by
      intro m hm i hi
      rcases (hc m i).mp hi with hi | ⟨-, rfl⟩
      · exact hi
      · exact absurd hm hnew
    refine List.pairwise_append.mpr ⟨h.sorted.imp_of_mem fun {m m'} hm hm' hlt i j hi hj => ?_,
      List.pairwise_singleton _ _, fun m hm m' hm' i j hi hj => ?_⟩
    · exact hlt i j (hold m hm i hi) (hold m' hm' j hj)
    · rw [List.mem_singleton.mp hm'] at hj
      rcases (hc n j).mp hj with hj | ⟨rfl, -⟩
      · exact absurd hj (hfresh j)
      · exact (hold m hm i hi).lt_length

/-- After any changes the names are in the order in which their entries were made. -/
theorem names_after (changes : List Change) : CreationOrder changes (after changes).names := by
  induction changes using List.reverseRecOn with
  | nil => exact .empty
  | append_singleton changes c ih =>
    have hbuilt := built_after changes
    rw [after_concat]
    cases c with
    | remove other =>
      have hnames : ((after changes).remove other).names =
          (after changes).names.filter fun k => !(k == Name.adapt other '.') :=
        names_erase hbuilt.wellFormed hbuilt.apart (Name.adapt_wellFormed other '.')
      show CreationOrder _ ((after changes).remove other).names
      rw [hnames]
      refine ih.filter fun n i => ?_
      rw [createdAt_concat, Name.beq_comm n]
      simp
    | insert key value =>
      have hcreated : ∀ n i, CreatedAt (changes ++ [.insert key value]) n i ↔ CreatedAt changes n i ∨
          i = changes.length ∧ n = Name.adapt key '.' ∧
            ((Name.adapt key '.').isEmpty ||
              (Keyed.find? (Name.adapt key '.') (after changes)).isSome) = false := by
        intro n i
        rw [createdAt_concat]
        simp only [Bool.or_eq_false_iff, Option.isSome_eq_false_iff, Option.isNone_iff_eq_none,
          find?_after_eq_none (Name.adapt_wellFormed key '.')]
        constructor
        · rintro (⟨h, -⟩ | ⟨hi, hne, hnew, key', value', heq, rfl⟩)
          · exact .inl h
          · cases heq
            exact .inr ⟨hi, rfl, hne, hnew⟩
        · rintro (h | ⟨hi, rfl, hne, hnew⟩)
          · exact .inl ⟨h, by simp⟩
          · exact .inr ⟨hi, hne, hnew, key, value, rfl, rfl⟩
      show CreationOrder _ ((after changes).insert key value).names
      rw [names_insert]
      cases hold : (Name.adapt key '.').isEmpty ||
          (Keyed.find? (Name.adapt key '.') (after changes)).isSome with
      | true =>
        have hsame : CreationOrder (changes ++ [.insert key value])
            ((after changes).names.filter fun _ => true) :=
          ih.filter fun n i => by simp [hcreated, hold]
        rwa [List.filter_true] at hsame
      | false =>
        refine ih.concat (fun hmem => ?_) fun m i => by simp only [hcreated, hold, and_true]
        have hnone := (Bool.or_eq_false_iff.mp hold).2
        rw [Option.isSome_eq_false_iff, Option.isNone_iff_eq_none] at hnone
        have hfound := (find?_isSome hbuilt.wellFormed (Name.adapt_wellFormed key '.')).mpr
          ⟨_, hmem, rfl⟩
        rw [hnone] at hfound
        cases hfound

/-- A change under a key that is no name changes nothing. -/
theorem after_of_isEmpty (before later : List Change) (hc : c.name.isEmpty = true) :
    after (before ++ c :: later) = after (before ++ later) := by
  have hbuilt := built_after before
  have hsame : c.apply (after before) = after before := by
    cases c with
    | insert key value => exact if_pos hc
    | remove key =>
      have hn := Name.adapt_wellFormed key '.'
      refine (erase_eq_filter hbuilt.wellFormed hbuilt.apart hn).trans
        (List.filter_eq_self.mpr fun entry hentry => ?_)
      obtain ⟨hk, hne⟩ := hbuilt.mem_names entry.1 (List.mem_map_of_mem hentry)
      rw [Bool.not_eq_true', ← Bool.not_eq_true, Name.beq_iff hk.wellFormed hn]
      intro heq
      rw [Name.isEmpty_congr heq] at hne
      exact Bool.false_ne_true (hne.symm.trans hc)
  rw [after_append, List.foldl_cons, hsame, ← after_append]

end Entries

namespace Source

open Entries (Stands CreationOrder after)

/-- Under each name a source in memory shows the last value that was put in there, with the key as
it was written, unless that was taken out, and taking out gives that value. It lists one name for each
entry, in the order in which the entries were made. Keys without a letter or digit change nothing, and
names that are equal have one hash, so that a table of hashes finds them under each other. -/
theorem last_change_counts (label : String) (changes : List Change) :
    let held := after changes
    let source := entries label held
    (∀ q, q.Built → ∀ p, source.get? q = some p ↔
      ∃ entry, Stands changes q entry ∧ p = ⟨q, entry.value, some s!"{label} [{entry.key}]"⟩) ∧
    (∀ key value, held.value? key = some value ↔
      ∃ entry, Stands changes (.adapt key '.') entry ∧ entry.value = value) ∧
    (∃ names, source.names? = some names ∧ names.length = held.length ∧
      (∀ q, q.Built → ((source.get? q).isSome = true ↔ ∃ n ∈ names, (n == q) = true)) ∧
      names.Pairwise (fun m n => (m == n) = false) ∧ CreationOrder changes names) ∧
    (∀ before c later, changes = before ++ c :: later → c.name.isEmpty = true →
      held = after (before ++ later)) ∧
    ∀ m n : Name, m.Built → n.Built → (m == n) = true → m.hash = n.hash := by
  intro held source
  have hbuilt := Entries.built_after changes
  refine ⟨fun q hq p => ?_, fun key value => ?_, ⟨held.names, rfl, List.length_map _, fun q _ => ?_,
    hbuilt.apart, Entries.names_after changes⟩, ?_, fun m n hm hn heq => ?_⟩
  · simp only [source, get?, Option.map_eq_some_iff, Entries.find?_after hq.wellFormed, held,
      eq_comm (a := p)]
  · simp only [held, Entries.value?, Option.map_eq_some_iff,
      Entries.find?_after (Name.adapt_wellFormed key '.')]
  · rw [get?, Option.isSome_map, Keyed.find?_isSome]
    rfl
  · rintro before c later rfl hc
    exact Entries.after_of_isEmpty before later hc
  · exact Name.hash_congr ((Name.beq_iff hm.wellFormed hn.wellFormed).mp heq)

/-- A key spelled in another way takes the place of the first, and one that was taken out goes to the
end. -/
example :
    (after [.insert "app.maxThreads" (.string "1"), .insert "port" (.string "80"),
      .insert "app.max_threads" (.string "2"), .insert ".." (.string "3"), .remove "app.MAX-THREADS",
      .insert "app.max-threads" (.string "4")]).map (·.2.key) = ["port", "app.max-threads"] := by
  decide +kernel

end Source

end TypedConfig
