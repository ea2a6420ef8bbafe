import TypedConfig.Proofs.Source.Entries

/-!
# Layers in one

`Entries.overlay` puts layers on top of one another: an entry counts if no earlier layer holds its
name. Looking up and listing below a name see the overlay as they see the layers.

* `Entries.find?_overlay`: the overlay finds what the first layer that holds the name has there.
* `Entries.names_overlay`: it lists each name in its first spelling.
-/

namespace TypedConfig.Entries

/-- The entries with one more, unless its name is held. -/
def addMissing (held : Entries) (entry : Name × Entry) : Entries :=
  if (Keyed.find? entry.1 held).isSome then held else Keyed.insert entry.1 entry.2 held

/-- The entries of layers, put in layer by layer unless their names are held. -/
def overlay (layers : List Entries) : Entries :=
  layers.foldl (fun held layer => layer.foldl addMissing held) []

/-- The names without those that mean the same as one that was there before. -/
def firstSpellings (before : List Name) : List Name → List Name
  | [] => []
  | n :: rest =>
    if before.any (· == n) then firstSpellings before rest
    else n :: firstSpellings (before ++ [n]) rest

variable {held more : Entries} {n : Name}

theorem any_names : held.names.any (· == n) = (Keyed.find? n held).isSome := by
  rw [Bool.eq_iff_iff, Keyed.find?_isSome, List.any_eq_true]
  rfl

theorem addMissing_of_none {entry : Name × Entry} (h : Keyed.find? entry.1 held = none) :
    held.addMissing entry = held ++ [entry] := by
  rw [addMissing, if_neg (by rw [h]; simp), Keyed.insert_of_find?_eq_none _ h]

theorem WellFormed.cons {entry : Name × Entry} (h : WellFormed (entry :: held)) :
    entry.1.WellFormed ∧ held.WellFormed :=
  ⟨h _ (.head _), fun n hn => h n (List.mem_cons_of_mem _ hn)⟩

theorem WellFormed.addMissing {entry : Name × Entry} (h : held.WellFormed)
    (hn : entry.1.WellFormed) : (held.addMissing entry).WellFormed := by
  unfold Entries.addMissing
  split
  · exact h
  · intro n hmem
    rcases Keyed.mem_keys_insert hmem with rfl | hmem
    · exact hn
    · exact h n hmem

theorem WellFormed.foldl_addMissing (h : held.WellFormed) (hm : more.WellFormed) :
    (more.foldl Entries.addMissing held).WellFormed := by
  induction more generalizing held with
  | nil => exact h
  | cons entry rest ih => exact ih (h.addMissing hm.cons.1) hm.cons.2

/-! ## Looking up -/

/-- An entry that was added is found where no other was. -/
theorem find?_addMissing {entry : Name × Entry} (h : held.WellFormed) (he : entry.1.WellFormed)
    (hn : n.WellFormed) :
    Keyed.find? n (held.addMissing entry) = (Keyed.find? n held).or (Keyed.find? n [entry]) := by
  cases hf : Keyed.find? entry.1 held with
  | none => rw [addMissing_of_none hf, Keyed.find?_append]
  | some e =>
    rw [addMissing, if_pos (by rw [hf]; rfl)]
    cases hne : entry.1 == n with
    | false => simp [Keyed.find?, hne]
    | true =>
      have hm := (Name.beq_iff he hn).mp hne
      obtain ⟨k, hk, hkm⟩ := (find?_isSome h he).mp (by rw [hf]; rfl)
      have := (find?_isSome h hn).mpr ⟨k, hk, hkm.trans hm⟩
      obtain ⟨e', he'⟩ := Option.isSome_iff_exists.mp this
      rw [he', Option.some_or]

theorem find?_foldl_addMissing (h : held.WellFormed) (hm : more.WellFormed) (hn : n.WellFormed) :
    Keyed.find? n (more.foldl addMissing held) = (Keyed.find? n held).or (Keyed.find? n more) := by
  induction more generalizing held with
  | nil => simp [Keyed.find?]
  | cons entry rest ih =>
    obtain ⟨he, hr⟩ := hm.cons
    rw [List.foldl_cons, ih (h.addMissing he) hr, find?_addMissing h he hn, Option.or_assoc,
      ← Keyed.find?_append, List.singleton_append]

/-- The overlay finds what the first layer that holds the name has there. -/
theorem find?_overlay {layers : List Entries} (h : ∀ l ∈ layers, l.WellFormed)
    (hn : n.WellFormed) : Keyed.find? n (overlay layers) = layers.findSome? (Keyed.find? n) := by
  suffices hall : ∀ held : Entries, held.WellFormed →
      Keyed.find? n (layers.foldl (fun held layer => layer.foldl addMissing held) held) =
        (Keyed.find? n held).or (layers.findSome? (Keyed.find? n)) by
    have := hall [] fun n hn => by cases hn
    simpa [overlay, Keyed.find?] using this
  induction layers with
  | nil => simp
  | cons layer rest ih =>
    intro held hheld
    have hlayer := h layer (.head _)
    rw [List.foldl_cons, ih (fun l hl => h l (List.mem_cons_of_mem _ hl)) _
      (hheld.foldl_addMissing hlayer), find?_foldl_addMissing hheld hlayer hn, Option.or_assoc,
      List.findSome?_cons]
    cases Keyed.find? n layer <;> rfl

/-! ## Listing -/

theorem firstSpellings_append (before xs ys : List Name) :
    firstSpellings before (xs ++ ys) =
      firstSpellings before xs ++ firstSpellings (before ++ firstSpellings before xs) ys := by
  induction xs generalizing before with
  | nil => simp [firstSpellings]
  | cons x xs ih =>
    simp only [List.cons_append, firstSpellings]
    split
    · exact ih before
    · rw [ih, List.cons_append, List.append_assoc, List.singleton_append]

theorem names_foldl_addMissing (held more : Entries) :
    names (more.foldl addMissing held) = held.names ++ firstSpellings held.names more.names := by
  induction more generalizing held with
  | nil => simp [firstSpellings, names]
  | cons entry rest ih =>
    have hcons : names (entry :: rest) = entry.1 :: names rest := rfl
    rw [List.foldl_cons, ih, hcons, firstSpellings, any_names]
    cases hf : Keyed.find? entry.1 held with
    | some e =>
      rw [addMissing, if_pos (by rw [hf]; rfl), if_pos (by rfl)]
    | none =>
      have happend : names (held ++ [entry]) = held.names ++ [entry.1] := by simp [names]
      rw [addMissing_of_none hf, if_neg (by simp), happend, List.append_assoc,
        List.singleton_append]

/-- The overlay lists each name of the layers once, as it is spelled first. -/
theorem names_overlay (layers : List Entries) :
    (overlay layers).names = firstSpellings [] (layers.flatMap names) := by
  suffices hall : ∀ held : Entries,
      names (layers.foldl (fun held layer => layer.foldl addMissing held) held) =
        held.names ++ firstSpellings held.names (layers.flatMap names) from hall []
  induction layers with
  | nil => simp [firstSpellings]
  | cons layer rest ih =>
    intro held
    rw [List.foldl_cons, ih, names_foldl_addMissing, List.flatMap_cons, firstSpellings_append,
      List.append_assoc]

theorem mem_of_mem_firstSpellings {before xs : List Name} (h : n ∈ firstSpellings before xs) :
    n ∈ xs := by
  induction xs generalizing before with
  | nil => cases h
  | cons x xs ih =>
    unfold firstSpellings at h
    split at h
    · exact List.mem_cons_of_mem _ (ih h)
    · rcases List.mem_cons.mp h with rfl | h
      · exact .head _
      · exact List.mem_cons_of_mem _ (ih h)

/-- No two spellings are equal, if no two names were that were there before. -/
theorem pairwise_firstSpellings {before xs : List Name}
    (hb : before.Pairwise fun m n => (m == n) = false) :
    (before ++ firstSpellings before xs).Pairwise fun m n => (m == n) = false := by
  induction xs generalizing before with
  | nil => rwa [firstSpellings, List.append_nil]
  | cons x xs ih =>
    unfold firstSpellings
    split
    · exact ih hb
    · rename_i hany
      rw [List.append_cons]
      refine ih (List.pairwise_append.mpr ⟨hb, List.pairwise_singleton _ _, fun m hm n hn => ?_⟩)
      rw [List.mem_singleton.mp hn, ← Bool.not_eq_true]
      exact fun heq => hany (List.any_eq_true.mpr ⟨m, hm, heq⟩)

theorem overlay_wellFormed {layers : List Entries} (h : ∀ l ∈ layers, l.WellFormed) :
    (overlay layers).WellFormed := by
  intro n hn
  rw [names_overlay] at hn
  obtain ⟨l, hl, hn⟩ := List.mem_flatMap.mp (mem_of_mem_firstSpellings hn)
  exact h l hl n hn

/-- Every name is listed by the overlay in some spelling. -/
theorem exists_mem_firstSpellings {before xs : List Name} (hx : n ∈ xs)
    (hb : ∀ k ∈ before, k.WellFormed) (hwf : ∀ k ∈ xs, k.WellFormed) :
    ∃ k ∈ before ++ firstSpellings before xs, k.meaning = n.meaning := by
  induction xs generalizing before with
  | nil => cases hx
  | cons x xs ih =>
    have hxs := fun k hk => hwf k (List.mem_cons_of_mem _ hk)
    unfold firstSpellings
    cases hany : before.any (· == x) with
    | true =>
      rw [if_pos rfl]
      rcases List.mem_cons.mp hx with rfl | hx
      · obtain ⟨k, hk, heq⟩ := List.any_eq_true.mp hany
        exact ⟨k, List.mem_append_left _ hk, (Name.beq_iff (hb k hk) (hwf n (.head _))).mp heq⟩
      · exact ih hx hb hxs
    | false =>
      rw [if_neg (by simp), List.append_cons]
      rcases List.mem_cons.mp hx with rfl | hx
      · exact ⟨n, by simp, rfl⟩
      · refine ih hx (fun k hk => ?_) hxs
        rcases List.mem_append.mp hk with hk | hk
        · exact hb k hk
        · rw [List.mem_singleton.mp hk]
          exact hwf x (.head _)

/-- There is something below a name in the overlay exactly if there is in some layer. -/
theorem any_isAncestorOf_overlay {layers : List Entries} (h : ∀ l ∈ layers, l.WellFormed)
    (hn : n.WellFormed) : (overlay layers).names.any n.isAncestorOf =
      layers.any fun l => l.names.any n.isAncestorOf := by
  have hwf : ∀ k ∈ layers.flatMap names, k.WellFormed := by
    intro k hk
    obtain ⟨l, hl, hk⟩ := List.mem_flatMap.mp hk
    exact h l hl k hk
  rw [Bool.eq_iff_iff, List.any_eq_true, List.any_eq_true, names_overlay]
  constructor
  · rintro ⟨k, hk, hanc⟩
    obtain ⟨l, hl, hk⟩ := List.mem_flatMap.mp (mem_of_mem_firstSpellings hk)
    exact ⟨l, hl, List.any_eq_true.mpr ⟨k, hk, hanc⟩⟩
  · rintro ⟨l, hl, hany⟩
    obtain ⟨k, hk, hanc⟩ := List.any_eq_true.mp hany
    have hmem := List.mem_flatMap.mpr ⟨l, hl, hk⟩
    obtain ⟨k', hk', hm⟩ := @exists_mem_firstSpellings k [] _ hmem
      (fun k hk => by cases hk) hwf
    have hk'wf := hwf k' (mem_of_mem_firstSpellings hk')
    exact ⟨k', hk', by rw [Name.isAncestorOf_congr hn hk'wf (hwf k hmem) hm]; exact hanc⟩

end TypedConfig.Entries
