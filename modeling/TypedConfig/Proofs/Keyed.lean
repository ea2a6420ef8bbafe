import TypedConfig.Keyed

/-!
# Lists with one entry for each key: lookups and members

What is found under a key is a member, and the members after putting in or taking out are those
before, apart from the new value. Putting in what is there already changes nothing
(`Keyed.insert_of_find?_eq_some`, `Keyed.insertAll_of_find?`). Pairs put in one after the other replace
values in their places, and the new ones stand behind (`Keyed.insertAll_eq`).
-/

namespace TypedConfig.Keyed

variable {κ α : Type} [BEq κ]

/-! ## Looking up -/

theorem find?_isSome {key : κ} {entries : List (κ × α)} :
    (find? key entries).isSome = true ↔ ∃ k ∈ entries.map (·.1), (k == key) = true := by
  induction entries with
  | nil => simp [find?]
  | cons entry rest ih =>
    obtain ⟨k, v⟩ := entry
    by_cases h : k == key <;> simp [find?, h, ih]

/-- Keys that are equal to the same keys of a list find the same in it. -/
theorem find?_congr {key key' : κ} {entries : List (κ × α)}
    (h : ∀ k ∈ entries.map (·.1), (k == key) = (k == key')) :
    find? key entries = find? key' entries := by
  induction entries with
  | nil => rfl
  | cons entry rest ih =>
    obtain ⟨k, v⟩ := entry
    obtain ⟨hk, hrest⟩ := List.forall_mem_cons.mp h
    simp only [find?, hk, ih hrest]

theorem mem_of_find? {key : κ} {entries : List (κ × α)} {v : α} (h : find? key entries = some v) :
    ∃ k, (k, v) ∈ entries ∧ (k == key) = true := by
  induction entries with
  | nil => cases h
  | cons entry rest ih =>
    obtain ⟨k, w⟩ := entry
    unfold find? at h
    split at h
    · rename_i hk
      cases h
      exact ⟨k, .head _, hk⟩
    · obtain ⟨k', hmem, hk⟩ := ih h
      exact ⟨k', List.mem_cons_of_mem _ hmem, hk⟩

theorem mem_of_find?_eq_some [LawfulBEq κ] {key : κ} {entries : List (κ × α)} {v : α}
    (h : find? key entries = some v) : (key, v) ∈ entries := by
  induction entries with
  | nil => cases h
  | cons entry rest ih =>
    obtain ⟨k, w⟩ := entry
    unfold find? at h
    split at h
    · rename_i hk
      cases h
      rw [beq_iff_eq.mp hk]
      exact .head _
    · exact List.mem_cons_of_mem _ (ih h)

/-- A member is found under a key that is equal to its own, and to none in front of it. -/
theorem find?_of_pairwise {key : κ} {entries : List (κ × α)} {e : κ × α}
    (h : entries.Pairwise fun p q => (q.1 == key) = true → (p.1 == key) = false) (he : e ∈ entries)
    (hk : (e.1 == key) = true) : find? key entries = some e.2 := by
  induction entries with
  | nil => cases he
  | cons entry rest ih =>
    obtain ⟨hentry, hrest⟩ := List.pairwise_cons.mp h
    rcases List.mem_cons.mp he with rfl | he
    · simp [find?, hk]
    · rw [find?, hentry e he hk]
      exact ih hrest he

/-- Where no key repeats, every member is found. -/
theorem find?_of_mem [LawfulBEq κ] {entries : List (κ × α)} {e : κ × α}
    (hn : (entries.map (·.1)).Nodup) (h : e ∈ entries) : find? e.1 entries = some e.2 := by
  refine find?_of_pairwise ((List.pairwise_map.mp hn).imp fun hne hq => ?_) h BEq.rfl
  rw [beq_eq_false_iff_ne, ← beq_iff_eq.mp hq]
  exact hne

/-- The order of entries makes no difference to what is found, where no key repeats. -/
theorem find?_of_perm [LawfulBEq κ] {key : κ} {entries entries' : List (κ × α)} {v : α}
    (hn : (entries'.map (·.1)).Nodup) (hperm : entries.Perm entries') :
    find? key entries = some v ↔ find? key entries' = some v := by
  have hn' : (entries.map (·.1)).Nodup := (hperm.map _).nodup_iff.mpr hn
  constructor
  · exact fun h => find?_of_mem hn (hperm.mem_iff.mp (mem_of_find?_eq_some h))
  · exact fun h => find?_of_mem hn' (hperm.mem_iff.mpr (mem_of_find?_eq_some h))

theorem find?_append (key : κ) (entries more : List (κ × α)) :
    find? key (entries ++ more) = (find? key entries).or (find? key more) := by
  induction entries with
  | nil => simp [find?]
  | cons entry rest ih =>
    obtain ⟨k, v⟩ := entry
    by_cases h : k == key <;> simp [find?, h, ih]

/-- Among the entries whose keys pass a test, a key is found if it passes too, where the test sees no
difference between it and the keys that are equal to it. -/
theorem find?_filter {key : κ} {entries : List (κ × α)} (test : κ → Bool)
    (h : ∀ k ∈ entries.map (·.1), (k == key) = true → test k = test key) :
    find? key (entries.filter fun entry => test entry.1) =
      if test key then find? key entries else none := by
  induction entries with
  | nil => simp [find?]
  | cons entry rest ih =>
    obtain ⟨k, v⟩ := entry
    obtain ⟨hk, hrest⟩ := List.forall_mem_cons.mp h
    have ih := ih hrest
    by_cases heq : k == key
    · have hsame := hk heq
      cases htest : test key <;> simp_all [find?]
    · cases htest : test k <;> simp_all [find?]

/-- Under new keys the same is found, if they are equal to a new key where the old were to the old. -/
theorem find?_map_keys {κ' : Type} [BEq κ'] {key : κ} {key' : κ'} {entries : List (κ × α)}
    (rename : κ → κ') (h : ∀ k ∈ entries.map (·.1), (rename k == key') = (k == key)) :
    find? key' (entries.map fun entry => (rename entry.1, entry.2)) = find? key entries := by
  induction entries with
  | nil => rfl
  | cons entry rest ih =>
    obtain ⟨hk, hrest⟩ := List.forall_mem_cons.mp h
    simp only [List.map_cons, find?, hk, ih hrest]

theorem find?_map_values {β : Type} (f : α → β) (key : κ) (entries : List (κ × α)) :
    find? key (entries.map fun e => (e.1, f e.2)) = (find? key entries).map f := by
  induction entries with
  | nil => rfl
  | cons entry rest ih =>
    obtain ⟨k, v⟩ := entry
    by_cases h : k == key <;> simp [find?, h, ih]

/-! ## Putting in and taking out -/

/-- A key that is not there is put at the end. -/
theorem insert_of_find?_eq_none {key : κ} {entries : List (κ × α)} (value : α)
    (h : find? key entries = none) : insert key value entries = entries ++ [(key, value)] := by
  induction entries with
  | nil => rfl
  | cons entry rest ih =>
    obtain ⟨k, v⟩ := entry
    by_cases hk : k == key
    · simp [find?, hk] at h
    · have h : find? key rest = none := by simpa [find?, hk] using h
      simp [insert, hk, ih h]

theorem find?_insert_of_ne [LawfulBEq κ] {key other : κ} (h : key ≠ other) (value : α)
    (entries : List (κ × α)) : find? other (insert key value entries) = find? other entries :=
  find?_insert_ne value entries (beq_eq_false_iff_ne.mpr h)

theorem mem_keys_insert {key : κ} {value : α} {entries : List (κ × α)} {k : κ}
    (h : k ∈ (insert key value entries).map (·.1)) : k = key ∨ k ∈ entries.map (·.1) := by
  induction entries with
  | nil => exact .inl (by simpa [insert] using h)
  | cons entry rest ih =>
    obtain ⟨k', v⟩ := entry
    unfold insert at h
    split at h
    · exact .inr h
    · rcases List.mem_cons.mp h with h | h
      · exact .inr (List.mem_cons.mpr (.inl h))
      · exact (ih h).imp_right fun h => List.mem_cons.mpr (.inr h)

/-- Taking out leaves the others where they are. -/
theorem erase_sublist (key : κ) (entries : List (κ × α)) : (erase key entries).Sublist entries := by
  induction entries with
  | nil => exact .slnil
  | cons entry rest ih =>
    obtain ⟨k, v⟩ := entry
    unfold erase
    split
    · exact .cons _ (.refl _)
    · exact .cons_cons _ ih

/-- Where no two keys are equal to a third, taking that out is leaving out all keys equal to it. -/
theorem erase_eq_filter {key : κ} {entries : List (κ × α)}
    (h : entries.Pairwise fun p q => (p.1 == key) = true → (q.1 == key) = false) :
    erase key entries = entries.filter fun entry => !(entry.1 == key) := by
  induction entries with
  | nil => rfl
  | cons entry rest ih =>
    obtain ⟨k, v⟩ := entry
    obtain ⟨hk, hrest⟩ := List.pairwise_cons.mp h
    cases heq : k == key with
    | true =>
      have hall : rest.filter (fun entry => !(entry.1 == key)) = rest :=
        List.filter_eq_self.mpr fun e he => by rw [hk e he heq, Bool.not_false]
      rw [erase, heq, if_pos rfl, List.filter_cons_of_neg (by simp [heq]), hall]
    | false =>
      rw [erase, heq, if_neg Bool.false_ne_true, List.filter_cons_of_pos (by simp [heq]), ih hrest]

/-- Under a key that is there, putting in leaves the keys as they are. -/
theorem keys_insert_of_isSome {key : κ} {entries : List (κ × α)} (value : α)
    (h : (find? key entries).isSome = true) :
    (insert key value entries).map (·.1) = entries.map (·.1) := by
  induction entries with
  | nil => cases h
  | cons entry rest ih =>
    obtain ⟨k, v⟩ := entry
    by_cases hk : k == key
    · simp [insert, hk]
    · have h : (find? key rest).isSome = true := by simpa [find?, hk] using h
      simp [insert, hk, ih h]

/-- No two keys are equal, if no two were before. -/
theorem pairwise_keys_insert {key : κ} {entries : List (κ × α)}
    (h : (entries.map (·.1)).Pairwise fun k l => (k == l) = false) (value : α) :
    ((insert key value entries).map (·.1)).Pairwise fun k l => (k == l) = false := by
  cases hf : find? key entries with
  | some v => rwa [keys_insert_of_isSome value (hf ▸ rfl)]
  | none =>
    rw [insert_of_find?_eq_none value hf, List.map_append]
    refine List.pairwise_append.mpr ⟨h, List.pairwise_singleton _ _, fun k hk l hl => ?_⟩
    rw [List.mem_singleton.mp hl, ← Bool.not_eq_true]
    intro heq
    have hsome := find?_isSome.mpr ⟨k, hk, heq⟩
    rw [hf] at hsome
    cases hsome

theorem mem_insert {key : κ} {value : α} {entries : List (κ × α)}
    {e : κ × α} (h : e ∈ insert key value entries) : e.2 = value ∨ e ∈ entries := by
  induction entries with
  | nil => exact .inl (by rw [List.mem_singleton.mp h])
  | cons entry rest ih =>
    obtain ⟨k, v⟩ := entry
    unfold insert at h
    split at h
    · rcases List.mem_cons.mp h with rfl | h
      · exact .inl rfl
      · exact .inr (List.mem_cons_of_mem _ h)
    · rcases List.mem_cons.mp h with rfl | h
      · exact .inr (.head _)
      · exact (ih h).imp_right (List.mem_cons_of_mem _)

theorem mem_insertAll {entries new : List (κ × α)} {e : κ × α}
    (h : e ∈ insertAll entries new) : e ∈ entries ∨ ∃ n ∈ new, e.2 = n.2 := by
  unfold insertAll at h
  induction new generalizing entries with
  | nil => exact .inl h
  | cons pair rest ih =>
    rcases ih h with h | ⟨n, hn, heq⟩
    · rcases mem_insert h with h | h
      · exact .inr ⟨pair, .head _, h⟩
      · exact .inl h
    · exact .inr ⟨n, List.mem_cons_of_mem _ hn, heq⟩

theorem nodup_keys_insert [LawfulBEq κ] {key : κ} {entries : List (κ × α)}
    (h : (entries.map (·.1)).Nodup) (value : α) : ((insert key value entries).map (·.1)).Nodup := by
  have hapart : (entries.map (·.1)).Pairwise fun k l => (k == l) = false :=
    h.imp fun hne => beq_eq_false_iff_ne.mpr hne
  exact (pairwise_keys_insert hapart value).imp fun hne => beq_eq_false_iff_ne.mp hne

/-- Under a key that is there, putting in changes its value only. -/
theorem insert_eq_map [LawfulBEq κ] {key : κ} {entries : List (κ × α)}
    (hn : (entries.map (·.1)).Nodup) (h : (find? key entries).isSome = true) (value : α) :
    insert key value entries = entries.map fun e => (e.1, if e.1 == key then value else e.2) := by
  induction entries with
  | nil => cases h
  | cons entry rest ih =>
    obtain ⟨k, v⟩ := entry
    obtain ⟨hk, hrest⟩ := List.nodup_cons.mp hn
    by_cases heq : k == key
    · have hsame : rest.map (fun e => (e.1, if e.1 == key then value else e.2)) = rest := by
        refine (List.map_congr_left fun e he => ?_).trans (List.map_id rest)
        have hne : e.1 ≠ key := by
          rintro rfl
          exact hk (List.mem_map.mpr ⟨e, he, (beq_iff_eq.mp heq).symm⟩)
        simp [hne]
      rw [insert, if_pos heq, List.map_cons, hsame, if_pos heq]
    · have h : (find? key rest).isSome = true := by simpa [find?, heq] using h
      rw [insert, if_neg heq, List.map_cons, if_neg heq, ih hrest h]

/-- Putting in pairs one after the other: those that are there take the new values where there are any,
and the pairs with new keys stand behind them. -/
theorem insertAll_eq [LawfulBEq κ] {entries new : List (κ × α)} (hn : (entries.map (·.1)).Nodup)
    (hnew : (new.map (·.1)).Nodup) :
    insertAll entries new = entries.map (fun e => (e.1, (find? e.1 new).getD e.2)) ++
      new.filter fun e => (find? e.1 entries).isNone := by
  induction new generalizing entries with
  | nil => simp [insertAll, find?]
  | cons pair rest ih =>
    obtain ⟨k, v⟩ := pair
    obtain ⟨hk, hrest⟩ := List.nodup_cons.mp hnew
    have hstep : insertAll entries ((k, v) :: rest) = insertAll (insert k v entries) rest := rfl
    have hkrest : find? k rest = none := by
      rw [← Option.not_isSome_iff_eq_none, find?_isSome]
      rintro ⟨k', hk', heq⟩
      exact hk (beq_iff_eq.mp heq ▸ hk')
    have hfilter : (rest.filter fun e => (find? e.1 (insert k v entries)).isNone) =
        rest.filter fun e => (find? e.1 entries).isNone := by
      refine List.filter_congr fun e he => ?_
      have hne : k ≠ e.1 := fun h => hk (List.mem_map.mpr ⟨e, he, h.symm⟩)
      rw [find?_insert_of_ne hne]
    rw [hstep, ih (nodup_keys_insert hn v) hrest, hfilter]
    cases hf : find? k entries with
    | some w =>
      rw [insert_eq_map hn (hf ▸ rfl), List.map_map, List.filter_cons_of_neg (by simp [hf])]
      refine congrArg (· ++ _) (List.map_congr_left fun e _ => Prod.ext rfl ?_)
      by_cases heq : e.1 = k
      · simp [heq, find?, hkrest]
      · simp [heq, find?, Ne.symm heq]
    | none =>
      have hvalues : entries.map (fun e => (e.1, (find? e.1 rest).getD e.2)) =
          entries.map fun e => (e.1, (find? e.1 ((k, v) :: rest)).getD e.2) := by
        refine List.map_congr_left fun e he => Prod.ext rfl ?_
        have hne : k ≠ e.1 := by
          rintro rfl
          rw [find?_of_mem hn he] at hf
          cases hf
        simp [find?, hne]
      rw [insert_of_find?_eq_none v hf, List.map_append, List.append_assoc, hvalues,
        List.filter_cons_of_pos (by simp [hf])]
      simp [hkrest]

/-- Pairs of which no key repeats are held as they come. -/
theorem ofList_eq_self [LawfulBEq κ] {pairs : List (κ × α)} (h : (pairs.map (·.1)).Nodup) :
    ofList pairs = pairs := by
  have hempty : (([] : List (κ × α)).map (·.1)).Nodup := List.nodup_nil
  rw [ofList, insertAll_eq hempty h]
  simp [find?]

end TypedConfig.Keyed
