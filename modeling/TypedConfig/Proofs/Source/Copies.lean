import TypedConfig.Proofs.Source.Sightings

/-!
# Copies of views

Views that only filter and relocate show entries of a source in memory, some of them and without what
stands in front of their names. Nothing tells such a view from a list of these entries.

* `Source.Narrowed`: what such views make of entries.
* `Source.copied`: the entries that they show, in order.
* `Source.CopiedAs`: all answers are those of a list. Entries answer so, and if a source does, so do
  the views of it (`CopiedAs.filtered`, `CopiedAs.relocated`).
* `Source.Narrowed.answers_as_copy`: the answers of every stack of such views.
-/

namespace TypedConfig

namespace Entries

/-- What lies below a name, without that name in front. -/
def below (held : Entries) (root : Name) : Entries :=
  (held.filter fun entry => root.isAncestorOf entry.1).map fun entry =>
    (entry.1.drop root.length, entry.2)

variable {held : Entries} {root n : Name}

theorem names_below : (held.below root).names = Source.unprefixed root held.names := by
  unfold below names Source.unprefixed
  rw [List.filter_map, List.map_map, List.map_map]
  rfl

/-- A name is found there if it is held behind that name. -/
theorem find?_below (hb : ∀ k ∈ held.names, k.Built) (hr : root.Built) (hn : n.Built)
    (hne : n.isEmpty = false) : Keyed.find? n (held.below root) = Keyed.find? (root ++ n) held := by
  have hjoined : (root ++ n).Built := hr.append hn
  have hanc : ∀ k ∈ held.names, (k == root ++ n) = true → root.isAncestorOf k = true := by
    intro k hk heq
    exact (Source.drop_of_meaning_append hr (hb k hk) hn hne
      ((Name.beq_iff (hb k hk).wellFormed hjoined.wellFormed).mp heq)).1
  have hself : root.isAncestorOf (root ++ n) = true :=
    Name.isAncestorOf_append root (by simpa [Name.isEmpty] using hne)
  calc Keyed.find? n (held.below root)
      = Keyed.find? (root ++ n) (held.filter fun entry => root.isAncestorOf entry.1) := by
        refine Keyed.find?_map_keys (fun k : Name => k.drop root.length) fun k hk => ?_
        obtain ⟨entry, hentry, rfl⟩ := List.mem_map.mp hk
        obtain ⟨hentry, hbelow⟩ := List.mem_filter.mp hentry
        have hk := hb entry.1 (List.mem_map_of_mem hentry)
        rw [Bool.eq_iff_iff, Name.beq_iff (hk.drop _).wellFormed hn.wellFormed,
          Name.beq_iff hk.wellFormed hjoined.wellFormed,
          Name.meaning_of_drop hr.wellFormed hk.wellFormed hbelow, Name.meaning_append,
          List.append_cancel_left_eq]
    _ = Keyed.find? (root ++ n) held := by
        rw [Keyed.find?_filter root.isAncestorOf fun k hk heq => (hanc k hk heq).trans hself.symm,
          if_pos hself]

end Entries

namespace Source

/-- What views that filter and relocate make of entries, one on top of the other. -/
inductive Narrowed : Source → Prop
  | entries (label : String) {held : Entries} (h : held.Built) : Narrowed (.entries label held)
  | filtered {s : Source} {test : Name → Bool} (h : Narrowed s)
      (htest : ∀ m n : Name, m.Built → n.Built → (m == n) = true → test m = test n) :
      Narrowed (.filtered s test)
  | relocated {s v : Source} {root : String} (h : Narrowed s) (hv : s.relocate root = .ok v) :
      Narrowed v

/-- The entries that a view shows, in order: those that pass its test, or those below its root without
the root in front. -/
def copied : Source → TypedConfig.Entries
  | entries _ held => held
  | filtered of test => of.copied.filter fun entry => test entry.1
  | relocated of root => of.copied.below root
  | aliased _ _ | lookupOnly _ | unlisted _ | shallow _ | recorded _ | hollow _ | given _ => []

/-- The source answers as the entries do. -/
structure CopiedAs (s : Source) (held : TypedConfig.Entries) : Prop where
  built : ∀ k ∈ held.names, k.Built
  get? : ∀ n, n.Built → n.isEmpty = false → s.get? n =
    (Keyed.find? n held).map fun entry => ⟨n, entry.value, some s!"{s.label} [{entry.key}]"⟩
  listed : s.names? = some held.names
  presence : ∀ q, q.Built → s.presence q = .ofBool (held.names.any q.isAncestorOf)

variable {s : Source} {held : TypedConfig.Entries} {test : Name → Bool} {root : Name}

theorem copiedAs_entries (label : String) (h : held.Built) : (entries label held).CopiedAs held where
  built := h.names
  get? _ _ _ := rfl
  listed := rfl
  presence _ _ := rfl

theorem CopiedAs.filtered (h : s.CopiedAs held)
    (htest : ∀ m n : Name, m.Built → n.Built → (m == n) = true → test m = test n) :
    (s.filtered test).CopiedAs (held.filter fun entry => test entry.1) where
  built k hk := h.built k ((List.filter_sublist.map _).mem hk)
  get? n hn hne := by
    rw [Source.get?, h.get? n hn hne,
      Keyed.find?_filter test fun k hk heq => htest k n (h.built k hk) hn heq]
    cases test n <;> rfl
  listed := by
    rw [names?, h.listed, Option.map_some, Entries.names, Entries.names, List.filter_map]
    rfl
  presence q _ := by
    rw [presence_filtered h.listed, Entries.names, Entries.names, List.filter_map]
    rfl

theorem CopiedAs.relocated (h : s.CopiedAs held) (hr : root.Built) :
    (s.relocated root).CopiedAs (held.below root) where
  built k hk := by
    rw [Entries.names_below, mem_unprefixed] at hk
    obtain ⟨l, hl, -, rfl⟩ := hk
    exact .drop (h.built l hl) _
  get? n hn hne := by
    have hmore : (root ++ n).isEmpty = false := by
      rw [Name.isEmpty_eq_false_iff] at hne ⊢
      simp only [Name.length, Name.elements_append, List.length_append] at hne ⊢
      omega
    rw [Source.get?, h.get? (root ++ n) (hr.append hn) hmore, Entries.find?_below h.built hr hn hne,
      Option.map_map]
    rfl
  listed := by rw [names?, h.listed, Option.map_some, Entries.names_below, unprefixed]
  presence q hq := by
    rw [Source.presence, h.presence (root ++ q) (hr.append hq), Entries.names_below]
    congr 1
    rw [Bool.eq_iff_iff, List.any_eq_true, List.any_eq_true, exists_mem_unprefixed h.built hr hq]

theorem Narrowed.copiedAs (h : s.Narrowed) : s.CopiedAs s.copied := by
  induction h with
  | entries label hheld => exact copiedAs_entries label hheld
  | filtered _ htest ih => exact ih.filtered htest
  | relocated _ hv ih =>
    rcases exists_of_relocate hv with rfl | ⟨root, hroot, rfl⟩
    · exact ih
    · exact ih.relocated (.parse hroot)

/-- What is shown are entries of the source at the bottom, in its order, with the keys and values that
they have there. -/
theorem Narrowed.exists_sublist (h : s.Narrowed) :
    ∃ held, s.entries? = some held ∧ (s.copied.map (·.2)).Sublist (held.map (·.2)) := by
  induction h with
  | entries label _ => exact ⟨_, rfl, .refl _⟩
  | filtered _ _ ih =>
    obtain ⟨held, hheld, hsub⟩ := ih
    exact ⟨held, hheld, (List.filter_sublist.map _).trans hsub⟩
  | relocated _ hv ih =>
    obtain ⟨held, hheld, hsub⟩ := ih
    rcases exists_of_relocate hv with rfl | ⟨root, -, rfl⟩
    · exact ⟨held, hheld, hsub⟩
    · refine ⟨held, hheld, .trans ?_ hsub⟩
      rw [copied, Entries.below, List.map_map]
      exact List.filter_sublist.map _

/-- A stack of views that filter and relocate cannot be told from the list of the entries that it
shows: it finds the first of a name, with the place that it came from, lists their names, and sees
something below a name exactly if one of them is there. -/
theorem Narrowed.answers_as_copy (h : s.Narrowed) :
    (∀ n, n.Built → n.isEmpty = false → s.get? n = (Keyed.find? n s.copied).map fun entry =>
      ⟨n, entry.value, some s!"{s.label} [{entry.key}]"⟩) ∧
    s.names? = some (s.copied.map (·.1)) ∧
    (∀ q, q.Built →
      (s.presence q = .present ↔ ∃ entry ∈ s.copied, q.isAncestorOf entry.1 = true) ∧
      (s.presence q = .absent ↔ ¬∃ entry ∈ s.copied, q.isAncestorOf entry.1 = true)) ∧
    ∃ held, s.entries? = some held ∧ (s.copied.map (·.2)).Sublist (held.map (·.2)) := by
  have hcopy := h.copiedAs
  refine ⟨hcopy.get?, hcopy.listed, fun q hq => ?_, h.exists_sublist⟩
  rw [hcopy.presence q hq, Presence.ofBool_eq_present, Presence.ofBool_eq_absent,
    ← Bool.not_eq_true, Entries.names, List.any_map, List.any_eq_true]
  exact ⟨.rfl, .rfl⟩

/-- Of what is held at and below a prefix, a view of short names shows what is directly below. -/
theorem Narrowed.answers_as_copy_name :
    let held := Entries.ofList [("my.app", .string "x"), ("other", .string "y"),
      ("my.app.name", .string "demo"), ("my.app.ports[0]", .string "80")]
    let root : Name := ⟨[⟨.uniform, "my"⟩, ⟨.uniform, "app"⟩]⟩
    let s : Source := .filtered (.relocated (.entries "test" held) root) fun n => n.length ≤ 1
    s.Narrowed ∧ s.copied.map (·.2.key) = ["my.app.name"] ∧
      s.names? = some (s.copied.map (·.1)) := by
  intro held root s
  have hview : (Source.entries "test" held).relocate "my.app" =
      .ok (.relocated (.entries "test" held) root) := rfl
  have hs : s.Narrowed := by
    refine .filtered (.relocated (.entries "test" (.ofList _)) hview) fun m n hm hn heq => ?_
    have hmeaning := (Name.beq_iff hm.wellFormed hn.wellFormed).mp heq
    rw [← Name.length_meaning m, hmeaning, Name.length_meaning]
  exact ⟨hs, by decide +kernel, hs.answers_as_copy.2.1⟩

end Source

end TypedConfig
