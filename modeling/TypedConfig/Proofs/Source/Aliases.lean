import TypedConfig.Proofs.Name.Kept
import TypedConfig.Proofs.Source.Overlay

/-!
# Tables of aliases

A name is looked up in a table both ways: the aliases of a canonical name, and the canonical name
that an alias stands for. If no alias stands for two names, being known by another name is mutual,
whichever way the table is asked (`Aliases.Regular.others_mutual`). A canonical name may be an alias
of another one.

* `Aliases.Registered`: the tables that registering gives.
* `Aliases.Unambiguous`: no alias stands for two names.
* `Aliases.others`: the names that a name is also known by.
-/

namespace TypedConfig.Aliases

variable {table more : Aliases} {a c k m n : Name}

/-- The tables that registering gives. The order of the canonical names does not count. -/
inductive Registered : Aliases → Prop
  | empty : Registered []
  | register {table more : Aliases} {name : String} {aliases : List String}
      (h : Registered table) (hmore : table.register name aliases = .ok more) : Registered more
  | reorder {table other : Aliases} (h : Registered table) (hperm : table.Perm other) :
      Registered other

/-- No name in the table is the root, and no alias stands for two names. -/
structure Unambiguous (table : Aliases) : Prop where
  nonempty : ∀ p ∈ table.pairs, p.1.isEmpty = false ∧ p.2.isEmpty = false
  apart : ∀ p ∈ table.pairs, ∀ q ∈ table.pairs, (p.2 == q.2) = true → (p.1 == q.1) = true

/-- All names can be built, and no two canonical names are equal. -/
structure Regular (table : Aliases) : Prop where
  built : ∀ p ∈ table, p.1.Built ∧ ∀ a ∈ p.2, a.Built
  apart : (table.map (·.1)).Pairwise fun m n => (m == n) = false

/-- The names that a name is also known by. -/
def others (table : Aliases) (n : Name) : List Name := table.of n ++ (table.canonical? n).toList

/-! ## Registering -/

/-- Names with others put in unless they are there. -/
theorem foldl_addName (names more : List Name) :
    more.foldl addName names = names ++ Entries.firstSpellings names more := by
  induction more generalizing names with
  | nil => rw [List.foldl_nil, Entries.firstSpellings, List.append_nil]
  | cons n rest ih =>
    have hany : names.contains n = names.any (· == n) := by
      rw [List.contains_eq_any_beq]
      exact congrArg names.any (funext fun m => Name.beq_comm n m)
    rw [List.foldl_cons, ih, Entries.firstSpellings, addName, hany]
    split
    · rfl
    · rw [List.append_assoc, List.singleton_append]

theorem exists_of_register {name : String} {aliases : List String}
    (h : table.register name aliases = .ok more) :
    ∃ n as, Name.parse name = .ok n ∧ aliases.mapM Name.parse = .ok as ∧ more = table.add n as := by
  unfold register at h
  cases hn : Name.parse name with
  | error e => rw [hn] at h; cases h
  | ok n =>
    cases has : aliases.mapM Name.parse with
    | error e => rw [hn, has] at h; cases h
    | ok as =>
      rw [hn, has] at h
      cases h
      exact ⟨n, as, rfl, rfl, rfl⟩

/-- The aliases of a name stand behind a canonical name that is equal to it. -/
theorem exists_of_mem_of (h : a ∈ table.of n) :
    ∃ c as, (c, as) ∈ table ∧ a ∈ as ∧ (c == n) = true := by
  unfold of at h
  cases hf : Keyed.find? n table with
  | none => rw [hf] at h; cases h
  | some as =>
    rw [hf] at h
    obtain ⟨c, hmem, hc⟩ := Keyed.mem_of_find? hf
    exact ⟨c, as, hmem, h, hc⟩

theorem Regular.add (h : table.Regular) (hn : n.Built) {as : List Name} (has : ∀ a ∈ as, a.Built) :
    (table.add n as).Regular where
  built p hp := by
    have hnew : ∀ a ∈ as.foldl addName (table.of n), a.Built := by
      intro a ha
      rw [foldl_addName] at ha
      rcases List.mem_append.mp ha with ha | ha
      · obtain ⟨c, bs, hmem, hbs, -⟩ := exists_of_mem_of ha
        exact (h.built _ hmem).2 a hbs
      · exact has a (Entries.mem_of_mem_firstSpellings ha)
    constructor
    · rcases Keyed.mem_keys_insert (List.mem_map_of_mem hp) with heq | hkey
      · exact heq ▸ hn
      · obtain ⟨q, hq, heq⟩ := List.mem_map.mp hkey
        exact heq ▸ (h.built q hq).1
    · rcases Keyed.mem_insert hp with heq | hold
      · exact heq ▸ hnew
      · exact (h.built p hold).2
  apart := Keyed.pairwise_keys_insert h.apart _

theorem Registered.regular (h : table.Registered) : table.Regular := by
  induction h with
  | empty => exact ⟨nofun, .nil⟩
  | register _ hmore ih =>
    obtain ⟨n, as, hn, has, rfl⟩ := exists_of_register hmore
    refine ih.add (.parse hn) fun a ha => ?_
    obtain ⟨text, -, htext⟩ := exists_of_mem_mapM has ha
    exact .parse htext
  | reorder _ hperm ih =>
    refine ⟨fun p hp => ih.built p (hperm.mem_iff.mpr hp), ?_⟩
    have hsymm : ∀ {m n : Name}, (m == n) = false → (n == m) = false :=
      fun h => Name.beq_comm .. ▸ h
    exact (hperm.map _).pairwise ih.apart hsymm

/-! ## Looking up both ways -/

theorem mem_pairs : (c, a) ∈ table.pairs ↔ ∃ as, (c, as) ∈ table ∧ a ∈ as := by
  simp [pairs]

namespace Regular

theorem built_pairs (h : table.Regular) (hp : (c, a) ∈ table.pairs) : c.Built ∧ a.Built := by
  obtain ⟨as, hmem, ha⟩ := mem_pairs.mp hp
  exact ⟨(h.built _ hmem).1, (h.built _ hmem).2 a ha⟩

/-- A name is known by the aliases of all canonical names that mean the same. -/
theorem mem_of_iff (h : table.Regular) (hn : n.Built) :
    a ∈ table.of n ↔ ∃ c, (c, a) ∈ table.pairs ∧ c.meaning = n.meaning := by
  constructor
  · intro ha
    obtain ⟨c, as, hmem, has, hc⟩ := exists_of_mem_of ha
    refine ⟨c, mem_pairs.mpr ⟨as, hmem, has⟩, ?_⟩
    exact (Name.beq_iff (h.built _ hmem).1.wellFormed hn.wellFormed).mp hc
  · rintro ⟨c, hp, hc⟩
    obtain ⟨as, hmem, has⟩ := mem_pairs.mp hp
    have hbeq : ∀ {p}, p ∈ table → ((p.1 == n) = true ↔ p.1.meaning = n.meaning) :=
      fun hp => Name.beq_iff (h.built _ hp).1.wellFormed hn.wellFormed
    -- No canonical name in front of this one is equal to the name, else it were equal to this one.
    have hfirst : table.Pairwise fun p q => (q.1 == n) = true → (p.1 == n) = false := by
      refine (List.pairwise_map.mp h.apart).imp_of_mem fun {p q} hp hq hne hqn => ?_
      rw [← Bool.not_eq_true]
      intro hpn
      have heq := ((hbeq hp).mp hpn).trans ((hbeq hq).mp hqn).symm
      rw [(Name.beq_iff (h.built p hp).1.wellFormed (h.built q hq).1.wellFormed).mpr heq] at hne
      cases hne
    rw [of, Keyed.find?_of_pairwise hfirst hmem ((hbeq hmem).mpr hc)]
    exact has

/-- An alias stands for a name that it is registered for. -/
theorem exists_of_canonical? (h : table.Regular) (hn : n.Built) (hc : table.canonical? n = some c) :
    ∃ a, (c, a) ∈ table.pairs ∧ a.meaning = n.meaning := by
  obtain ⟨⟨c, as⟩, hfind, rfl⟩ := Option.map_eq_some_iff.mp hc
  have hmem := List.mem_of_find?_eq_some hfind
  have hany := List.find?_some hfind
  obtain ⟨a, ha, heq⟩ := List.contains_iff_exists_mem_beq.mp hany
  refine ⟨a, mem_pairs.mpr ⟨as, hmem, ha⟩, ?_⟩
  exact ((Name.beq_iff hn.wellFormed ((h.built _ hmem).2 a ha).wellFormed).mp heq).symm

/-- The names that a name is also known by are those that it is registered with. -/
theorem pair_of_other (h : table.Regular) (hn : n.Built) (hm : m ∈ table.others n) :
    (∃ c, (c, m) ∈ table.pairs ∧ c.meaning = n.meaning) ∨
      ∃ a, (m, a) ∈ table.pairs ∧ a.meaning = n.meaning := by
  rcases List.mem_append.mp hm with hm | hm
  · exact .inl ((h.mem_of_iff hn).mp hm)
  · exact .inr (h.exists_of_canonical? hn (Option.mem_toList.mp hm))

theorem built_others (h : table.Regular) (hn : n.Built) (hm : m ∈ table.others n) : m.Built := by
  rcases h.pair_of_other hn hm with ⟨c, hp, -⟩ | ⟨a, hp, -⟩
  · exact (h.built_pairs hp).2
  · exact (h.built_pairs hp).1

theorem nonempty_others (h : table.Regular) (hu : table.Unambiguous) (hn : n.Built)
    (hm : m ∈ table.others n) : m.isEmpty = false := by
  rcases h.pair_of_other hn hm with ⟨c, hp, -⟩ | ⟨a, hp, -⟩
  · exact (hu.nonempty _ hp).2
  · exact (hu.nonempty _ hp).1

/-- A canonical name is known by its alias. -/
theorem others_of_canonical (h : table.Regular) (hn : n.Built) (hp : (c, a) ∈ table.pairs)
    (hc : c.meaning = n.meaning) : a ∈ table.others n :=
  List.mem_append_left _ ((h.mem_of_iff hn).mpr ⟨c, hp, hc⟩)

/-- An alias is known by its canonical name, in some spelling. -/
theorem others_of_alias (h : table.Regular) (hu : table.Unambiguous) (hn : n.Built)
    (hp : (c, a) ∈ table.pairs) (ha : a.meaning = n.meaning) :
    ∃ l ∈ table.others n, l.meaning = c.meaning := by
  have hsome : (table.canonical? n).isSome = true := by
    obtain ⟨as, hmem, has⟩ := mem_pairs.mp hp
    rw [canonical?, Option.isSome_map, List.find?_isSome]
    refine ⟨(c, as), hmem, List.contains_iff_exists_mem_beq.mpr ⟨a, has, ?_⟩⟩
    exact (Name.beq_iff hn.wellFormed (h.built_pairs hp).2.wellFormed).mpr ha.symm
  obtain ⟨d, hd⟩ := Option.isSome_iff_exists.mp hsome
  obtain ⟨b, hpb, hb⟩ := h.exists_of_canonical? hn hd
  obtain ⟨hdb, hbb⟩ := h.built_pairs hpb
  obtain ⟨hcb, hab⟩ := h.built_pairs hp
  -- The name has one canonical name, since both aliases are equal to it.
  have hab : (b == a) = true := (Name.beq_iff hbb.wellFormed hab.wellFormed).mpr (hb.trans ha.symm)
  refine ⟨d, List.mem_append_right _ (Option.mem_toList.mpr hd), ?_⟩
  exact (Name.beq_iff hdb.wellFormed hcb.wellFormed).mp (hu.apart _ hpb _ hp hab)

/-- Being known by another name is mutual. -/
theorem others_mutual (h : table.Regular) (hu : table.Unambiguous) (hk : k.Built) (hn : n.Built)
    (hm : m ∈ table.others k) (heq : m.meaning = n.meaning) :
    ∃ l ∈ table.others n, l.meaning = k.meaning := by
  rcases h.pair_of_other hk hm with ⟨c, hp, hc⟩ | ⟨a, hp, ha⟩
  · obtain ⟨l, hl, hlc⟩ := h.others_of_alias hu hn hp heq
    exact ⟨l, hl, hlc.trans hc⟩
  · exact ⟨a, h.others_of_canonical hn hp heq, ha⟩

end Regular

end TypedConfig.Aliases
