import TypedConfig.Proofs.Source.Aliases

/-!
# Stacks of views

A view answers lookups, lists names and tells what lies below a name, each on its own. Over entries,
and over each other, the views that filter, relocate and alias keep these answers together: a source
holds a value exactly at the names that it lists (`Source.Lists`), and denies that there is anything
below a name only if it holds nothing there (`Source.Coherent`).

* `Source.Stacked`: what views make of entries.
* `Source.coherent_entries`, `Source.Coherent.filtered`, `Source.Coherent.relocated`,
  `Source.Coherent.aliased`: the answers of each.
* `Source.Stacked.answers_agree`: the answers of every stack.
-/

namespace TypedConfig

theorem Presence.ofBool_eq_absent {found : Bool} : ofBool found = .absent ↔ found = false := by
  cases found <;> simp [ofBool]

namespace Source

/-- What views that filter, relocate and alias make of entries, one on top of the other. -/
inductive Stacked : Source → Prop
  | entries (label : String) {held : Entries} (h : held.Built) : Stacked (.entries label held)
  | filtered {s : Source} {test : Name → Bool} (h : Stacked s)
      (htest : ∀ m n : Name, m.Built → n.Built → (m == n) = true → test m = test n) :
      Stacked (.filtered s test)
  | relocated {s v : Source} {root : String} (h : Stacked s) (hv : s.relocate root = .ok v) :
      Stacked v
  | aliased {s : Source} {table : Aliases} (h : Stacked s) (ht : table.Registered)
      (hu : table.Unambiguous) : Stacked (.aliased s table)

/-- The source lists these names, and holds values there and nowhere else but at the root. -/
structure Lists (s : Source) (names : List Name) : Prop where
  iterable : s.isIterable = true
  listed : s.names? = some names
  built : ∀ n ∈ names, n.Built
  nonempty : ∀ n ∈ names, n.isEmpty = false
  apart : names.Pairwise fun m n => (m == n) = false
  held : ∀ n, n.Built → n.isEmpty = false →
    ((s.get? n).isSome = true ↔ ∃ k ∈ names, k.meaning = n.meaning)

/-- The source lists these names, and holds nothing below a name where it denies that. -/
structure Coherent (s : Source) (names : List Name) : Prop extends s.Lists names where
  absent : ∀ q n, q.Built → n.Built → s.presence q = .absent → q.isAncestorOf n = true →
    s.get? n = none

variable {s : Source} {names : List Name} {test : Name → Bool} {table : Aliases} {root m n q : Name}

/-- Below a name nothing is held if nothing is listed there. -/
theorem Lists.get?_eq_none (h : s.Lists names) (hq : q.Built) (hn : n.Built)
    (hnone : ∀ k ∈ names, q.isAncestorOf k = false) (hanc : q.isAncestorOf n = true) :
    s.get? n = none := by
  rw [← Option.not_isSome_iff_eq_none, h.held n hn (Name.isEmpty_of_isAncestorOf hanc)]
  rintro ⟨k, hk, heq⟩
  have hbelow := Name.isAncestorOf_congr hq.wellFormed (h.built k hk).wellFormed hn.wellFormed heq
  rw [hnone k hk, hanc] at hbelow
  cases hbelow

/-- Names of one meaning are held alike. -/
theorem Lists.isSome_congr (h : s.Lists names) (hm : m.Built) (hn : n.Built)
    (hne : m.isEmpty = false) (heq : m.meaning = n.meaning) :
    (s.get? m).isSome = (s.get? n).isSome := by
  have hne' : n.isEmpty = false := by
    rw [Name.isEmpty_eq_false_iff, ← Name.length_meaning] at hne ⊢
    rwa [← heq]
  rw [Bool.eq_iff_iff, h.held m hm hne, h.held n hn hne', heq]

/-- A source that looks through all its names for one below is right where it denies. -/
theorem Lists.coherent (h : s.Lists names)
    (hpresence : ∀ q, s.presence q = .ofBool (names.any q.isAncestorOf)) : s.Coherent names where
  toLists := h
  absent q n hq hn ha hanc := by
    rw [hpresence, Presence.ofBool_eq_absent, List.any_eq_false] at ha
    exact h.get?_eq_none hq hn (fun k hk => Bool.eq_false_iff.mpr (ha k hk)) hanc

/-! ## Entries -/

theorem lists_entries {held : TypedConfig.Entries} (label : String) (h : held.Built) :
    (entries label held).Lists held.names where
  iterable := rfl
  listed := rfl
  built := h.names
  nonempty n hn := (h.mem_names n hn).2
  apart := h.apart
  held n hn _ := by
    rw [get?, Option.isSome_map]
    exact Entries.find?_isSome h.wellFormed hn.wellFormed

/-- Entries hold what they list, and see all of it. -/
theorem coherent_entries {held : TypedConfig.Entries} (label : String) (h : held.Built) :
    (entries label held).Coherent held.names :=
  (lists_entries label h).coherent fun _ => rfl

/-! ## Filtering -/

theorem isSome_get?_filtered :
    ((filtered s test).get? n).isSome = (test n && (s.get? n).isSome) := by
  rw [get?]
  cases test n <;> rfl

/-- A filtered source that lists its names looks through those that pass. -/
theorem presence_filtered (h : s.names? = some names) (q : Name) :
    (filtered s test).presence q = .ofBool ((names.filter test).any q.isAncestorOf) := by
  rw [presence, h, List.any_filter]
  simp only [Bool.and_comm]

theorem Lists.filtered (h : s.Lists names)
    (htest : ∀ m n : Name, m.Built → n.Built → (m == n) = true → test m = test n) :
    (s.filtered test).Lists (names.filter test) where
  iterable := h.iterable
  listed := by rw [names?, h.listed, Option.map_some]
  built n hn := h.built n (List.mem_of_mem_filter hn)
  nonempty n hn := h.nonempty n (List.mem_of_mem_filter hn)
  apart := h.apart.filter test
  held n hn hne := by
    have hsame : ∀ k ∈ names, k.meaning = n.meaning → test k = test n := fun k hk heq =>
      htest k n (h.built k hk) hn ((Name.beq_iff (h.built k hk).wellFormed hn.wellFormed).mpr heq)
    rw [isSome_get?_filtered, Bool.and_eq_true, h.held n hn hne]
    constructor
    · rintro ⟨ht, k, hk, heq⟩
      exact ⟨k, List.mem_filter.mpr ⟨hk, (hsame k hk heq).trans ht⟩, heq⟩
    · rintro ⟨k, hk, heq⟩
      obtain ⟨hk, ht⟩ := List.mem_filter.mp hk
      exact ⟨(hsame k hk heq).symm.trans ht, k, hk, heq⟩

/-- A filtered source is coherent, if the test sees what the names mean. -/
theorem Coherent.filtered (h : s.Coherent names)
    (htest : ∀ m n : Name, m.Built → n.Built → (m == n) = true → test m = test n) :
    (s.filtered test).Coherent (names.filter test) :=
  (h.toLists.filtered htest).coherent (presence_filtered h.listed)

/-! ## Relocating -/

theorem isSome_get?_relocated :
    ((relocated s root).get? n).isSome = (s.get? (root ++ n)).isSome := by
  rw [get?, Option.isSome_map]

/-- The names that a relocated source lists. -/
def unprefixed (root : Name) (names : List Name) : List Name :=
  (names.filter root.isAncestorOf).map (·.drop root.length)

theorem mem_unprefixed {k : Name} : k ∈ unprefixed root names ↔
    ∃ l ∈ names, root.isAncestorOf l = true ∧ l.drop root.length = k := by
  simp [unprefixed, and_assoc]

/-- A name that means the root with more behind it lies below the root, and what is left of it means
what stood behind. -/
theorem drop_of_meaning_append {l : Name} (hr : root.Built) (hl : l.Built) (hn : n.Built)
    (hne : n.isEmpty = false) (heq : l.meaning = (root ++ n).meaning) :
    root.isAncestorOf l = true ∧ (l.drop root.length).meaning = n.meaning := by
  have hmore : n.elements ≠ [] := by simpa [Name.isEmpty] using hne
  have hanc : root.isAncestorOf l = true := by
    rw [Name.isAncestorOf_congr hr.wellFormed hl.wellFormed (hr.append hn).wellFormed heq]
    exact Name.isAncestorOf_append root hmore
  refine ⟨hanc, ?_⟩
  rw [Name.meaning_of_drop hr.wellFormed hl.wellFormed hanc, Name.meaning_append] at heq
  exact List.append_cancel_left heq

theorem Lists.relocated (h : s.Lists names) (hr : root.Built) :
    (s.relocated root).Lists (unprefixed root names) where
  iterable := h.iterable
  listed := by rw [names?, h.listed, Option.map_some, unprefixed]
  built k hk := by
    obtain ⟨l, hl, -, rfl⟩ := mem_unprefixed.mp hk
    exact .drop (h.built l hl) _
  nonempty k hk := by
    obtain ⟨l, hl, hanc, rfl⟩ := mem_unprefixed.mp hk
    have hlt := ((Name.isAncestorOf_iff hr.wellFormed (h.built l hl).wellFormed).mp hanc).1
    rw [Name.isEmpty_eq_false_iff]
    simp only [Name.length, Name.elements_drop, List.length_drop] at hlt ⊢
    omega
  apart := by
    refine List.pairwise_map.mpr ((h.apart.filter _).imp_of_mem fun {k l} hk hl hne => ?_)
    obtain ⟨hk, hkanc⟩ := List.mem_filter.mp hk
    obtain ⟨hl, hlanc⟩ := List.mem_filter.mp hl
    have hkb := h.built k hk
    have hlb := h.built l hl
    rw [← Bool.not_eq_true, Name.beq_iff hkb.wellFormed hlb.wellFormed] at hne
    rw [← Bool.not_eq_true,
      Name.beq_iff (hkb.drop root.length).wellFormed (hlb.drop root.length).wellFormed]
    intro heq
    rw [Name.meaning_of_drop hr.wellFormed hkb.wellFormed hkanc,
      Name.meaning_of_drop hr.wellFormed hlb.wellFormed hlanc, heq] at hne
    exact hne rfl
  held n hn hne := by
    have hbuilt : (root ++ n).Built := .append hr hn
    have hmore : (root ++ n).isEmpty = false := by
      rw [Name.isEmpty_eq_false_iff] at hne ⊢
      simp only [Name.length, Name.elements_append, List.length_append] at hne ⊢
      omega
    rw [isSome_get?_relocated, h.held _ hbuilt hmore]
    constructor
    · rintro ⟨l, hl, heq⟩
      obtain ⟨hanc, hdrop⟩ := drop_of_meaning_append hr (h.built l hl) hn hne heq
      exact ⟨_, mem_unprefixed.mpr ⟨l, hl, hanc, rfl⟩, hdrop⟩
    · rintro ⟨k, hk, heq⟩
      obtain ⟨l, hl, hanc, rfl⟩ := mem_unprefixed.mp hk
      refine ⟨l, hl, ?_⟩
      rw [Name.meaning_of_drop hr.wellFormed (h.built l hl).wellFormed hanc, heq,
        Name.meaning_append]

/-- A relocated source is coherent. -/
theorem Coherent.relocated (h : s.Coherent names) (hr : root.Built) :
    (s.relocated root).Coherent (unprefixed root names) where
  toLists := h.toLists.relocated hr
  absent q n hq hn ha hanc := by
    rw [← Name.isAncestorOf_append_left root] at hanc
    rw [get?, h.absent (root ++ q) (root ++ n) (.append hr hq) (.append hr hn) ha hanc,
      Option.map_none]

theorem exists_of_relocate {v : Source} {text : String} (h : s.relocate text = .ok v) :
    v = s ∨ ∃ root, Name.parse (Text.trim text) = .ok root ∧ v = s.relocated root := by
  unfold relocate at h
  simp only at h
  split at h
  · cases h
    exact .inl rfl
  · cases hroot : Name.parse (Text.trim text) with
    | error e => rw [hroot] at h; cases h
    | ok root =>
      rw [hroot] at h
      cases h
      exact .inr ⟨root, rfl, rfl⟩

/-! ## Aliases -/

/-- A value is found at a name if it is held there or at another name of the same. -/
theorem isSome_get?_aliased : ((aliased s table).get? n).isSome = true ↔
    (s.get? n).isSome = true ∨ ∃ m ∈ table.others n, (s.get? m).isSome = true := by
  have hcanonical : ((table.canonical? n).bind s.get?).isSome = true ↔
      ∃ m ∈ (table.canonical? n).toList, (s.get? m).isSome = true := by
    cases table.canonical? n <;> simp
  have haliases : ((table.of n).findSome? s.get?).isSome = true ↔
      ∃ m ∈ table.of n, (s.get? m).isSome = true := List.findSome?_isSome_iff
  simp only [Aliases.others, List.mem_append, or_and_right, exists_or, ← hcanonical, ← haliases]
  rw [get?]
  cases s.get? n with
  | some p => simp
  | none =>
    cases (table.canonical? n).bind s.get? with
    | some p => simp
    | none => simp

/-- The names that an aliased source lists. -/
def withOthers (table : Aliases) (names : List Name) : List Name :=
  names ++ TypedConfig.Entries.firstSpellings names (names.flatMap table.others)

/-- Up to spelling, they are the names of the source and those that these are also known by. -/
theorem exists_mem_withOthers (hb : ∀ k ∈ names, k.Built) (ht : table.Regular) :
    (∃ k ∈ withOthers table names, k.meaning = n.meaning) ↔
      (∃ k ∈ names, k.meaning = n.meaning) ∨
        ∃ m ∈ names, ∃ k ∈ table.others m, k.meaning = n.meaning := by
  constructor
  · rintro ⟨k, hk, heq⟩
    rcases List.mem_append.mp hk with hk | hk
    · exact .inl ⟨k, hk, heq⟩
    · obtain ⟨m, hm, hk⟩ := List.mem_flatMap.mp (Entries.mem_of_mem_firstSpellings hk)
      exact .inr ⟨m, hm, k, hk, heq⟩
  · rintro (⟨k, hk, heq⟩ | ⟨m, hm, k, hk, heq⟩)
    · exact ⟨k, List.mem_append_left _ hk, heq⟩
    · have hothers : ∀ l ∈ names.flatMap table.others, l.WellFormed := by
        intro l hl
        obtain ⟨m, hm, hl⟩ := List.mem_flatMap.mp hl
        exact (ht.built_others (hb m hm) hl).wellFormed
      obtain ⟨l, hl, hlk⟩ := Entries.exists_mem_firstSpellings
        (List.mem_flatMap.mpr ⟨m, hm, hk⟩) (fun l hl => (hb l hl).wellFormed) hothers
      exact ⟨l, hl, hlk.trans heq⟩

theorem Lists.aliased (h : s.Lists names) (ht : table.Regular) (hu : table.Unambiguous) :
    (s.aliased table).Lists (withOthers table names) where
  iterable := h.iterable
  listed := by
    rw [names?, h.listed, Option.map_some, Aliases.foldl_addName]
    rfl
  built k hk := by
    rcases List.mem_append.mp hk with hk | hk
    · exact h.built k hk
    · obtain ⟨m, hm, hk⟩ := List.mem_flatMap.mp (Entries.mem_of_mem_firstSpellings hk)
      exact ht.built_others (h.built m hm) hk
  nonempty k hk := by
    rcases List.mem_append.mp hk with hk | hk
    · exact h.nonempty k hk
    · obtain ⟨m, hm, hk⟩ := List.mem_flatMap.mp (Entries.mem_of_mem_firstSpellings hk)
      exact ht.nonempty_others hu (h.built m hm) hk
  apart := Entries.pairwise_firstSpellings h.apart
  held n hn hne := by
    rw [isSome_get?_aliased, exists_mem_withOthers h.built ht, h.held n hn hne]
    refine or_congr_right ⟨?_, ?_⟩
    · rintro ⟨m, hm, hsome⟩
      have hmb := ht.built_others hn hm
      obtain ⟨k, hk, heq⟩ := (h.held m hmb (ht.nonempty_others hu hn hm)).mp hsome
      exact ⟨k, hk, ht.others_mutual hu hn (h.built k hk) hm heq.symm⟩
    · rintro ⟨k, hk, l, hl, heq⟩
      obtain ⟨m, hm, hmk⟩ := ht.others_mutual hu (h.built k hk) hn hl heq
      have hne := ht.nonempty_others hu hn hm
      exact ⟨m, hm, (h.held m (ht.built_others hn hm) hne).mpr ⟨k, hk, hmk.symm⟩⟩

theorem firstSighting_eq_absent {seen : List Presence} :
    firstSighting seen = .absent ↔ ∀ p ∈ seen, p = .absent := by
  induction seen with
  | nil => simp [firstSighting]
  | cons p rest ih => cases p <;> simp [firstSighting, ih]

/-- An aliased source denies only if the source and all aliases do, and no name below is held as
another one. -/
theorem presence_aliased_eq_absent : (aliased s table).presence q = .absent ↔
    s.presence q = .absent ∧ (∀ a ∈ table.of q, s.presence a = .absent) ∧
      seenThroughAlias s.get? table q = false := by
  have hfirst : firstSighting (s.presence q :: (table.of q).map s.presence) = .absent ↔
      s.presence q = .absent ∧ ∀ a ∈ table.of q, s.presence a = .absent := by
    rw [firstSighting_eq_absent, List.forall_mem_cons, List.forall_mem_map]
  rw [← and_assoc, ← hfirst, presence]
  cases firstSighting (s.presence q :: (table.of q).map s.presence) <;>
    simp [Presence.ofBool_eq_absent]

/-- A name below is seen through an alias exactly if a name that it is registered with is held. -/
theorem seenThroughAlias_iff {get? : Name → Option Property} :
    seenThroughAlias get? table q = true ↔ ∃ c a, (c, a) ∈ table.pairs ∧
      (q.isAncestorOf a = true ∧ (get? c).isSome = true ∨
        q.isAncestorOf c = true ∧ (get? a).isSome = true) := by
  simp [seenThroughAlias]

/-- A name below that is held as another one is seen through an alias. -/
theorem seenThroughAlias_of_others (ht : table.Regular) (hq : q.Built) (hn : n.Built)
    (hm : m ∈ table.others n) (hsome : (s.get? m).isSome = true) (hanc : q.isAncestorOf n = true) :
    seenThroughAlias s.get? table q = true := by
  have hbelow : ∀ {k : Name}, k.Built → k.meaning = n.meaning → q.isAncestorOf k = true := by
    intro k hk heq
    rwa [Name.isAncestorOf_congr hq.wellFormed hk.wellFormed hn.wellFormed heq]
  rw [seenThroughAlias_iff]
  rcases ht.pair_of_other hn hm with ⟨c, hp, hc⟩ | ⟨a, hp, ha⟩
  · exact ⟨c, m, hp, .inr ⟨hbelow (ht.built_pairs hp).1 hc, hsome⟩⟩
  · exact ⟨m, a, hp, .inl ⟨hbelow (ht.built_pairs hp).2 ha, hsome⟩⟩

/-- An aliased source is coherent, if no alias stands for two names. -/
theorem Coherent.aliased (h : s.Coherent names) (ht : table.Regular) (hu : table.Unambiguous) :
    (s.aliased table).Coherent (withOthers table names) where
  toLists := h.toLists.aliased ht hu
  absent q n hq hn ha hanc := by
    obtain ⟨hs, -, hseen⟩ := presence_aliased_eq_absent.mp ha
    rw [← Option.not_isSome_iff_eq_none, isSome_get?_aliased]
    rintro (hsome | ⟨m, hm, hsome⟩)
    · rw [h.absent q n hq hn hs hanc] at hsome
      cases hsome
    · rw [seenThroughAlias_of_others ht hq hn hm hsome hanc] at hseen
      cases hseen

/-! ## Stacks -/

/-- Every stack of views is coherent. -/
theorem Stacked.exists_coherent (h : s.Stacked) : ∃ names, s.Coherent names := by
  induction h with
  | entries label hheld => exact ⟨_, coherent_entries label hheld⟩
  | filtered _ htest ih =>
    obtain ⟨names, hs⟩ := ih
    exact ⟨_, hs.filtered htest⟩
  | relocated _ hv ih =>
    obtain ⟨names, hs⟩ := ih
    rcases exists_of_relocate hv with rfl | ⟨root, hroot, rfl⟩
    · exact ⟨names, hs⟩
    · exact ⟨_, hs.relocated (.parse hroot)⟩
  | aliased _ ht hu ih =>
    obtain ⟨names, hs⟩ := ih
    exact ⟨_, hs.aliased ht.regular hu⟩

/-- The answers of every stack of views agree: it lists its names and says so, finds every name that
it lists, lists every name that it finds, no two of them equal, and where it denies that there is
anything below a name it finds nothing there. -/
theorem Stacked.answers_agree (h : s.Stacked) :
    s.isIterable = s.names?.isSome ∧ ∃ names, s.names? = some names ∧
      (∀ n ∈ names, (s.get? n).isSome = true) ∧
      (∀ n : Name, n.Built → n.isEmpty = false → (s.get? n).isSome = true →
        ∃ k ∈ names, (k == n) = true) ∧
      (names.Pairwise fun m n => (m == n) = false) ∧
      ∀ q n : Name, q.Built → n.Built → s.presence q = .absent → q.isAncestorOf n = true →
        s.get? n = none := by
  obtain ⟨names, hs⟩ := h.exists_coherent
  refine ⟨by rw [hs.iterable, hs.listed, Option.isSome_some], names, hs.listed, fun n hn => ?_,
    fun n hn hne hsome => ?_, hs.apart, hs.absent⟩
  · exact (hs.held n (hs.built n hn) (hs.nonempty n hn)).mpr ⟨n, hn, rfl⟩
  · obtain ⟨k, hk, heq⟩ := (hs.held n hn hne).mp hsome
    exact ⟨k, hk, (Name.beq_iff (hs.built k hk).wellFormed hn.wellFormed).mpr heq⟩

/-- A port is held under an alias of its name, in a part of the entries that passes a filter. -/
theorem Stacked.answers_agree_port :
    let held := Entries.ofList [("myApp.http_port", .string "80"),
      ("my-app.log.level.root", .string "info"), ("port", .string "1")]
    let short : Source := .filtered (.entries "test" held) fun n => decide (n.length ≤ 3)
    let view : Source := .relocated short ⟨[⟨.dashed, "my-app"⟩]⟩
    let table : Aliases := [(⟨[⟨.uniform, "server"⟩, ⟨.uniform, "port"⟩]⟩,
      [⟨[⟨.dashed, "http-port"⟩]⟩, ⟨[⟨.uniform, "port"⟩]⟩])]
    let s : Source := .aliased view table
    s.Stacked ∧ s.names?.map (List.map Name.text) = some ["httpport", "server.port"] ∧
      s.isIterable = s.names?.isSome ∧ ∃ names, s.names? = some names ∧
        (∀ n ∈ names, (s.get? n).isSome = true) ∧
        (∀ n : Name, n.Built → n.isEmpty = false → (s.get? n).isSome = true →
          ∃ k ∈ names, (k == n) = true) ∧
        (names.Pairwise fun m n => (m == n) = false) ∧
        ∀ q n : Name, q.Built → n.Built → s.presence q = .absent → q.isAncestorOf n = true →
          s.get? n = none := by
  intro held short view table s
  have htest : ∀ m n : Name, m.Built → n.Built → (m == n) = true →
      decide (m.length ≤ 3) = decide (n.length ≤ 3) := by
    intro m n hm hn heq
    rw [← Name.length_meaning, (Name.beq_iff hm.wellFormed hn.wellFormed).mp heq,
      Name.length_meaning]
  have hview : short.relocate "my-app" = .ok view := rfl
  have htable : Aliases.register [] "server.port" ["http-port", "port"] = .ok table := rfl
  have hs : s.Stacked := .aliased
    (.relocated (.filtered (.entries "test" (.ofList _)) htest) hview) (.register .empty htable)
    ⟨by decide +kernel, by decide +kernel⟩
  exact ⟨hs, by decide +kernel, hs.answers_agree⟩

end Source

end TypedConfig
