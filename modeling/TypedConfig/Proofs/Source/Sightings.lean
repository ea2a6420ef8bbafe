import TypedConfig.Proofs.Source.Views

/-!
# What is seen below a name

A stack of views over entries knows of each name whether there is anything below it. It sees what
it lists there, and no more than that but for one thing: an aliased source also asks what lies below
the aliases of a name, while it finds and lists nothing under the name for what lies below its
aliases.

* `Source.Misled`: a view of the stack was misled by an alias.
* `Source.Sees`: what a source sees below a name.
* `Source.Stacked.present_iff`: what every stack sees. It may see what is not there
  (`Source.present_of_misled`).
-/

namespace TypedConfig

theorem Presence.ofBool_eq_present {found : Bool} : ofBool found = .present ↔ found = true := by
  cases found <;> simp [ofBool]

namespace Source

/-- A view of the source takes what is listed below an alias of the name for something below the
name. -/
inductive Misled : Source → Name → Prop
  | byAlias {s : Source} {table : Aliases} {q a n : Name} (ha : a ∈ table.of q)
      (hn : n ∈ s.names?.getD []) (hanc : a.isAncestorOf n = true) : Misled (.aliased s table) q
  | byAliases {s : Source} {table : Aliases} {q a : Name} (ha : a ∈ table.of q)
      (h : Misled s a) : Misled (.aliased s table) q
  | aliased {s : Source} {table : Aliases} {q : Name} (h : Misled s q) :
      Misled (.aliased s table) q
  | relocated {s : Source} {root q : Name} (h : Misled s (root ++ q)) :
      Misled (.relocated s root) q

/-- The source knows of each name whether there is anything below it, and sees there what it lists,
unless it is misled. -/
structure Sees (s : Source) (names : List Name) : Prop where
  known : ∀ q, s.presence q ≠ .unknown
  seen : ∀ q, q.Built →
    (s.presence q = .present ↔ (∃ n ∈ names, q.isAncestorOf n = true) ∨ s.Misled q)

variable {s : Source} {names : List Name} {table : Aliases} {root n q : Name}

/-- A source that looks through all its names for one below sees what it lists. -/
theorem sees_of_presence (hpresence : ∀ q, s.presence q = .ofBool (names.any q.isAncestorOf))
    (hclear : ∀ q, ¬s.Misled q) : s.Sees names where
  known q := by
    rw [hpresence]
    cases names.any q.isAncestorOf <;> simp [Presence.ofBool]
  seen q _ := by
    rw [hpresence, Presence.ofBool_eq_present, List.any_eq_true]
    exact (or_iff_left (hclear q)).symm

theorem sees_entries (label : String) (held : TypedConfig.Entries) :
    (entries label held).Sees held.names :=
  sees_of_presence (fun _ => rfl) fun _ => nofun

/-- A filtered source is not misled, even if the source is: it looks through the names of that. -/
theorem sees_filtered (h : s.names? = some names) (test : Name → Bool) :
    (filtered s test).Sees (names.filter test) :=
  sees_of_presence (presence_filtered h) fun _ => nofun

/-! ## Relocating -/

/-- A relocated source lists something below a name exactly if the source does below the name with
the root in front. -/
theorem exists_mem_unprefixed (hb : ∀ k ∈ names, k.Built) (hr : root.Built) (hq : q.Built) :
    (∃ k ∈ unprefixed root names, q.isAncestorOf k = true) ↔
      ∃ l ∈ names, (root ++ q).isAncestorOf l = true := by
  have hshift : ∀ l ∈ names, root.isAncestorOf l = true →
      (root ++ q).isAncestorOf l = q.isAncestorOf (l.drop root.length) := by
    intro l hl hanc
    have hlb := hb l hl
    rw [← Name.isAncestorOf_append_left root q]
    refine Name.isAncestorOf_congr (hr.append hq).wellFormed hlb.wellFormed
      (hr.append (hlb.drop _)).wellFormed ?_
    rw [Name.meaning_append]
    exact Name.meaning_of_drop hr.wellFormed hlb.wellFormed hanc
  constructor
  · rintro ⟨k, hk, hbelow⟩
    obtain ⟨l, hl, hanc, rfl⟩ := mem_unprefixed.mp hk
    exact ⟨l, hl, (hshift l hl hanc).trans hbelow⟩
  · rintro ⟨l, hl, hbelow⟩
    have hanc := Name.isAncestorOf_of_append hbelow
    exact ⟨_, mem_unprefixed.mpr ⟨l, hl, hanc, rfl⟩, (hshift l hl hanc).symm.trans hbelow⟩

theorem Sees.relocated (h : s.Sees names) (hb : ∀ k ∈ names, k.Built) (hr : root.Built) :
    (s.relocated root).Sees (unprefixed root names) where
  known q := h.known (root ++ q)
  seen q hq := by
    rw [exists_mem_unprefixed hb hr hq]
    refine (h.seen (root ++ q) (hr.append hq)).trans (or_congr_right ⟨.relocated, ?_⟩)
    rintro ⟨⟩
    assumption

/-! ## Aliases -/

theorem firstSighting_ne_unknown {seen : List Presence} (h : ∀ p ∈ seen, p ≠ .unknown) :
    firstSighting seen ≠ .unknown := by
  induction seen with
  | nil => simp [firstSighting]
  | cons p rest ih =>
    obtain ⟨hp, hrest⟩ := List.forall_mem_cons.mp h
    cases p with
    | present => simp [firstSighting]
    | absent => exact ih hrest
    | unknown => exact absurd rfl hp

theorem presence_aliased_ne_unknown (h : ∀ q, s.presence q ≠ .unknown) (q : Name) :
    (s.aliased table).presence q ≠ .unknown := by
  have hfirst : firstSighting (s.presence q :: (table.of q).map s.presence) ≠ .unknown :=
    firstSighting_ne_unknown
      (List.forall_mem_cons.mpr ⟨h q, List.forall_mem_map.mpr fun a _ => h a⟩)
  rw [presence]
  cases hseen : firstSighting (s.presence q :: (table.of q).map s.presence) with
  | present => simp
  | absent => cases seenThroughAlias s.get? table q <;> simp [Presence.ofBool]
  | unknown => exact absurd hseen hfirst

/-- Where a source knows whether there is anything below a name, it sees it if it does not deny. -/
theorem present_iff_of_known {p : Presence} (h : p ≠ .unknown) : p = .present ↔ p ≠ .absent := by
  cases p <;> simp_all

/-- An aliased source sees something below a name if the source does, there or below an alias, or
if a name below is held as another one. -/
theorem presence_aliased_eq_present (h : ∀ q, s.presence q ≠ .unknown) :
    (s.aliased table).presence q = .present ↔
      s.presence q = .present ∨ (∃ a ∈ table.of q, s.presence a = .present) ∨
        seenThroughAlias s.get? table q = true := by
  simp only [present_iff_of_known (presence_aliased_ne_unknown h q), present_iff_of_known (h _),
    ne_eq, presence_aliased_eq_absent]
  cases seenThroughAlias s.get? table q <;> simp [imp_iff_not_or]

/-- What is seen through an alias is listed. -/
theorem Lists.exists_mem_of_seenThroughAlias (h : s.Lists names) (ht : table.Regular)
    (hu : table.Unambiguous) (hq : q.Built) (hseen : seenThroughAlias s.get? table q = true) :
    ∃ k ∈ withOthers table names, q.isAncestorOf k = true := by
  -- A name below that is also known as one that is held is found, and so it is listed.
  have hlisted : ∀ {m n : Name}, n.Built → m ∈ table.others n → (s.get? m).isSome = true →
      q.isAncestorOf n = true → ∃ k ∈ withOthers table names, q.isAncestorOf k = true := by
    intro m n hn hm hsome hanc
    have hs := h.aliased ht hu
    have hfound := isSome_get?_aliased.mpr (.inr ⟨m, hm, hsome⟩)
    obtain ⟨k, hk, heq⟩ := (hs.held n hn (Name.isEmpty_of_isAncestorOf hanc)).mp hfound
    refine ⟨k, hk, ?_⟩
    rwa [Name.isAncestorOf_congr hq.wellFormed (hs.built k hk).wellFormed hn.wellFormed heq]
  obtain ⟨c, a, hp, ⟨hanc, hsome⟩ | ⟨hanc, hsome⟩⟩ := seenThroughAlias_iff.mp hseen
  · obtain ⟨hc, ha⟩ := ht.built_pairs hp
    obtain ⟨l, hl, heq⟩ := ht.others_of_alias hu ha hp rfl
    have hne := ht.nonempty_others hu ha hl
    rw [← h.isSome_congr (ht.built_others ha hl) hc hne heq] at hsome
    exact hlisted ha hl hsome hanc
  · have hc := (ht.built_pairs hp).1
    exact hlisted hc (ht.others_of_canonical hc hp rfl) hsome hanc

/-- What is listed below a name is seen. -/
theorem Coherent.present_of_mem (h : s.Coherent names) (hknown : s.presence q ≠ .unknown)
    (hq : q.Built) (hn : n ∈ names) (hanc : q.isAncestorOf n = true) : s.presence q = .present := by
  rw [present_iff_of_known hknown]
  intro habsent
  have hheld := (h.held n (h.built n hn) (h.nonempty n hn)).mpr ⟨n, hn, rfl⟩
  rw [h.absent q n hq (h.built n hn) habsent hanc] at hheld
  cases hheld

theorem Sees.aliased (h : s.Sees names) (hs : s.Coherent names) (ht : table.Regular)
    (hu : table.Unambiguous) : (s.aliased table).Sees (withOthers table names) where
  known := presence_aliased_ne_unknown h.known
  seen q hq := by
    have hbuilt : ∀ a ∈ table.of q, a.Built := fun a ha =>
      ht.built_others hq (List.mem_append_left _ ha)
    have hnames : s.names?.getD [] = names := by rw [hs.listed, Option.getD_some]
    constructor
    · intro hp
      rcases (presence_aliased_eq_present h.known).mp hp with hp | ⟨a, ha, hp⟩ | hseen
      · rcases (h.seen q hq).mp hp with ⟨n, hn, hanc⟩ | hmisled
        · exact .inl ⟨n, List.mem_append_left _ hn, hanc⟩
        · exact .inr (.aliased hmisled)
      · rcases (h.seen a (hbuilt a ha)).mp hp with ⟨n, hn, hanc⟩ | hmisled
        · exact .inr (.byAlias ha (hnames ▸ hn) hanc)
        · exact .inr (.byAliases ha hmisled)
      · exact .inl (hs.toLists.exists_mem_of_seenThroughAlias ht hu hq hseen)
    · rintro (⟨n, hn, hanc⟩ | hmisled)
      · exact (hs.aliased ht hu).present_of_mem (presence_aliased_ne_unknown h.known q) hq hn hanc
      · refine (presence_aliased_eq_present h.known).mpr ?_
        cases hmisled with
        | @byAlias _ _ _ a n ha hn hanc =>
          exact .inr (.inl ⟨a, ha, (h.seen a (hbuilt a ha)).mpr (.inl ⟨n, hnames ▸ hn, hanc⟩)⟩)
        | @byAliases _ _ _ a ha hmisled =>
          exact .inr (.inl ⟨a, ha, (h.seen a (hbuilt a ha)).mpr (.inr hmisled)⟩)
        | aliased hmisled => exact .inl ((h.seen q hq).mpr (.inr hmisled))

/-! ## Stacks -/

theorem Stacked.exists_sees (h : s.Stacked) : ∃ names, s.Coherent names ∧ s.Sees names := by
  induction h with
  | entries label hheld => exact ⟨_, coherent_entries label hheld, sees_entries label _⟩
  | filtered _ htest ih =>
    obtain ⟨names, hs, -⟩ := ih
    exact ⟨_, hs.filtered htest, sees_filtered hs.listed _⟩
  | relocated _ hv ih =>
    obtain ⟨names, hs, h⟩ := ih
    rcases exists_of_relocate hv with rfl | ⟨root, hroot, rfl⟩
    · exact ⟨names, hs, h⟩
    · exact ⟨_, hs.relocated (.parse hroot), h.relocated hs.built (.parse hroot)⟩
  | aliased _ ht hu ih =>
    obtain ⟨names, hs, h⟩ := ih
    exact ⟨_, hs.aliased ht.regular hu, h.aliased hs ht.regular hu⟩

/-- A stack of views knows of each name whether there is anything below it, and sees something there
exactly if it lists something there or is misled by an alias. -/
theorem Stacked.present_iff (h : s.Stacked) (hq : q.Built) :
    s.presence q ≠ .unknown ∧
      (s.presence q = .present ↔
        (∃ n ∈ s.names?.getD [], q.isAncestorOf n = true) ∨ s.Misled q) := by
  obtain ⟨names, hs, hsees⟩ := h.exists_sees
  rw [hs.listed, Option.getD_some]
  exact ⟨hsees.known q, hsees.seen q hq⟩

/-- A port that is held under an alias is seen below its canonical name. -/
theorem Stacked.present_iff_port :
    let held := Entries.ofList [("app.port", .string "80")]
    let table : Aliases := [(⟨[⟨.uniform, "server"⟩, ⟨.uniform, "port"⟩]⟩, [⟨[⟨.uniform, "port"⟩]⟩])]
    let s : Source := .aliased (.relocated (.entries "test" held) ⟨[⟨.uniform, "app"⟩]⟩) table
    let q := Name.adapt "server" '.'
    s.Stacked ∧ q.Built ∧ s.presence q = .present ∧ s.presence q ≠ .unknown ∧
      (s.presence q = .present ↔
        (∃ n ∈ s.names?.getD [], q.isAncestorOf n = true) ∨ s.Misled q) := by
  intro held table s q
  have hview : (Source.entries "test" held).relocate "app" =
      .ok (.relocated (.entries "test" held) ⟨[⟨.uniform, "app"⟩]⟩) := rfl
  have htable : Aliases.register [] "server.port" ["port"] = .ok table := rfl
  have hs : s.Stacked := .aliased (.relocated (.entries "test" (.ofList _)) hview)
    (.register .empty htable) ⟨by decide +kernel, by decide +kernel⟩
  exact ⟨hs, .adapt "server" '.', by decide +kernel, hs.present_iff (.adapt "server" '.')⟩

/-- Something is seen below a name with an alias, because of what lies below the alias, though
nothing is listed below the name or held there. -/
theorem present_of_misled :
    let held := Entries.ofList [("srv.port", .string "80")]
    let table : Aliases := [(⟨[⟨.uniform, "server"⟩]⟩, [⟨[⟨.uniform, "srv"⟩]⟩])]
    let s : Source := .aliased (.entries "test" held) table
    let q := Name.adapt "server" '.'
    s.Stacked ∧ q.Built ∧ s.presence q = .present ∧
      (∀ n ∈ s.names?.getD [], q.isAncestorOf n = false) ∧
      ∀ n : Name, n.Built → q.isAncestorOf n = true → s.get? n = none := by
  intro held table s q
  have htable : Aliases.register [] "server" ["srv"] = .ok table := rfl
  have hs : s.Stacked := .aliased (.entries "test" (.ofList _))
    (.register .empty htable) ⟨by decide +kernel, by decide +kernel⟩
  have hq : q.Built := .adapt "server" '.'
  have hnone : ∀ n ∈ s.names?.getD [], q.isAncestorOf n = false := by decide +kernel
  obtain ⟨names, hcoherent⟩ := hs.exists_coherent
  rw [hcoherent.listed, Option.getD_some] at hnone ⊢
  exact ⟨hs, hq, by decide +kernel, hnone, fun n hn =>
    hcoherent.toLists.get?_eq_none hq hn hnone⟩

end Source

end TypedConfig
