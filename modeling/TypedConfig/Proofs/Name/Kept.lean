import Mathlib.Data.List.Forall2
import Mathlib.Data.List.Induction
import TypedConfig.Proofs.Name.Spelling

/-!
# What is kept of a name

`Window.Shows w n` says that reading the positions of the window `w` gives the elements of the name
`n`. Every step on windows does to the name that is shown what the step of the same name does to
lists of elements, so the text, its spans and the slots in front of them are never seen.

* `Window.shows_ofScan`: a text that was scanned shows the elements of the scan.
* `Window.Shows.append`, `.front`, `.back`: joining with slots and moving the window.
* `Window.Built`: the windows that reading gives, and joining and cutting of such windows.
* `Window.Built.shows`: each of them shows a name that can be built, so no element of it is missing.
-/

namespace TypedConfig

/-! ## Reading position by position -/

section Positions

variable {ε α β : Type} {f : Nat → Except ε α} {as : List α}

/-- Reading every position of a list gives the list. -/
theorem mapM_range (h : ∀ i a, as[i]? = some a → f i = .ok a) :
    (List.range as.length).mapM f = .ok as := by
  induction as using List.reverseRecOn with
  | nil => rfl
  | append_singleton as a ih =>
    have hlast : f as.length = .ok a := h _ _ (by simp)
    have hinit : (List.range as.length).mapM f = .ok as := by
      refine ih fun i b hb => h i b ?_
      rw [List.getElem?_append_left (List.getElem?_eq_some_iff.mp hb).1]
      exact hb
    rw [List.length_append, List.length_singleton, List.range_succ, List.mapM_append, hinit]
    simp [hlast, bind, Except.bind, pure, Except.pure]

/-- Taking in every position of a list takes in the list. -/
theorem foldlM_range {g : β → α → β} (h : ∀ i a, as[i]? = some a → f i = .ok a) (b : β) :
    (List.range as.length).foldlM (fun b i => return g b (← f i)) b = .ok (as.foldl g b) := by
  induction as using List.reverseRecOn with
  | nil => rfl
  | append_singleton as a ih =>
    have hlast : f as.length = .ok a := h _ _ (by simp)
    have hinit := ih fun i b hb => h i b (by
      rw [List.getElem?_append_left (List.getElem?_eq_some_iff.mp hb).1]
      exact hb)
    rw [List.length_append, List.length_singleton, List.range_succ, List.foldlM_append, hinit]
    simp [hlast, bind, Except.bind, pure, Except.pure]

/-- A step that is done on every item of a list gives the results that it gives for each item. -/
theorem mapM_eq_ok_iff {g : β → Except ε α} {bs : List β} :
    bs.mapM g = .ok as ↔ List.Forall₂ (fun b a => g b = .ok a) bs as := by
  induction bs generalizing as with
  | nil =>
    rw [List.mapM_nil, List.forall₂_nil_left_iff]
    exact ⟨fun h => by cases h; rfl, fun h => by rw [h]; rfl⟩
  | cons b bs ih =>
    simp only [List.mapM_cons, bind, Except.bind, pure, Except.pure]
    constructor
    · intro h
      split at h
      · cases h
      · rename_i a hb
        split at h
        · cases h
        · rename_i rest hbs
          cases h
          exact .cons hb (ih.mp hbs)
    · rintro (_ | ⟨hb, hbs⟩)
      rw [hb, ih.mpr hbs]

/-- Each result of a step that was done on every item of a list comes from an item. -/
theorem exists_of_mem_mapM {g : β → Except ε α} {bs : List β} (h : bs.mapM g = .ok as) {a : α}
    (ha : a ∈ as) : ∃ b ∈ bs, g b = .ok a := by
  obtain ⟨i, hi, rfl⟩ := List.getElem_of_mem ha
  have hall := mapM_eq_ok_iff.mp h
  have hj : i < bs.length := hall.length_eq ▸ hi
  exact ⟨bs[i], List.getElem_mem hj, hall.get hj hi⟩

theorem length_of_mapM {g : β → Except ε α} {bs : List β} (h : bs.mapM g = .ok as) :
    as.length = bs.length :=
  (mapM_eq_ok_iff.mp h).length_eq.symm

end Positions

namespace Window

/-! ## Windows and names -/

/-- The window shows the name: each of its positions has an element, and there is a slot for each
position if there are slots at all. -/
structure Shows (w : Window) (n : Name) : Prop where
  length : w.length = n.length
  element : ∀ (i : Nat) (e : Element), n.elements[i]? = some e → w.element i = .ok e
  slots : ∀ slots, w.slots = some slots → slots.length = w.length

variable {w a b : Window} {m n : Name}

theorem Shows.elements (h : w.Shows n) : w.elements = .ok n.elements := by
  unfold Window.elements
  rw [h.length]
  exact mapM_range h.element

theorem Shows.name (h : w.Shows n) : w.name = .ok n := by
  unfold Window.name
  rw [h.elements]
  rfl

theorem shows_empty : empty.Shows Name.empty where
  length := rfl
  element := fun i e h => by cases h
  slots := nofun

/-! ## Reading -/

theorem spanned_of_slice {span : Span} {text : String}
    (h : Text.slice? w.source span.start span.stop = some text) :
    w.spanned span = .ok ⟨span.kind, text⟩ := by
  unfold spanned
  rw [h]

/-- Spans that stand where the elements of a name are make a window that shows it. -/
theorem shows_ofSpans {source : String} {spans : List Span}
    (hl : spans.length = n.length)
    (h : ∀ (i : Nat) (e : Element), n.elements[i]? = some e → ∃ span : Span, spans[i]? = some span ∧
      span.kind = e.kind ∧ Text.slice? source span.start span.stop = some e.text) :
    (ofSpans source spans).Shows n where
  length := hl
  element := by
    intro i e he
    obtain ⟨span, hspan, hkind, htext⟩ := h i e he
    have hread : (ofSpans source spans).spanned span = .ok ⟨span.kind, e.text⟩ :=
      spanned_of_slice htext
    rw [hkind] at hread
    simp only [Window.element, ofSpans, heldAt, bind, Except.bind, Nat.zero_add, hspan]
    exact hread
  slots := nofun

/-- A text that was scanned shows the elements of the scan. -/
theorem shows_ofScan (source : String) (sep : Char) :
    (ofScan source (scan sep source)).Shows ⟨(scan sep source).elements⟩ := by
  -- The spans and the elements come from the same runs.
  let kept (r : Run) : Option (Span × Element) :=
    r.kind.map fun kind => (⟨r.start, r.start + r.text.utf8ByteSize, kind⟩, ⟨kind, r.text⟩)
  have hspans : (scan sep source).runs.filterMap Run.span? =
      ((scan sep source).runs.filterMap kept).map Prod.fst := by
    rw [List.map_filterMap]
    congr 1
    funext r
    simp [kept, Run.span?, Function.comp_def]
  have helements : (scan sep source).elements =
      ((scan sep source).runs.filterMap kept).map Prod.snd := by
    rw [Scan.elements, List.map_filterMap]
    congr 1
    funext r
    simp [kept, Run.element?, Function.comp_def]
  refine shows_ofSpans (by simp [Name.length, hspans, helements]) ?_
  intro i e he
  simp only [helements, List.getElem?_map, Option.map_eq_some_iff] at he
  obtain ⟨⟨span, e⟩, hi, rfl⟩ := he
  refine ⟨span, by simp [hspans, hi], ?_⟩
  obtain ⟨r, hr, hkept⟩ := List.mem_filterMap.mp (List.mem_of_getElem? hi)
  obtain ⟨kind, -, hpair⟩ := Option.map_eq_some_iff.mp hkept
  cases hpair
  exact ⟨rfl, (scan_sound sep source r hr).stands⟩

/-! ## Joining and cutting -/

/-- An element is read the same from windows over one text that agree at its place. -/
theorem element_congr {i j : Nat} (hsource : w.source = a.source) (hspans : w.spans = a.spans)
    (hplace : w.offset + i = a.offset + j) (hheld : heldAt w.slots i = heldAt a.slots j) :
    w.element i = a.element j := by
  unfold Window.element spanned
  rw [hsource, hspans, hplace, hheld]

/-- The slots that are kept hold what the slots held. -/
theorem heldAt_keepUsed {slots : List (Option Element)} {i : Nat} (hi : i < slots.length) :
    heldAt (keepUsed slots) i = .ok slots[i] := by
  unfold keepUsed
  split
  · simp [heldAt, hi]
  · rename_i hnone
    have hempty : slots[i] = none := by
      simp only [List.any_eq_true, not_exists, not_and, Option.not_isSome_iff_eq_none] at hnone
      exact hnone _ (List.getElem_mem hi)
    rw [hempty]
    rfl

theorem length_of_keepUsed {slots used : List (Option Element)} (h : keepUsed slots = some used) :
    used.length = slots.length := by
  unfold keepUsed at h
  split at h
  · cases h; rfl
  · cases h

/-- The slots of a window before another is put behind it. -/
theorem Shows.exists_held (h : w.Shows n) : ∃ held : List (Option Element),
    held.length = w.length ∧ (∀ i, i < w.length → heldAt (some held) i = heldAt w.slots i) ∧
      (match w.slots with
        | some slots => slots.take w.length
        | none => List.replicate w.length none) = held := by
  cases hs : w.slots with
  | none => exact ⟨_, by simp, fun i hi => by simp [heldAt, hi], rfl⟩
  | some slots =>
    have hl := h.slots slots hs
    exact ⟨_, by simp [hl], fun i hi => by simp [heldAt, hi], rfl⟩

/-- Joining two names puts the elements of the second into slots behind those of the first. -/
theorem Shows.append (ha : a.Shows m) (hb : b.Shows n) :
    ∃ c, a.append b = .ok c ∧ c.Shows (m ++ n) := by
  obtain ⟨held, hlen, hheld, heq⟩ := ha.exists_held
  refine ⟨{ a with length := a.length + b.length, slots := some (held ++ n.elements.map some) },
    ?_, ?_, ?_, ?_⟩
  · unfold Window.append
    rw [hb.elements, ← heq]
    rfl
  · simp [ha.length, hb.length, Name.length]
  · intro i e he
    rw [Name.elements_append] at he
    have hmlen : m.elements.length = a.length := ha.length.symm
    by_cases hi : i < a.length
    · rw [List.getElem?_append_left (by omega)] at he
      rw [← ha.element i e he]
      refine element_congr rfl rfl rfl ?_
      rw [← hheld i hi]
      simp [heldAt, List.getElem?_append_left (hlen ▸ hi)]
    · rw [List.getElem?_append_right (by omega), hmlen, ← hlen] at he
      have hslot : heldAt (some (held ++ n.elements.map some)) i = .ok (some e) := by
        simp [heldAt, List.getElem?_append_right (show held.length ≤ i by omega), he]
      simp only [Window.element, hslot, bind, Except.bind]
      rfl
  · rintro slots ⟨⟩
    simp [hlen, hb.length, Name.length]

theorem Shows.front (h : w.Shows n) {k : Nat} (hk : k ≤ w.length) :
    (w.front k).Shows (n.take k) where
  length := by
    have := h.length
    simp only [Window.front, Name.length, Name.elements_take, List.length_take] at *
    omega
  element := by
    intro i e he
    rw [Name.elements_take, List.getElem?_take] at he
    split at he
    · rename_i hi
      rw [← h.element i e he]
      refine element_congr rfl rfl rfl ?_
      cases hs : w.slots with
      | none => simp [Window.front, hs]
      | some slots =>
        have hl := h.slots slots hs
        have hi' : i < (slots.take k).length := by simp; omega
        simp only [Window.front, hs, Option.bind_some, heldAt_keepUsed hi']
        simp [heldAt, show i < slots.length by omega]
    · cases he
  slots := by
    intro used hused
    cases hs : w.slots with
    | none => simp [Window.front, hs] at hused
    | some slots =>
      have hl := h.slots slots hs
      simp only [Window.front, hs, Option.bind_some] at hused ⊢
      rw [length_of_keepUsed hused, List.length_take]
      omega

theorem Shows.back (h : w.Shows n) {k : Nat} (hk : k ≤ w.length) :
    (w.back k).Shows (n.drop k) where
  length := by
    have := h.length
    simp only [Window.back, Name.length, Name.elements_drop, List.length_drop] at *
    omega
  element := by
    intro i e he
    rw [Name.elements_drop, List.getElem?_drop] at he
    have hi : k + i < w.length := by
      rw [h.length]
      exact (List.getElem?_eq_some_iff.mp he).1
    rw [← h.element (k + i) e he]
    refine element_congr rfl rfl (Nat.add_assoc _ _ _) ?_
    cases hs : w.slots with
    | none => simp [Window.back, hs, heldAt]
    | some slots =>
      have hl := h.slots slots hs
      have hi' : i < (slots.drop k).length := by simp; omega
      simp only [Window.back, hs, Option.bind_some, heldAt_keepUsed hi']
      simp [heldAt, show k + i < slots.length by omega]
  slots := by
    intro used hused
    cases hs : w.slots with
    | none => simp [Window.back, hs] at hused
    | some slots =>
      have hl := h.slots slots hs
      simp only [Window.back, hs, Option.bind_some] at hused ⊢
      rw [length_of_keepUsed hused, List.length_drop]
      omega

theorem Shows.elements_eq_nil (h : w.Shows n) (hl : w.length = 0) : n.elements = [] := by
  rw [h.length] at hl
  exact List.length_eq_zero_iff.mp hl

theorem Shows.join (ha : a.Shows m) (hb : b.Shows n) :
    ∃ c, a.join b = .ok c ∧ c.Shows (m ++ n) := by
  unfold Window.join
  split
  · rename_i hl
    have hn : m ++ n = m := by
      obtain ⟨es⟩ := m
      exact congrArg Name.mk (by rw [hb.elements_eq_nil hl, List.append_nil])
    exact ⟨a, rfl, by rwa [hn]⟩
  · split
    · rename_i hl
      have hm : m ++ n = n := by
        obtain ⟨es⟩ := n
        exact congrArg Name.mk (by rw [ha.elements_eq_nil hl, List.nil_append])
      exact ⟨b, rfl, by rwa [hm]⟩
    · exact ha.append hb

theorem shows_index (key : String) : (index key).Shows ⟨[Element.index key]⟩ := by
  refine shows_ofSpans rfl ?_
  rintro (_ | i) e he
  · cases he
    refine ⟨_, rfl, rfl, ?_⟩
    rw [Element.index_text]
    exact Text.slice?_self key
  · cases he

theorem Shows.item (h : w.Shows n) (key : String) :
    ∃ v, w.item key = .ok v ∧ v.Shows (n.item key) :=
  h.append (shows_index key)

theorem Shows.take (h : w.Shows n) (k : Nat) : (w.take k).Shows (n.take k) := by
  unfold Window.take
  split
  · rename_i hk
    have hn : n.take k = n :=
      congrArg Name.mk (List.take_of_length_le (by rw [← Name.length, ← h.length]; exact hk))
    rw [hn]
    exact h
  · split
    · rename_i hk
      subst hk
      exact shows_empty
    · exact h.front (by omega)

theorem Shows.parent (h : w.Shows n) : w.parent.Shows n.parent := by
  have hn : n.parent = n.take (w.length - 1) := by
    rw [h.length]
    exact congrArg Name.mk (List.dropLast_eq_take ..)
  unfold Window.parent
  split
  · rename_i hk
    rw [hn, Nat.sub_eq_zero_of_le hk]
    exact shows_empty
  · rw [hn]
    exact h.take _

theorem Shows.subName (h : w.Shows n) {k : Nat} (hk : k ≤ w.length) :
    ∃ v, w.subName k = .ok v ∧ v.Shows (n.drop k) := by
  refine ⟨_, if_neg (Nat.not_lt.mpr hk), ?_⟩
  split
  · rename_i hk
    subst hk
    exact h
  · split
    · rename_i hk
      have hn : n.drop k = Name.empty :=
        congrArg Name.mk (List.drop_of_length_le (by rw [hk, h.length]; exact Nat.le_refl _))
      rw [hn]
      exact shows_empty
    · exact h.back hk

/-! What a window shows that a step has given. -/

theorem Shows.of_join (ha : a.Shows m) (hb : b.Shows n) (h : a.join b = .ok w) :
    w.Shows (m ++ n) := by
  obtain ⟨c, hc, hshows⟩ := ha.join hb
  cases hc.symm.trans h
  exact hshows

theorem Shows.of_item {key : String} (ha : a.Shows n) (h : a.item key = .ok w) :
    w.Shows (n.item key) := by
  obtain ⟨c, hc, hshows⟩ := ha.item key
  cases hc.symm.trans h
  exact hshows

theorem Shows.of_subName {k : Nat} (ha : a.Shows n) (h : a.subName k = .ok w) :
    w.Shows (n.drop k) := by
  have hk : k ≤ a.length := by
    unfold Window.subName at h
    split at h
    · cases h
    · omega
  obtain ⟨c, hc, hshows⟩ := ha.subName hk
  cases hc.symm.trans h
  exact hshows

/-! ## Reading names -/

/-- A canonical name is what the scan of its text finds. -/
theorem elements_of_parse {s : String} (h : Name.parse s = .ok n) : n = ⟨(scan '.' s).elements⟩ := by
  unfold Name.parse at h
  split at h
  · rename_i hs
    cases h
    rw [String.isEmpty_iff.mp hs]
    rfl
  · split at h
    · cases h
    · split at h
      · cases h
      · simp only at h
        split at h
        · cases h
        · cases h; rfl

/-- A canonical text is kept with the elements of its name. -/
theorem shows_parse {s : String} (h : Name.parse s = .ok n) :
    parse s = .ok (ofScan s (scan '.' s)) ∧ (ofScan s (scan '.' s)).Shows n := by
  refine ⟨?_, elements_of_parse h ▸ shows_ofScan s '.'⟩
  unfold Window.parse
  rw [h]
  rfl

/-- A text is kept exactly if it is a name. -/
theorem exists_of_parse {s : String} (h : parse s = .ok w) :
    ∃ n, Name.parse s = .ok n ∧ w.Shows n := by
  cases hn : Name.parse s with
  | error e =>
    unfold Window.parse at h
    rw [hn] at h
    cases h
  | ok n =>
    obtain ⟨hw, hshows⟩ := shows_parse hn
    rw [h] at hw
    cases hw
    exact ⟨n, rfl, hshows⟩

theorem shows_adapt (s : String) (sep : Char) : (adapt s sep).Shows (Name.adapt s sep) := by
  have h := shows_ofScan s sep
  unfold Window.adapt
  simp only
  split
  · rename_i hl
    have hn : Name.adapt s sep = Name.empty := congrArg Name.mk (h.elements_eq_nil hl)
    rw [hn]
    exact shows_empty
  · exact h

/-- A respelled element is all that a text has. -/
theorem scan_of_respell {name : String} {spell : String → String} {r : Run} {e : Element}
    (h : Name.respell name spell r = .ok e) : ∃ text, Name.adapt text '.' = ⟨[e]⟩ := by
  unfold Name.respell at h
  simp only at h
  split at h
  · rename_i e' he
    cases h
    exact ⟨_, congrArg Name.mk he⟩
  · cases h

/-- A name of elements that can be read one by one can be built. -/
theorem built_of_elements {es : List Element} (h : ∀ e ∈ es, ∃ text, Name.adapt text '.' = ⟨[e]⟩) :
    Name.Built ⟨es⟩ := by
  induction es with
  | nil => exact Name.Built.adapt "" '.'
  | cons e es ih =>
    obtain ⟨text, he⟩ := h e List.mem_cons_self
    have hone : Name.Built ⟨[e]⟩ := he ▸ Name.Built.adapt text '.'
    exact hone.append (ih fun e he => h e (List.mem_cons_of_mem _ he))

/-- Respelled elements are kept in slots, one for each element. -/
theorem shows_ofRespelled {s : String} {runs : List Run} {es : List Element}
    (hl : es.length ≤ runs.length) : (ofRespelled s runs es).Shows ⟨es⟩ := by
  unfold ofRespelled
  split
  · rename_i hes
    rw [List.isEmpty_iff.mp hes]
    exact shows_empty
  · have hlen : min runs.length es.length = es.length := Nat.min_eq_right hl
    refine ⟨by simp [ofSpans, Name.length, hlen], fun i e he => ?_, ?_⟩
    · have hslot : heldAt (some (es.map some)) i = .ok (some e) := by simp [heldAt, he]
      simp only [Window.element, hslot, bind, Except.bind]
      rfl
    · rintro slots ⟨⟩
      simp [ofSpans, hlen]

theorem shows_adaptWith {σ : Type} {s : String} {sep : Char} {spell : String → StateM σ String}
    {state : σ} (h : adaptWith s sep spell state = .ok w) : ∃ n, w.Shows n ∧ n.Built := by
  unfold Window.adaptWith at h
  simp only at h
  generalize (scan sep s).runs.filter _ = runs at h
  cases hm : respellAll s runs spell state with
  | error e => rw [hm] at h; cases h
  | ok es =>
    rw [hm] at h
    cases h
    unfold respellAll at hm
    refine ⟨⟨es⟩, shows_ofRespelled ?_, built_of_elements fun e he => ?_⟩
    · rw [length_of_mapM hm, List.length_zip]
      exact Nat.min_le_left _ _
    · obtain ⟨⟨r, text⟩, -, hr⟩ := exists_of_mem_mapM hm he
      exact scan_of_respell hr

theorem exists_of_extend {s : String} (hw : w.Shows n) {v : Window} (h : w.extend s = .ok v) :
    ∃ m, (m = n ∨ ∃ k, Name.parse s = .ok k ∧ m = n ++ k) ∧ v.Shows m := by
  unfold Window.extend at h
  split at h
  · cases h
    exact ⟨n, .inl rfl, hw⟩
  · cases hp : parse s with
    | error e => rw [hp] at h; cases h
    | ok u =>
      obtain ⟨k, hk, hu⟩ := exists_of_parse hp
      rw [hp] at h
      exact ⟨n ++ k, .inr ⟨k, hk, rfl⟩, hw.of_join hu h⟩

/-! ## Windows that can be built -/

/-- The windows that reading gives, and joining and cutting of such windows. -/
inductive Built : Window → Prop
  | parse {s : String} {w : Window} (h : parse s = .ok w) : Built w
  | adapt (s : String) (sep : Char) : Built (adapt s sep)
  | adaptWith {σ : Type} {s : String} {sep : Char} {spell : String → StateM σ String} {state : σ}
      {w : Window} (h : adaptWith s sep spell state = .ok w) : Built w
  | extend {v w : Window} {s : String} (hv : Built v) (h : v.extend s = .ok w) : Built w
  | join {a b w : Window} (ha : Built a) (hb : Built b) (h : a.join b = .ok w) : Built w
  | item {v w : Window} {key : String} (hv : Built v) (h : v.item key = .ok w) : Built w
  | parent {w : Window} (h : Built w) : Built w.parent
  | take {w : Window} (h : Built w) (k : Nat) : Built (w.take k)
  | subName {v w : Window} {k : Nat} (hv : Built v) (h : v.subName k = .ok w) : Built w

/-- A window that can be built shows a name that can be built. -/
theorem Built.shows (h : w.Built) : ∃ n, w.Shows n ∧ n.Built := by
  induction h with
  | parse h =>
    obtain ⟨n, hn, hw⟩ := exists_of_parse h
    exact ⟨n, hw, .parse hn⟩
  | adapt s sep => exact ⟨_, shows_adapt s sep, .adapt s sep⟩
  | adaptWith h => exact shows_adaptWith h
  | extend _ h ih =>
    obtain ⟨n, hv, hn⟩ := ih
    obtain ⟨m, hm, hw⟩ := exists_of_extend hv h
    rcases hm with rfl | ⟨k, hk, rfl⟩
    · exact ⟨m, hw, hn⟩
    · exact ⟨n ++ k, hw, hn.append (.parse hk)⟩
  | join _ _ h iha ihb =>
    obtain ⟨m, ha, hm⟩ := iha
    obtain ⟨n, hb, hn⟩ := ihb
    exact ⟨m ++ n, ha.of_join hb h, hm.append hn⟩
  | @item v w key _ h ih =>
    obtain ⟨n, hv, hn⟩ := ih
    exact ⟨n.item key, hv.of_item h, hn.item key⟩
  | parent _ ih =>
    obtain ⟨n, hw, hn⟩ := ih
    exact ⟨n.parent, hw.parent, hn.parent⟩
  | take _ k ih =>
    obtain ⟨n, hw, hn⟩ := ih
    exact ⟨n.take k, hw.take k, hn.take k⟩
  | @subName v w k _ h ih =>
    obtain ⟨n, hv, hn⟩ := ih
    exact ⟨n.drop k, hv.of_subName h, hn.drop k⟩

end Window

end TypedConfig
