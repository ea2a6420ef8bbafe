import TypedConfig.Proofs.Name.Words

/-!
# Raw elements that are read by themselves

`Window.adaptWith` takes what a mapper makes of a raw element as a text of its own, which must be
one element and decides its kind. So the identity leaves words alone, but not indexes: without its
brackets an index is a word, an index of fewer characters, or no single element. And what stands
behind a bracket that is never closed is one word of the text whatever its characters, but not where
it is read by itself.

* `scan_last`: nothing stands behind the word behind a bracket that is never closed.
* `text_ne_of_index`: an index has fewer characters than the text that it is found in.
* `Window.adaptWith_pure_iff`: when the identity leaves a name alone.
-/

namespace TypedConfig

/-! ## Where runs stand -/

section Places

variable {sep : Char} {s : String} {r : Run}

/-- Inside of brackets a run starts behind one. -/
theorem Run.Tracked.start_pos {unclosed : Option Nat} {offset depth : Nat} {cs : List Char}
    (h : r.Tracked sep unclosed offset (depth + 1) cs) : 0 < r.start := by
  obtain ⟨-, ⟨opened, -, hopened⟩, -⟩ := h
  obtain ⟨o, -, ho⟩ := Option.map_eq_some_iff.mp hopened
  omega

theorem Run.OnTheWay.stop_eq {offset depth : Nat} (h : r.OnTheWay s offset depth []) :
    r.start + r.text.utf8ByteSize = s.utf8ByteSize := by
  obtain ⟨before, hs, hstart, -⟩ := h.place
  rw [hs, hstart]
  simp [String.utf8ByteSize_append]

/-- Where a run of a text stands, for which a bracket is `unclosed`. -/
structure Run.Placed (s : String) (unclosed : Option Nat) (r : Run) : Prop where
  /-- An index stands behind a bracket. -/
  index : r.isIndex = true → 0 < r.start
  /-- The run behind the bracket that is never closed is a word that is not canonical and reaches to
  the end of the text. -/
  behind : unclosed.map (· + 1) = some r.start →
    r.kind = some .nonUniform ∧ r.start + r.text.utf8ByteSize = s.utf8ByteSize

theorem scan_placed (hr : r ∈ (scan sep s).runs) : r.Placed s (scan sep s).unclosed := by
  refine scanFrom_keeps ((keeps_tracked sep _).and (keeps_sound s sep) ?_ ?_ ?_)
    (Run.underWay_start_word 0) ⟨Run.tracked_start sep s, .start s⟩ r hr
  · intro o r cs hword htracked _
    refine ⟨fun hi => ?_, fun hbehind => absurd hbehind htracked.not_behind_of_word⟩
    rw [hword.1] at hi
    cases hi
  · intro o r cs _ htracked _
    exact ⟨fun _ => htracked.start_pos, fun hbehind => absurd hbehind htracked.not_behind_of_index⟩
  · intro o d r _ hway
    exact ⟨nofun, fun _ => ⟨rfl, hway.stop_eq⟩⟩

theorem Run.text_pos (hr : r ∈ (scan sep s).runs) : 0 < r.text.utf8ByteSize := by
  have hne : r.text ≠ "" := by simpa [text] using chars_ne_nil_of_scanFrom r hr
  exact Nat.pos_of_ne_zero (by simpa using hne)

theorem Run.Sound.stop_le (h : r.Sound s) : r.start + r.text.utf8ByteSize ≤ s.utf8ByteSize := by
  obtain ⟨front, back, hs, hstart, -⟩ := Text.slice?_eq_some_iff.mp h.stands
  have hsize := congrArg String.utf8ByteSize hs
  rw [String.utf8ByteSize_append, String.utf8ByteSize_append, ← hstart] at hsize
  exact hsize ▸ Nat.le_add_right _ _

/-- No run stands behind the word behind a bracket that is never closed. -/
theorem scan_last (sep : Char) (s : String) : (scan sep s).runs.Pairwise fun r _ =>
    (scan sep s).unclosed.map (· + 1) ≠ some r.start := by
  refine (scan_inOrder sep s).imp_of_mem ?_
  intro r r' hr hr' hbefore hbehind
  obtain ⟨-, hend⟩ := (scan_placed hr).behind hbehind
  have hnext : r.start + r.text.utf8ByteSize ≤ r'.start := hbefore
  have hstop := (scan_sound sep s r' hr').stop_le
  have hpos := Run.text_pos hr'
  omega

/-- An index has fewer characters than the text that it is found in. -/
theorem text_ne_of_index {e : Element} (he : e ∈ (scan sep s).elements) (hi : e.isIndex = true) :
    e.text ≠ s := by
  obtain ⟨r, hr, hre⟩ := List.mem_filterMap.mp he
  obtain ⟨-, hindex, htext⟩ := Run.of_element? hre
  have heq : e.text = r.text := by rw [Run.text, ← htext, String.ofList_toList]
  have hpos := (scan_placed hr).index (hindex ▸ hi)
  have hstop := (scan_sound sep s r hr).stop_le
  rw [heq]
  intro htext
  rw [htext] at hstop
  omega

end Places

/-! ## Reading runs by themselves -/

section Reading

variable {s : String} {r : Run} {e f : Element}

/-- The text of the run, read by itself, is one element. -/
def Run.Rereads (r : Run) (e : Element) : Prop := (scan '.' r.text).elements = [e]

/-- The text of the run, read by itself, is one word that is not canonical, with the dashed form
that the run has as a word. -/
def Run.RereadsAlike (r : Run) : Prop :=
  ∃ e, r.Rereads e ∧ e.kind = .nonUniform ∧
    e.render .dashed = String.ofList (dashedChars r.chars)

theorem Run.Rereads.mem (h : r.Rereads e) : e ∈ (scan '.' r.text).elements := by
  rw [show (scan '.' r.text).elements = [e] from h]
  exact List.mem_singleton_self e

theorem Run.Rereads.exact (h : r.Rereads e) : e.Exact := scan_exact '.' r.text e h.mem

theorem Name.respell_id_iff : Name.respell s id r = .ok e ↔ r.Rereads e := by
  unfold Name.respell Run.Rereads
  simp only [id_eq]
  split
  · rename_i d hd
    rw [hd]
    simp
  · rename_i hnone
    simp only [reduceCtorEq, false_iff]
    exact hnone e

/-- A word comes back as it was, unless it stands behind a bracket that is never closed. -/
theorem Run.rereads_of_word (hr : r ∈ (scan '.' s).runs) (hword : r.isIndex = false)
    (hbefore : (scan '.' s).unclosed.map (· + 1) ≠ some r.start) (hf : r.element? = some f) :
    r.Rereads f := by
  rw [Rereads, (scan_takenIn hr hword hbefore).elements (chars_ne_nil_of_scanFrom r hr), hf]
  rfl

theorem Run.Rereads.unique (he : r.Rereads e) (hf : r.Rereads f) : e = f :=
  List.singleton_inj.mp (he.symm.trans hf)

/-- An index does not come back as an index of the same text. -/
theorem Run.Rereads.ne_of_index (h : r.Rereads e) (hindex : r.isIndex = true)
    (hf : r.element? = some f) (hkind : e.kind = f.kind) : e.meaning ≠ f.meaning := by
  obtain ⟨-, hfi, hftext⟩ := Run.of_element? hf
  have hfi : f.isIndex = true := hfi.trans hindex
  have hei : e.isIndex = true := by rw [Element.isIndex, hkind]; exact hfi
  have hne : e.text ≠ r.text := text_ne_of_index h.mem hei
  intro hmeaning
  rw [Element.meaning, Element.meaning, if_pos hei, if_pos hfi, hftext] at hmeaning
  refine hne ?_
  rw [Run.text, ← (Prod.mk.inj hmeaning).2, String.ofList_toList]

end Reading

/-! ## Names that show the same -/

/-- Two words of one kind with one dashed form. -/
structure Element.ShowsAs (e f : Element) : Prop where
  kind : e.kind = f.kind
  word : f.isIndex = false
  dashed : e.render .dashed = f.render .dashed

namespace Element

variable {e f : Element} {text : String}

theorem ShowsAs.refl (h : e.isIndex = false) : e.ShowsAs e := ⟨rfl, h, rfl⟩

theorem ShowsAs.meaning (h : e.ShowsAs f) (he : e.Exact) (hf : f.Exact) :
    e.meaning = f.meaning := by
  have hword : e.isIndex = false := by rw [isIndex, h.kind]; exact h.word
  have hchars : dashedChars e.text.toList = dashedChars f.text.toList := by
    rw [← he.toList_dashed hword, ← hf.toList_dashed h.word, h.dashed]
  simp [Element.meaning, hword, h.word, ← uniformChars_dashedChars e.text.toList, hchars,
    uniformChars_dashedChars]

/-- Behind one text two words give one text exactly if their dashed forms are one. -/
theorem textWith_eq_iff (he : e.isIndex = false) (hf : f.isIndex = false) :
    Name.textWith text e = Name.textWith text f ↔ e.render .dashed = f.render .dashed := by
  unfold Name.textWith
  simp only [he, hf, Bool.false_eq_true, ↓reduceIte]
  split
  · rfl
  · exact String.append_right_inj _

theorem ShowsAs.textWith (h : e.ShowsAs f) (text : String) :
    Name.textWith text e = Name.textWith text f :=
  (textWith_eq_iff (by rw [isIndex, h.kind]; exact h.word) h.word).mpr h.dashed

end Element

/-- The elements of two names mean the same, are of the same kinds and give one text behind
`text`. -/
structure ElementsAlike (text : String) (es fs : List Element) : Prop where
  meaning : es.map Element.meaning = fs.map Element.meaning
  kinds : es.map Element.kind = fs.map Element.kind
  text : es.foldl Name.textWith text = fs.foldl Name.textWith text

theorem ElementsAlike.of_showsAs {es fs : List Element} (h : List.Forall₂ Element.ShowsAs es fs)
    (he : ∀ e ∈ es, e.Exact) (hf : ∀ f ∈ fs, f.Exact) (text : String) :
    ElementsAlike text es fs := by
  induction h generalizing text with
  | nil => exact ⟨rfl, rfl, rfl⟩
  | cons hfirst _ ih =>
    rw [List.forall_mem_cons] at he hf
    obtain ⟨hmeaning, hkinds, htext⟩ := ih he.2 hf.2 (Name.textWith text _)
    exact ⟨by rw [List.map_cons, List.map_cons, hfirst.meaning he.1 hf.1, hmeaning],
      by rw [List.map_cons, List.map_cons, hfirst.kind, hkinds],
      by rw [List.foldl_cons, List.foldl_cons, ← hfirst.textWith, htext]⟩

/-! ## All runs of a text -/

section Runs

variable {s : String} {runs : List Run} {es fs : List Element}

/-- The elements of a scan are those of the runs that have a kind. -/
theorem Scan.forall₂_elements (found : Scan) : List.Forall₂ (fun r e => r.element? = some e)
    (found.runs.filter (·.kind.isSome)) found.elements := by
  obtain ⟨runs, unclosed⟩ := found
  show List.Forall₂ _ (runs.filter _) (runs.filterMap Run.element?)
  induction runs with
  | nil => exact .nil
  | cons r runs ih =>
    rw [List.filter_cons, List.filterMap_cons]
    cases hk : r.kind with
    | none => simpa [Run.element?, hk] using ih
    | some kind => simpa [Run.element?, hk] using ih

/-- The run comes back as it was when it is read by itself. -/
def Run.ComesBack (found : Scan) (r : Run) : Prop :=
  r.isIndex = false ∧ (found.unclosed.map (· + 1) = some r.start → r.RereadsAlike)

/-- The run behind a bracket that is never closed has its characters as its dashed form. -/
theorem Run.render_of_behind {r : Run} {f : Element} (hr : r ∈ (scan '.' s).runs)
    (hbehind : (scan '.' s).unclosed.map (· + 1) = some r.start) (hf : r.element? = some f) :
    f.kind = .nonUniform ∧ f.render .dashed = String.ofList (dashedChars r.chars) := by
  obtain ⟨hkind, -, htext⟩ := Run.of_element? hf
  have hfk : f.kind = .nonUniform :=
    Option.some.inj (hkind.symm.trans ((scan_placed hr).behind hbehind).1)
  refine ⟨hfk, ?_⟩
  rw [← htext]
  simp [Element.render, hfk]

/-- Runs that come back do so as elements that are shown as theirs. -/
theorem exists_rereads (hruns : ∀ r ∈ runs, r ∈ (scan '.' s).runs)
    (hfs : List.Forall₂ (fun r f => r.element? = some f) runs fs)
    (h : ∀ r ∈ runs, r.ComesBack (scan '.' s)) :
    ∃ es, List.Forall₂ Run.Rereads runs es ∧ List.Forall₂ Element.ShowsAs es fs := by
  induction hfs with
  | nil => exact ⟨[], .nil, .nil⟩
  | @cons r f runs fs hf _ ih =>
    rw [List.forall_mem_cons] at hruns h
    obtain ⟨es, hes, hshows⟩ := ih hruns.2 h.2
    obtain ⟨hword, hbehind⟩ := h.1
    obtain ⟨-, hfi, -⟩ := Run.of_element? hf
    by_cases hb : (scan '.' s).unclosed.map (· + 1) = some r.start
    · obtain ⟨e, he, hek, hdashed⟩ := hbehind hb
      obtain ⟨hfk, hfdashed⟩ := Run.render_of_behind hruns.1 hb hf
      exact ⟨e :: es, .cons he hes, .cons
        ⟨hek.trans hfk.symm, hfi.trans hword, hdashed.trans hfdashed.symm⟩ hshows⟩
    · exact ⟨f :: es, .cons (Run.rereads_of_word hruns.1 hword hb hf) hes,
        .cons (.refl (hfi.trans hword)) hshows⟩

theorem exact_of_rereads (h : List.Forall₂ Run.Rereads runs es) : ∀ e ∈ es, e.Exact := by
  induction h with
  | nil => nofun
  | cons hfirst _ ih => exact List.forall_mem_cons.mpr ⟨hfirst.exact, ih⟩

/-- Where the elements that come back are alike, the runs come back. -/
theorem comesBack_of_alike (hruns : ∀ r ∈ runs, r ∈ (scan '.' s).runs)
    (hlast : runs.Pairwise fun r _ => (scan '.' s).unclosed.map (· + 1) ≠ some r.start)
    (hfs : List.Forall₂ (fun r f => r.element? = some f) runs fs)
    (hes : List.Forall₂ Run.Rereads runs es) {text : String} (h : ElementsAlike text es fs) :
    ∀ r ∈ runs, r.ComesBack (scan '.' s) := by
  induction hfs generalizing es text with
  | nil => nofun
  | @cons r f runs fs hf hfs ih =>
    rw [List.forall_mem_cons] at hruns
    obtain ⟨hfirst, hlast⟩ := List.pairwise_cons.mp hlast
    cases hes with
    | @cons _ e _ es he hes =>
      obtain ⟨hmeaning, hmeanings⟩ := List.cons.inj h.meaning
      obtain ⟨hkind, hkinds⟩ := List.cons.inj h.kinds
      have hword : r.isIndex = false :=
        Bool.eq_false_iff.mpr fun hindex => he.ne_of_index hindex hf hkind hmeaning
      obtain ⟨-, hfi, -⟩ := Run.of_element? hf
      have hfi : f.isIndex = false := hfi.trans hword
      rw [List.forall_mem_cons]
      by_cases hb : (scan '.' s).unclosed.map (· + 1) = some r.start
      · -- Nothing stands behind this run, so the texts end with it.
        obtain rfl : runs = [] := List.eq_nil_iff_forall_not_mem.mpr fun r' hr' => hfirst r' hr' hb
        cases hfs
        cases hes
        obtain ⟨hfk, hfdashed⟩ := Run.render_of_behind hruns.1 hb hf
        have hdashed := (Element.textWith_eq_iff (by rw [Element.isIndex, hkind]; exact hfi) hfi).mp
          h.text
        exact ⟨⟨hword, fun _ => ⟨e, he, hkind.trans hfk, hdashed.trans hfdashed⟩⟩, nofun⟩
      · obtain rfl := he.unique (Run.rereads_of_word hruns.1 hword hb hf)
        exact ⟨⟨hword, fun hb' => absurd hb' hb⟩, ih hruns.2 hlast hes ⟨hmeanings, hkinds, h.text⟩⟩

end Runs

/-! ## The identity as a mapper -/

namespace Window

variable {s : String} {a b w : Window} {m n : Name}

/-- The kinds of the elements. -/
def kinds (w : Window) : Except Failure (List Kind) := return (← w.elements).map Element.kind

/-- Two names that are equal and have elements of the same kinds and one text. -/
structure Alike (a b : Window) : Prop where
  same : a.same b = .ok true
  kinds : ∃ kinds, a.kinds = .ok kinds ∧ b.kinds = .ok kinds
  text : ∃ text, a.text = .ok text ∧ b.text = .ok text

theorem Shows.kinds (h : w.Shows n) : w.kinds = .ok (n.elements.map Element.kind) := by
  unfold Window.kinds
  rw [h.elements]
  rfl

theorem Shows.alike_iff (ha : a.Shows m) (hb : b.Shows n) (hm : m.Exact) (hn : n.Exact) :
    a.Alike b ↔ ElementsAlike "" m.elements n.elements := by
  constructor
  · rintro ⟨hsame, ⟨kinds, hak, hbk⟩, text, hat, hbt⟩
    rw [ha.same hb hm hn] at hsame
    rw [ha.kinds] at hak
    rw [hb.kinds] at hbk
    rw [ha.text hm] at hat
    rw [hb.text hn] at hbt
    exact ⟨(Name.beq_iff hm.wellFormed hn.wellFormed).mp (Except.ok.inj hsame),
      Except.ok.inj (hak.trans hbk.symm), Except.ok.inj (hat.trans hbt.symm)⟩
  · rintro ⟨hmeaning, hkinds, htext⟩
    refine ⟨?_, ⟨_, ha.kinds, ?_⟩, _, ha.text hm, ?_⟩
    · rw [ha.same hb hm hn, (Name.beq_iff hm.wellFormed hn.wellFormed).mpr hmeaning]
    · rw [hb.kinds, hkinds]
    · rw [hb.text hn, Name.text, Name.text, htext]

/-- The identity hands each raw element on as it is. -/
theorem respellAll_pure {σ : Type} (s : String) (runs : List Run) (state : σ) :
    respellAll s runs pure state = runs.mapM (Name.respell s id) := by
  have htexts : (runs.mapM fun r => (pure r.text : StateM σ String)) = pure (runs.map Run.text) :=
    List.mapM_pure ..
  have hzip : runs.zip (runs.map Run.text) = runs.map fun r => (r, r.text) := by
    have hpairs : (runs.map id).zip (runs.map Run.text) = runs.map fun r => (id r, r.text) :=
      List.zip_map'
    rwa [List.map_id] at hpairs
  unfold respellAll
  rw [htexts]
  show (runs.zip (runs.map Run.text)).mapM _ = _
  rw [hzip, List.mapM_map]
  rfl

/-- The identity gives a name exactly if each raw element is one element when it is read by itself,
and then these are its elements. -/
theorem adaptWith_pure_eq_ok_iff {σ : Type} (s : String) (state : σ) :
    adaptWith s '.' pure state = .ok w ↔
      ∃ es, List.Forall₂ Run.Rereads ((scan '.' s).runs.filter (·.kind.isSome)) es ∧
        w = ofRespelled s ((scan '.' s).runs.filter (·.kind.isSome)) es := by
  unfold adaptWith
  simp only [respellAll_pure]
  generalize (scan '.' s).runs.filter (·.kind.isSome) = runs
  have hiff : ∀ es, runs.mapM (Name.respell s id) = .ok es ↔ List.Forall₂ Run.Rereads runs es := by
    intro es
    rw [mapM_eq_ok_iff]
    simp only [Name.respell_id_iff]
  simp only [← hiff]
  cases runs.mapM (Name.respell s id) with
  | error e => simp [valid, bind, Except.bind]
  | ok es => simp [valid, bind, Except.bind, pure, Except.pure, eq_comm]

/-- Reading a text with the identity as the mapper gives the name that is read without one, with
elements of the same kinds and the same text, exactly if no index has a character in it and what
stands behind a bracket that is never closed comes back when it is read by itself. -/
theorem adaptWith_pure_iff {σ : Type} (s : String) (state : σ) :
    (∃ w, adaptWith s '.' pure state = .ok w ∧ w.Alike (adapt s '.')) ↔
      ∀ r ∈ (scan '.' s).runs, r.kind.isSome = true → r.ComesBack (scan '.' s) := by
  have hruns : ∀ r ∈ (scan '.' s).runs.filter (·.kind.isSome), r ∈ (scan '.' s).runs :=
    fun r hr => (List.mem_filter.mp hr).1
  have hfs := (scan '.' s).forall₂_elements
  have hiff : ∀ {es}, List.Forall₂ Run.Rereads ((scan '.' s).runs.filter (·.kind.isSome)) es →
      ((ofRespelled s ((scan '.' s).runs.filter (·.kind.isSome)) es).Alike (adapt s '.') ↔
        ElementsAlike "" es (scan '.' s).elements) := fun hes =>
    (shows_ofRespelled (Nat.le_of_eq hes.length_eq.symm)).alike_iff (shows_adapt s '.')
      (exact_of_rereads hes) (scan_exact '.' s)
  constructor
  · rintro ⟨w, hw, halike⟩ r hr hk
    obtain ⟨es, hes, rfl⟩ := (adaptWith_pure_eq_ok_iff s state).mp hw
    exact comesBack_of_alike hruns ((scan_last '.' s).filter _) hfs hes ((hiff hes).mp halike) r
      (List.mem_filter.mpr ⟨hr, hk⟩)
  · intro h
    obtain ⟨es, hes, hshows⟩ := exists_rereads hruns hfs fun r hr =>
      h r (List.mem_filter.mp hr).1 (List.mem_filter.mp hr).2
    exact ⟨_, (adaptWith_pure_eq_ok_iff s state).mpr ⟨es, hes, rfl⟩, (hiff hes).mpr
      (.of_showsAs hshows (exact_of_rereads hes) (scan_exact '.' s) "")⟩

/-- Without its brackets the index `0` is a word, and `b.c` is two. What stands behind an open
bracket is canonical when it is read by itself, or loses what stands behind a dot. -/
theorem adaptWith_pure_drifts :
    (do (← adaptWith "a[0]" '.' pure ()).same (adapt "a[0]" '.')) = .ok false ∧
    (do (← adaptWith "a[0]" '.' pure ()).text) = .ok "a.0" ∧ (adapt "a[0]" '.').text = .ok "a[0]" ∧
    adaptWith "a[b.c]" '.' pure () = .error (.invalid ⟨"a[b.c]", ['b', '.', 'c'], 2⟩) ∧
    (do (← adaptWith "a[b" '.' pure ()).kinds) = .ok [.uniform, .uniform] ∧
    (adapt "a[b" '.').kinds = .ok [.uniform, .nonUniform] ∧
    (do (← adaptWith "a[B.-" '.' pure ()).text) = .ok "a.b" ∧
    (adapt "a[B.-" '.').text = .ok "a.b-" := by
  decide +kernel

end Window

end TypedConfig
