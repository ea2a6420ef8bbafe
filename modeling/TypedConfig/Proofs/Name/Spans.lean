import Mathlib.Data.List.Pairwise
import TypedConfig.Proofs.Name.Words

/-!
# The spans of a text

For every text and every separator, the spans that a scan leaves stand in the text one after the
other, at whole characters, and none of them is empty (`scan_spans_stand`). The kind of a span says
what it holds (`Kind.Holds`). It is that of an index exactly for what stands in an outermost pair of
brackets (`InBrackets`), and a word of no better kind holds a character that is wrong where it
stands, unless it is the rest behind a bracket that is never closed (`BehindOpen`).

* `NoneOpen`: outside of brackets. A bracket that closes nothing does not count for what follows.
* `openFrom`: the brackets that are open behind a text, as a scan counts them.
* `keeps_enclosed`: where the run under way stands among the brackets, at every step of a scan.
* `scan_over`: where a run stands that is over.
* `exists_index_of_brackets`: what stands in an outermost pair of brackets is a run.
-/

namespace TypedConfig

/-! ## Brackets that close nothing -/

/-- Every bracket that is opened in the text is closed in it. -/
def NoneOpen (cs : List Char) : Prop := ∀ q, q <:+ cs → q.count '[' ≤ q.count ']'

/-- How many brackets are open behind a text with `d` open ones in front of it. One that closes
nothing is passed over. -/
def openFrom (d : Nat) (cs : List Char) : Nat :=
  cs.foldl (fun d c => if c = '[' then d + 1 else if c = ']' then d - 1 else d) d

section Open

variable {c : Char} {cs ds : List Char} {d e : Nat}

theorem openFrom_append (d : Nat) (cs ds : List Char) :
    openFrom d (cs ++ ds) = openFrom (openFrom d cs) ds := List.foldl_append

@[simp] theorem openFrom_open (d : Nat) (cs : List Char) :
    openFrom d ('[' :: cs) = openFrom (d + 1) cs := rfl

@[simp] theorem openFrom_close (d : Nat) (cs : List Char) :
    openFrom d (']' :: cs) = openFrom (d - 1) cs := rfl

theorem openFrom_other (hopen : c ≠ '[') (hclose : c ≠ ']') (d : Nat) (cs : List Char) :
    openFrom d (c :: cs) = openFrom d cs := by
  simp [openFrom, hopen, hclose]

/-- So many brackets are open behind a text as some end of it opens more than it closes. -/
theorem openFrom_le_iff :
    openFrom 0 cs ≤ e ↔ ∀ q, q <:+ cs → q.count '[' ≤ q.count ']' + e := by
  induction cs using List.reverseRecOn generalizing e with
  | nil => simp [openFrom, List.suffix_nil]
  | append_singleton cs c ih =>
    have hends : (∀ q, q <:+ cs ++ [c] → q.count '[' ≤ q.count ']' + e) ↔
        ∀ q, q <:+ cs → (q ++ [c]).count '[' ≤ (q ++ [c]).count ']' + e := by
      constructor
      · exact fun h q hq => h _ (List.suffix_concat_iff.mpr (.inr ⟨q, rfl, hq⟩))
      · intro h q hq
        rcases List.suffix_concat_iff.mp hq with rfl | ⟨q, rfl, hend⟩
        · exact Nat.zero_le _
        · exact h q hend
    rw [hends, openFrom_append]
    simp only [List.count_append, List.count_singleton, beq_iff_eq]
    rcases bracket_cases c with rfl | rfl | ⟨hopen, hclose⟩
    · show openFrom 0 cs + 1 ≤ e ↔ _
      cases e with
      | zero =>
        refine iff_of_false (Nat.not_succ_le_zero _) fun h => ?_
        have hnil := h [] List.nil_suffix
        simp at hnil
      | succ e =>
        rw [Nat.add_le_add_iff_right, ih]
        simp [← Nat.add_assoc]
    · show openFrom 0 cs - 1 ≤ e ↔ _
      rw [Nat.sub_le_iff_le_add, ih]
      simp [Nat.add_assoc, Nat.add_comm 1]
    · rw [openFrom_other hopen hclose]
      show openFrom 0 cs ≤ e ↔ _
      rw [ih]
      simp [hopen, hclose]

theorem noneOpen_iff : NoneOpen cs ↔ openFrom 0 cs = 0 := by
  rw [← Nat.le_zero, openFrom_le_iff]
  rfl

/-- Where every bracket that is closed was opened, both counts agree. -/
theorem openFrom_of_depth (h : depthFrom d cs = some e) (k : Nat) :
    openFrom (d + k) cs = e + k := by
  induction cs generalizing d with
  | nil =>
    obtain rfl : d = e := by simpa using h
    rfl
  | cons c cs ih =>
    rcases bracket_cases c with rfl | rfl | ⟨hopen, hclose⟩
    · rw [openFrom_open, Nat.add_right_comm]
      exact ih h
    · cases d with
      | zero => cases h
      | succ d =>
        rw [openFrom_close, Nat.add_right_comm, Nat.add_sub_cancel]
        exact ih h
    · rw [depthFrom_other hopen hclose] at h
      rw [openFrom_other hopen hclose]
      exact ih h

end Open

/-! ## Stretches between brackets -/

/-- What stands from `a` to `b` is the content of an outermost pair of brackets. -/
def InBrackets (s : String) (a b : Nat) : Prop :=
  ∃ before content after : String, s = before ++ "[" ++ content ++ "]" ++ after ∧
    NoneOpen before.toList ∧ Balanced content.toList ∧
    a = before.utf8ByteSize + 1 ∧ b = a + content.utf8ByteSize

/-- What stands from `a` to `b` is the rest of the text behind an outermost bracket that is never
closed. -/
def BehindOpen (s : String) (a b : Nat) : Prop :=
  ∃ before rest : String, s = before ++ "[" ++ rest ∧ NoneOpen before.toList ∧
    (∀ p, p <+: rest.toList → p.count ']' ≤ p.count '[') ∧
    a = before.utf8ByteSize + 1 ∧ b = a + rest.utf8ByteSize

/-! ## Runs between brackets -/

section Runs

variable {sep : Char} {s : String} {r : Run} {o d : Nat} {cs : List Char}

/-- The brackets around the run under way, behind the characters `before` it that are read. -/
def Run.Among (r : Run) (d : Nat) (read : List Char) : Prop :=
  match d with
  | 0 => openFrom 0 read = 0
  | d + 1 => ∃ before : String, read = before.toList ++ '[' :: r.chars ∧
      openFrom 0 before.toList = 0 ∧ r.start = before.utf8ByteSize + 1 ∧
      depthFrom 0 r.chars = some d

/-- Where a scan is in the text, and the run under way among the brackets. -/
def Run.Enclosed (s : String) (o d : Nat) (r : Run) (cs : List Char) : Prop :=
  ∃ read : String, s.toList = read.toList ++ cs ∧ o = read.utf8ByteSize ∧ r.Among d read.toList

/-- One more character is read. -/
theorem Run.Enclosed.read {r' : Run} {c : Char} {d' : Nat} (h : r.Enclosed s o d (c :: cs))
    (hnext : ∀ read : String, o = read.utf8ByteSize → r.Among d read.toList →
      r'.Among d' (read.toList ++ [c])) : r'.Enclosed s (o + c.utf8Size) d' cs := by
  obtain ⟨read, hs, ho, hread⟩ := h
  refine ⟨read ++ String.singleton c, ?_, ?_, ?_⟩
  · rw [hs]
    simp
  · simp [ho]
  · simpa using hnext read ho hread

/-- One more character of the run, between brackets. -/
theorem Run.Among.push {read : List Char} (h : r.Among (d + 1) read) {c : Char} {e : Nat}
    (kind : Option Kind) (hdepth : depthFrom d [c] = some e) :
    (r.push c kind).Among (e + 1) (read ++ [c]) := by
  obtain ⟨before, hread, hopen, hstart, hchars⟩ := h
  refine ⟨before, by simp [hread, Run.push], hopen, hstart, ?_⟩
  simp only [Run.push, depthFrom_append, hchars]
  exact hdepth

theorem openFrom_append_other {read : List Char} {c : Char} (h : openFrom 0 read = 0)
    (hopen : c ≠ '[') (hclose : c ≠ ']') : openFrom 0 (read ++ [c]) = 0 := by
  rw [openFrom_append, openFrom_other hopen hclose, h]
  rfl

/-- Every step of a scan keeps the run under way in its place among the brackets. -/
theorem keeps_enclosed (s : String) (sep : Char) : Scan.Keeps sep (Run.Enclosed s) fun _ => True where
  openIndex h := h.read fun read ho hread => ⟨read, rfl, hread, congrArg (· + 1) ho, rfl⟩
  closeIndex h := h.read fun read _ hread => by
    obtain ⟨before, hread, hopen, -, hchars⟩ := hread
    show openFrom 0 (read.toList ++ [']']) = 0
    rw [hread, openFrom_append, openFrom_append, hopen, openFrom_open, openFrom_of_depth hchars 1]
    rfl
  cut hopen hclose _ h := h.read fun _ _ hread => openFrom_append_other hread hopen hclose
  pushWord hopen hclose _ h := h.read fun _ _ hread => openFrom_append_other hread hopen hclose
  pushIndex hopen hclose _ h :=
    h.read fun _ _ hread => hread.push _ (depthFrom_other hopen hclose _ [])
  pushOpen h := h.read fun _ _ hread => hread.push _ rfl
  pushClose h := h.read fun _ _ hread => hread.push _ rfl
  pushStray h := h.read fun read _ hread => by
    have hread : openFrom 0 read.toList = 0 := hread
    show openFrom 0 (read.toList ++ [']']) = 0
    rw [openFrom_append, hread]
    rfl
  word _ _ _ := trivial
  index _ _ _ := trivial
  left _ _ := trivial

/-- Where a run stands that is over: an index in an outermost pair of brackets, a word outside of
them or behind one that is never closed. -/
structure Run.Over (sep : Char) (s : String) (r : Run) : Prop where
  index : r.isIndex = true → InBrackets s r.start (r.start + r.text.utf8ByteSize)
  word : r.isIndex = false → r.TakenIn sep ∨ BehindOpen s r.start (r.start + r.text.utf8ByteSize)

theorem keeps_over (s : String) (sep : Char) : Scan.Keeps sep
    (fun o d r cs => r.Enclosed s o d cs ∧ (d = 0 → r.TakenIn sep)) (Run.Over sep s) := by
  refine (keeps_enclosed s sep).and (keeps_takenIn sep) ?_ ?_ ?_
  · intro o r cs hr _ hword
    refine ⟨fun hi => ?_, fun _ => .inl (hword rfl)⟩
    rw [hr.1] at hi
    cases hi
  · intro o r cs hr henclosed _
    obtain ⟨read, hs, -, before, hread, hopen, hstart, hchars⟩ := henclosed
    refine ⟨fun _ => ?_, fun hi => ?_⟩
    · refine ⟨before, r.text, String.ofList cs, ?_, noneOpen_iff.mpr hopen, ?_, hstart, rfl⟩
      · rw [← String.toList_inj, hs, hread]
        simp [Run.text]
      · rw [balanced_iff_depth]
        simpa [Run.text] using hchars
    · rw [hr.isIndex_eq_true] at hi
      cases hi
  · intro o d r henclosed _
    obtain ⟨read, hs, -, before, hread, hopen, hstart, hchars⟩ := henclosed
    refine ⟨fun hi => absurd hi Bool.false_ne_true, fun _ => .inr ⟨before, r.text, ?_, noneOpen_iff.mpr hopen, ?_, hstart, rfl⟩⟩
    · rw [← String.toList_inj, hs, hread]
      simp [Run.text]
    · intro p hp
      have hcount := (depthFrom_eq_some_iff.mp hchars).1 p (by simpa [Run.text] using hp)
      rwa [Nat.zero_add] at hcount

/-- The runs of a text stand among its brackets as their kinds say. -/
theorem scan_over (hr : r ∈ (scan sep s).runs) : r.Over sep s := by
  have hstart : (Run.startingAt 0 none).Enclosed s 0 0 s.toList := ⟨"", rfl, rfl, rfl⟩
  exact scanFrom_keeps (keeps_over s sep) (Run.underWay_start_word 0)
    ⟨hstart, fun _ => Run.takenIn_startingAt sep 0⟩ r hr

/-- What stands in an outermost pair of brackets, and is not empty, is an index of the scan. -/
theorem exists_index_of_brackets {before g after : List Char} (hopen : openFrom d before = 0)
    (hg : depthFrom 0 g = some 0) (hne : g ≠ []) : ∀ offset opened run,
      ∃ r ∈ (scanFrom sep offset d opened run (before ++ '[' :: (g ++ ']' :: after))).runs,
        r.start = offset + (String.ofList before).utf8ByteSize + 1 ∧ r.chars = g ∧
          r.isIndex = true := by
  have hcons : ∀ {r run : Run} {found : Scan}, r ∈ found.runs → r ∈ (Scan.cons run found).runs :=
    fun h => by rw [Scan.runs_cons]; exact List.mem_append_right _ h
  induction before generalizing d with
  | nil =>
    obtain rfl : d = 0 := hopen
    intro offset opened run
    obtain ⟨offset', r, hscan, hstart, hchars, hr⟩ :=
      @scanFrom_group _ (some offset) _ after g sep (offset + ('[' : Char).utf8Size) hg
        (Run.underWay_start_index (offset + ('[' : Char).utf8Size) 0)
    replace hchars : r.chars = g := hchars
    refine ⟨r, hcons ?_, hstart, hchars, hr.isIndex_eq_true⟩
    rw [hscan, Scan.runs_cons]
    simp [hchars, hne]
  | cons c before ih =>
    intro offset opened run
    have hnext : ∀ {d' : Nat} {opened' : Option Nat} {run' : Run}, openFrom d' before = 0 →
        ∃ r ∈ (scanFrom sep (offset + c.utf8Size) d' opened' run'
          (before ++ '[' :: (g ++ ']' :: after))).runs,
          r.start = offset + (String.ofList (c :: before)).utf8ByteSize + 1 ∧ r.chars = g ∧
            r.isIndex = true := by
      intro d' opened' run' hopen'
      obtain ⟨r, hr, hstart, hrest⟩ := ih hopen' (offset + c.utf8Size) opened' run'
      refine ⟨r, hr, ?_, hrest⟩
      rw [hstart, String.ofList_cons]
      simp [Nat.add_assoc]
    rcases bracket_cases c with rfl | rfl | ⟨hopenc, hclose⟩
    · cases d with
      | zero =>
        obtain ⟨r, hr, hrest⟩ := @hnext 1 (some offset) (.startingAt _ (some .numeric)) hopen
        exact ⟨r, hcons hr, hrest⟩
      | succ d => exact hnext hopen
    · rcases d with _ | _ | d
      · exact hnext hopen
      · obtain ⟨r, hr, hrest⟩ := @hnext 0 none (.startingAt _ none) hopen
        exact ⟨r, hcons hr, hrest⟩
      · exact hnext hopen
    · rw [openFrom_other hopenc hclose] at hopen
      rw [List.cons_append]
      simp only [scanFrom, hopenc, hclose, ↓reduceIte]
      split
      · obtain ⟨r, hr, hrest⟩ := @hnext d opened (.startingAt _ none) hopen
        exact ⟨r, hcons hr, hrest⟩
      · exact hnext hopen

end Runs

/-! ## What a kind says -/

/-- What a span of the kind holds. A character is wrong at the start of a span, or behind it. -/
def Kind.Holds (kind : Kind) (cs : List Char) : Prop :=
  match kind with
  | .uniform => ∀ c ∈ cs, isWordChar c = true
  | .dashed => (∃ c ∈ cs.head?, isWordChar c = true) ∧ ∀ c ∈ cs, isWordChar c = true ∨ c = '-'
  | .nonUniform => ∃ i c, cs[i]? = some c ∧ isCanonical (i == 0) c = false
  | .indexed => True
  | .numeric => ∀ c ∈ cs, c.isDigit = true

section Kinds

variable {kind : Kind} {cs : List Char}

/-- A word that is not canonical has a wrong character. -/
theorem exists_wrong (hne : cs ≠ []) (h : isWord cs = false) : Kind.nonUniform.Holds cs := by
  cases cs with
  | nil => exact absurd rfl hne
  | cons c cs =>
    by_cases hc : isWordChar c = true
    · have hrest : ¬∀ d ∈ cs, isCanonical false d = true := by
        intro hall
        have hall : cs.all (fun d => isWordChar d || d == '-') = true :=
          List.all_eq_true.mpr fun d hd => by simpa [isCanonical] using hall d hd
        simp [isWord, hc, hall] at h
      simp only [not_forall, Bool.not_eq_true] at hrest
      obtain ⟨d, hd, hwrong⟩ := hrest
      obtain ⟨i, hi⟩ := List.mem_iff_getElem?.mp hd
      exact ⟨i + 1, d, hi, hwrong⟩
    · exact ⟨0, c, rfl, by simpa [isCanonical] using hc⟩

/-- A canonical word starts with a small letter or a digit. -/
theorem holds_of_isWord (h : isWord cs = true) : Kind.dashed.Holds cs := by
  cases cs with
  | nil => cases h
  | cons c cs =>
    simp only [isWord, Bool.and_eq_true, List.all_eq_true, Bool.or_eq_true, beq_iff_eq] at h
    exact ⟨⟨c, rfl, h.1⟩, List.forall_mem_cons.mpr ⟨.inl h.1, h.2⟩⟩

/-- Every kind but that of the other words says exactly what its characters are. -/
theorem Kind.Exact.holds (h : kind.Exact cs) (hk : kind ≠ .nonUniform) : kind.Holds cs := by
  cases kind with
  | nonUniform => exact absurd rfl hk
  | indexed => trivial
  | numeric =>
    have hindex : Kind.numeric = Kind.ofIndex cs := h
    unfold Kind.ofIndex at hindex
    split at hindex
    · rename_i hdigits
      exact List.all_eq_true.mp (Bool.and_eq_true_iff.mp hdigits).2
    · cases hindex
  | dashed => exact holds_of_isWord h.1
  | uniform =>
    obtain ⟨hword, hkind⟩ := h
    unfold Kind.ofWord at hkind
    split at hkind
    · cases hkind
    · rename_i hdash
      intro c hc
      refine ((holds_of_isWord hword).2 c hc).resolve_right ?_
      rintro rfl
      exact hdash (List.contains_iff_mem.mpr hc)

end Kinds

/-! ## Spans -/

/-- The spans that a scan leaves of a text. -/
def spansOf (sep : Char) (s : String) : List Span := (Window.ofScan s (scan sep s)).spans

section Spans

variable {sep : Char} {s : String} {span : Span}

/-- A span is where its run is, and has its kind. -/
theorem exists_run_of_span (h : span ∈ spansOf sep s) : ∃ r ∈ (scan sep s).runs,
    r.kind = some span.kind ∧ span.start = r.start ∧
      span.stop = r.start + r.text.utf8ByteSize := by
  obtain ⟨r, hr, hspan⟩ := List.mem_filterMap.mp h
  obtain ⟨kind, hk, rfl⟩ := Option.map_eq_some_iff.mp hspan
  exact ⟨r, hr, hk, rfl, rfl⟩

theorem span_of_run {r : Run} {kind : Kind} (hr : r ∈ (scan sep s).runs) (hk : r.kind = some kind) :
    ⟨r.start, r.start + r.text.utf8ByteSize, kind⟩ ∈ spansOf sep s :=
  List.mem_filterMap.mpr ⟨r, hr, by simp [Run.span?, hk]⟩

/-- No run of a text is empty. -/
theorem text_ne_of_scan {r : Run} (hr : r ∈ (scan sep s).runs) : r.text ≠ "" := by
  intro hempty
  refine chars_ne_nil_of_scanFrom r hr ?_
  simpa [Run.text] using congrArg String.toList hempty

theorem size_pos_of_scan {r : Run} (hr : r ∈ (scan sep s).runs) : 0 < r.text.utf8ByteSize :=
  Nat.pos_of_ne_zero (mt String.utf8ByteSize_eq_zero_iff.mp (text_ne_of_scan hr))

/-- Of two runs, one stands behind the other. -/
theorem apart_of_scan {r r' : Run} (hr : r ∈ (scan sep s).runs) (hr' : r' ∈ (scan sep s).runs)
    (hne : r ≠ r') : r.Before r' ∨ r'.Before r := by
  have hruns : (scan sep s).runs.Pairwise fun r r' => r.Before r' ∨ r'.Before r :=
    (scan_inOrder sep s).imp .inl
  have : Std.Symm fun r r' : Run => r.Before r' ∨ r'.Before r := ⟨fun _ _ => Or.symm⟩
  exact hruns.forall hr hr' hne

theorem spans_inOrder (sep : Char) (s : String) :
    (spansOf sep s).Pairwise fun a b => a.start < b.start ∧ a.stop ≤ b.start := by
  have hruns : (scan sep s).runs.Pairwise fun r r' => r.start < r'.start ∧ r.Before r' := by
    refine (scan_inOrder sep s).imp_of_mem fun hr _ hbefore => ⟨?_, hbefore⟩
    exact Nat.lt_of_lt_of_le (Nat.lt_add_of_pos_right (size_pos_of_scan hr)) hbefore
  refine hruns.filterMap _ fun r r' hlt span hspan span' hspan' => ?_
  obtain ⟨kind, -, rfl⟩ := Option.map_eq_some_iff.mp hspan
  obtain ⟨kind', -, rfl⟩ := Option.map_eq_some_iff.mp hspan'
  exact hlt

theorem span_holds (h : span ∈ spansOf sep s) : ∃ text,
    Text.slice? s span.start span.stop = some text ∧ text ≠ "" ∧
      (span.kind.Holds text.toList ∨
        span.kind = .nonUniform ∧ BehindOpen s span.start span.stop) := by
  obtain ⟨r, hr, hk, hstart, hstop⟩ := exists_run_of_span h
  have hsound := scan_sound sep s r hr
  have hchars : r.text.toList = r.chars := String.toList_ofList
  rw [hstart, hstop]
  refine ⟨r.text, hsound.stands, text_ne_of_scan hr, ?_⟩
  rw [hchars]
  by_cases hother : span.kind = .nonUniform
  · have hi : r.isIndex = false := by rw [Run.isIndex, hk, hother]; rfl
    rcases (scan_over hr).word hi with hword | hbehind
    · have hspoiled := hword.follows.spoiled_iff.mp (.inr (hother ▸ hk))
      rw [hother]
      exact .inl (exists_wrong (chars_ne_nil_of_scanFrom r hr) hspoiled)
    · exact .inr ⟨hother, hbehind⟩
  · exact .inl ((hsound.exact _ hk).holds hother)

/-- Indexes are exactly what stands in an outermost pair of brackets. -/
theorem exists_index_iff {a b : Nat} :
    (∃ span ∈ spansOf sep s, span.start = a ∧ span.stop = b ∧ span.kind.isIndex = true) ↔
      a < b ∧ InBrackets s a b := by
  constructor
  · rintro ⟨span, hspan, rfl, rfl, hi⟩
    obtain ⟨r, hr, hk, hstart, hstop⟩ := exists_run_of_span hspan
    rw [hstart, hstop]
    refine ⟨Nat.lt_add_of_pos_right (size_pos_of_scan hr), (scan_over hr).index ?_⟩
    rw [Run.isIndex, hk]
    exact hi
  · rintro ⟨hlt, before, content, after, hs, hopen, hbalanced, rfl, rfl⟩
    have hne : content.toList ≠ [] := by
      intro hempty
      rw [String.toList_eq_nil_iff.mp hempty] at hlt
      exact absurd hlt (by simp)
    have hlist : s.toList = before.toList ++ '[' :: (content.toList ++ ']' :: after.toList) := by
      rw [hs]
      simp
    obtain ⟨r, hr, hstart, hchars, hi⟩ := @exists_index_of_brackets sep 0 before.toList
      content.toList after.toList (noneOpen_iff.mp hopen) (balanced_iff_depth.mp hbalanced) hne 0
      none (.startingAt 0 none)
    rw [← hlist] at hr
    cases hk : r.kind with
    | none =>
      rw [Run.isIndex, hk] at hi
      cases hi
    | some kind =>
      rw [Run.isIndex, hk] at hi
      refine ⟨_, span_of_run hr hk, ?_, ?_, hi⟩
      · simpa using hstart
      · simp [hstart, Run.text, hchars]

end Spans

/-- For every text and every separator, the spans stand in the text one after the other, at whole
characters, and none is empty. A span holds what its kind says, unless it is the rest behind a
bracket that is never closed. Indexes are exactly what stands in an outermost pair of brackets, if it
is not empty. And no run without a kind is among the spans. -/
theorem scan_spans_stand (sep : Char) (s : String) :
    ((spansOf sep s).Pairwise fun a b => a.start < b.start ∧ a.stop ≤ b.start) ∧
    (∀ span ∈ spansOf sep s, ∃ text, Text.slice? s span.start span.stop = some text ∧ text ≠ "" ∧
      (span.kind.Holds text.toList ∨
        span.kind = .nonUniform ∧ BehindOpen s span.start span.stop)) ∧
    (∀ a b, (∃ span ∈ spansOf sep s, span.start = a ∧ span.stop = b ∧ span.kind.isIndex = true) ↔
      a < b ∧ InBrackets s a b) ∧
    (∀ r ∈ (scan sep s).runs, r.kind = none → ∀ span ∈ spansOf sep s,
      span.stop ≤ r.start ∨ r.start + r.text.utf8ByteSize ≤ span.start) := by
  refine ⟨spans_inOrder sep s, fun span => span_holds, fun a b => exists_index_iff,
    fun r hr hnone span hspan => ?_⟩
  obtain ⟨r', hr', hk, hstart, hstop⟩ := exists_run_of_span hspan
  have hne : r' ≠ r := by
    rintro rfl
    rw [hnone] at hk
    cases hk
  rw [hstart, hstop]
  exact apart_of_scan hr' hr hne

-- The content of the last bracket is a word, since nothing closes it.
example : (let s := "a-b..cé[7][x.[y]]d[e"
    (Window.ofScan s (scan '.' s)).spans) =
      [⟨0, 3, .dashed⟩, ⟨5, 8, .nonUniform⟩, ⟨9, 10, .numeric⟩, ⟨12, 17, .indexed⟩,
        ⟨18, 19, .uniform⟩, ⟨20, 21, .nonUniform⟩] := by decide

end TypedConfig
