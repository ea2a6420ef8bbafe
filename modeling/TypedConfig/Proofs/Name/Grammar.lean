import TypedConfig.Proofs.Name.Kept
import TypedConfig.Proofs.Name.Layout
import TypedConfig.Proofs.Name.Trimmed

/-!
# Strict reading accepts exactly the canonical texts

A scan of a text with pieces has one run for each word and one for each group with something in it
(`Layout.scanFrom`), and a text without pieces leaves a bracket open or has a run that no canonical
name has. So the strict reading accepts a text exactly if it has pieces, all its words are canonical
and no dot stands at either end, and the elements are those of the pieces
(`Window.parse_accepts_grammar`).
-/

namespace TypedConfig

open Number

/-! ## The scan of a text with pieces -/

namespace Piece

/-- The piece has something in it that is no dot. -/
def isRun : Piece → Bool
  | dot => false
  | word _ => true
  | group cs => !cs.isEmpty

/-- The run is what a scan makes of the piece. -/
def Reads : Piece → Run → Prop
  | dot, _ => False
  | word cs, r => r.chars = cs ∧ Kind.Follows r.kind cs
  | group cs, r => r.chars = cs ∧ r.kind = some (Kind.ofIndex cs)

end Piece

/-- An index that is over has the kind of its characters. -/
theorem Run.UnderWay.kind_eq {r : Run} (h : r.UnderWay 1) (hne : r.chars ≠ []) :
    r.kind = some (Kind.ofIndex r.chars) := by
  have he : r.chars.isEmpty = false := by simpa using hne
  rcases h with ⟨hk, hd⟩ | ⟨hk, hd⟩ <;> rw [hk] <;> simp [Kind.ofIndex, isDigits, he, hd]

section ScanFrom

variable {d : Nat} {opened : Option Nat} {run : Run} {cs w g : List Char} {ps : List Piece}

/-- A run that is not there yet leaves no trace. -/
theorem Scan.cons_startingAt (start : Nat) (kind : Option Kind) (s : Scan) :
    Scan.cons (.startingAt start kind) s = s := rfl

/-- Plain characters are taken into the word under way. -/
theorem scanFrom_word (offset : Nat) (hw : ∀ c ∈ w, isPlainChar c = true)
    (hr : Kind.Follows run.kind run.chars) : ∃ offset' run',
      scanFrom '.' offset 0 opened run (w ++ cs) =
        scanFrom '.' offset' 0 opened run' cs ∧
      run'.chars = run.chars ++ w ∧ Kind.Follows run'.kind run'.chars := by
  induction w generalizing offset run with
  | nil => exact ⟨offset, run, rfl, (List.append_nil _).symm, hr⟩
  | cons c w ih =>
    obtain ⟨hdot, hopen, hclose⟩ := isPlainChar_iff.mp (hw c List.mem_cons_self)
    have hnext : Kind.Follows (run.push c (Kind.extend run.kind run.chars.isEmpty c)).kind
        (run.push c (Kind.extend run.kind run.chars.isEmpty c)).chars := hr.extend c
    obtain ⟨offset', run', hscan, hchars, hr'⟩ := ih (offset + c.utf8Size)
      (fun d hd => hw d (List.mem_cons_of_mem _ hd)) hnext
    refine ⟨offset', run', ?_, by simpa [Run.push] using hchars, hr'⟩
    rw [← hscan]
    simp [scanFrom, hdot, hopen, hclose, Run.push]

/-- Everything up to the bracket that closes a group is taken into the index under way. -/
theorem scanFrom_group {sep : Char} (offset : Nat) (hg : depthFrom d g = some 0)
    (hr : run.UnderWay (d + 1)) : ∃ offset' run',
      scanFrom sep offset (d + 1) opened run (g ++ ']' :: cs) =
        Scan.cons run' (scanFrom sep offset' 0 none (.startingAt offset' none) cs) ∧
      run'.start = run.start ∧ run'.chars = run.chars ++ g ∧ run'.UnderWay 1 := by
  induction g generalizing offset d run with
  | nil =>
    obtain rfl : d = 0 := by simpa using hg
    exact ⟨_, run, rfl, rfl, (List.append_nil _).symm, hr⟩
  | cons c g ih =>
    rcases bracket_cases c with rfl | rfl | ⟨hopen, hclose⟩
    · obtain ⟨offset', run', hscan, hstart, hchars, hr'⟩ := ih (offset + ('[' : Char).utf8Size)
        hg (Run.underWay_push_bracket (c := '[') run (d + 1) (by decide))
      refine ⟨offset', run', ?_, hstart, by simpa [Run.push] using hchars, hr'⟩
      rw [← hscan]
      simp [scanFrom]
    · cases d with
      | zero => cases hg
      | succ d =>
        obtain ⟨offset', run', hscan, hstart, hchars, hr'⟩ := ih (offset + (']' : Char).utf8Size)
          hg (Run.underWay_push_bracket (c := ']') run d (by decide))
        refine ⟨offset', run', ?_, hstart, by simpa [Run.push] using hchars, hr'⟩
        rw [← hscan]
        simp [scanFrom]
    · rw [depthFrom_other hopen hclose] at hg
      obtain ⟨offset', run', hscan, hstart, hchars, hr'⟩ :=
        ih (offset + c.utf8Size) hg (hr.push_index c)
      refine ⟨offset', run', ?_, hstart, by simpa [Run.push] using hchars, hr'⟩
      rw [← hscan]
      simp [scanFrom, hopen, hclose, hr.isIndex_eq_true]

/-- A word is over where the text is, or where a dot or a bracket stands. -/
theorem scanFrom_end (offset : Nat) (hr : run.isIndex = false)
    (hcs : cs = [] ∨ (∃ rest, cs = '.' :: rest) ∨ ∃ rest, cs = '[' :: rest) :
    scanFrom '.' offset 0 opened run cs =
      Scan.cons run (scanFrom '.' offset 0 opened (.startingAt offset none) cs) := by
  rcases hcs with rfl | ⟨rest, rfl⟩ | ⟨rest, rfl⟩
  · rfl
  · have hfresh : (Run.startingAt offset none).isIndex = false := rfl
    simp [scanFrom, hr, hfresh, Scan.cons_startingAt]
  · rfl

/-- The runs of a text with pieces are those pieces that are runs, and no bracket is left open. -/
theorem Layout.scanFrom (h : Layout cs ps) (offset : Nat) :
    ∃ runs, scanFrom '.' offset 0 none (.startingAt offset none) cs = ⟨runs, none⟩ ∧
      List.Forall₂ Piece.Reads (ps.filter Piece.isRun) runs := by
  induction h generalizing offset with
  | nil => exact ⟨[], rfl, .nil⟩
  | dot _ ih => exact ih _
  | @group g cs ps hg _ ih =>
    obtain ⟨offset', run', hscan, -, hchars, hr'⟩ :=
      @scanFrom_group _ (some offset) _ cs _ '.' (offset + ('[' : Char).utf8Size)
        (balanced_iff_depth.mp hg) (Run.underWay_start_index (offset + ('[' : Char).utf8Size) 0)
    obtain ⟨runs, hruns, hreads⟩ := ih offset'
    rw [hruns] at hscan
    have hstart : TypedConfig.scanFrom '.' offset 0 none (.startingAt offset none)
        ('[' :: (g ++ ']' :: cs)) = Scan.cons run' ⟨runs, none⟩ := hscan
    replace hchars : run'.chars = g := hchars
    rw [hstart]
    cases hgs : g with
    | nil =>
      refine ⟨runs, ?_, hreads⟩
      rw [hgs] at hchars
      simp [Scan.cons, hchars]
    | cons c g' =>
      rw [hgs] at hchars
      refine ⟨run' :: runs, by simp [Scan.cons, hchars], .cons ⟨hchars, ?_⟩ hreads⟩
      rw [← hchars]
      exact hr'.kind_eq (by simp [hchars])
  | @word c w cs ps hw hps h ih =>
    obtain ⟨offset', run', hscan, hchars, hr'⟩ :=
      @scanFrom_word none (.startingAt offset none) cs _ offset hw Kind.Follows.nil
    obtain ⟨runs, hruns, hreads⟩ := ih offset'
    replace hchars : run'.chars = c :: w := hchars
    refine ⟨run' :: runs, ?_, .cons ⟨hchars, hchars ▸ hr'⟩ hreads⟩
    rw [hscan, scanFrom_end _ hr'.not_isIndex (h.head_of_not_word hps), hruns]
    simp [Scan.cons, hchars]

/-! ## The scan of a text without pieces -/

@[simp] theorem Scan.unclosed_cons (r : Run) (s : Scan) :
    (Scan.cons r s).unclosed = s.unclosed := by
  unfold Scan.cons
  split <;> rfl

/-- A bracket that is closed without being opened spoils a run. -/
theorem scanFrom_spoiled_of_depth {sep : Char} (h : depthFrom d cs = none) :
    ∀ offset opened run, (scanFrom sep offset d opened run cs).Spoiled := by
  induction cs generalizing d with
  | nil => cases h
  | cons c cs ih =>
    intro offset opened run
    rcases bracket_cases c with rfl | rfl | ⟨hopen, hclose⟩
    · cases d with
      | zero => exact (ih h _ _ _).cons run
      | succ d => exact ih h _ _ _
    · rcases d with _ | _ | d
      · show (scanFrom sep _ 0 opened (run.push ']' (some .nonUniform)) cs).Spoiled
        exact scanFrom_spoiled (.inr rfl) (by simp [Run.push])
      · exact (ih h _ _ _).cons run
      · exact ih h _ _ _
    · rw [depthFrom_other hopen hclose] at h
      simp only [scanFrom, hopen, hclose, ↓reduceIte]
      split
      · exact (ih h _ _ _).cons run
      · exact ih h _ _ _

/-- A bracket is told as open exactly if it is opened and never closed. -/
theorem scanFrom_unclosed_of_depth {sep : Char} {e : Nat} (h : depthFrom d cs = some e)
    (ho : d ≠ 0 → opened.isSome = true) : ∀ offset run,
      (scanFrom sep offset d opened run cs).unclosed.isSome = true ↔ e ≠ 0 := by
  induction cs generalizing d opened with
  | nil =>
    intro offset run
    obtain rfl : d = e := by simpa using h
    cases d with
    | zero => simp [scanFrom]
    | succ d => simp [scanFrom, ho (Nat.succ_ne_zero d)]
  | cons c cs ih =>
    intro offset run
    rcases bracket_cases c with rfl | rfl | ⟨hopen, hclose⟩
    · cases d with
      | zero =>
        show (Scan.cons run (scanFrom sep _ 1 (some offset) _ cs)).unclosed.isSome = true ↔ _
        rw [Scan.unclosed_cons]
        exact ih h (fun _ => rfl) _ _
      | succ d => exact ih h (fun _ => ho (Nat.succ_ne_zero d)) _ _
    · rcases d with _ | _ | d
      · cases h
      · show (Scan.cons run (scanFrom sep _ 0 none _ cs)).unclosed.isSome = true ↔ _
        rw [Scan.unclosed_cons]
        exact ih h (fun h0 => absurd rfl h0) _ _
      · exact ih h (fun _ => ho (Nat.succ_ne_zero _)) _ _
    · rw [depthFrom_other hopen hclose] at h
      simp only [scanFrom, hopen, hclose, ↓reduceIte]
      split
      · rw [Scan.unclosed_cons]
        exact ih h ho _ _
      · exact ih h ho _ _

end ScanFrom

/-- A scan that leaves no bracket open and spoils no run is of a text whose brackets are balanced. -/
theorem balanced_of_scan {s : String} (hunclosed : (scan '.' s).unclosed = none)
    (hclean : ¬(scan '.' s).Spoiled) : Balanced s.toList := by
  rw [balanced_iff_depth]
  cases h : depthFrom 0 s.toList with
  | none => exact absurd (scanFrom_spoiled_of_depth h _ _ _) hclean
  | some d =>
    cases d with
    | zero => rfl
    | succ d =>
      have hopen : (scan '.' s).unclosed.isSome = true :=
        (scanFrom_unclosed_of_depth h (fun h0 => absurd rfl h0) 0 _).mpr (Nat.succ_ne_zero d)
      rw [hunclosed] at hopen
      cases hopen

/-! ## Reading -/

/-- Strict reading refuses a scan with a bracket left open or a spoiled run, and no other. -/
theorem Scan.invalid?_eq_none_iff {s : Scan} {text : String} :
    s.invalid? text = none ↔ s.unclosed = none ∧ ¬s.Spoiled := by
  have hspoiled : ¬s.Spoiled ↔ s.runs.find? (·.kind.isNone) = none ∧
      s.runs.find? (·.kind == some .nonUniform) = none := by
    simp only [Scan.Spoiled, Kind.Spoiled, List.find?_eq_none, Option.isNone_iff_eq_none, beq_iff_eq]
    constructor
    · exact fun h => ⟨fun r hr hk => h ⟨r, hr, .inl hk⟩, fun r hr hk => h ⟨r, hr, .inr hk⟩⟩
    · rintro ⟨hnone, hother⟩ ⟨r, hr, hk | hk⟩
      · exact hnone r hr hk
      · exact hother r hr hk
  rw [hspoiled]
  unfold Scan.invalid?
  split <;> simp_all

namespace Name

/-- A text is accepted exactly if no dot stands at its ends and its scan is clean. -/
theorem exists_parse_iff {s : String} : (∃ n, parse s = .ok n) ↔
    s = "" ∨ s.toList.head? ≠ some '.' ∧ s.toList.getLast? ≠ some '.' ∧
      (scan '.' s).unclosed = none ∧ ¬(scan '.' s).Spoiled := by
  rw [← @Scan.invalid?_eq_none_iff (scan '.' s) s]
  unfold parse
  by_cases hs : s = ""
  · simp [hs]
  · have hempty : s.isEmpty = false := by simpa using hs
    simp only [hempty, Bool.false_eq_true, ↓reduceIte, hs, false_or]
    split
    · simp_all
    · split
      · simp_all
      · cases (scan '.' s).invalid? s <;> simp_all

end Name

/-! ## Pieces and elements -/

/-- A word under way is spoiled exactly if it is not canonical. -/
theorem Kind.Follows.spoiled_iff {kind : Option Kind} {cs : List Char} (h : Kind.Follows kind cs) :
    Kind.Spoiled kind ↔ isWord cs = false := by
  unfold Kind.Follows at h
  split at h
  · rename_i hcs
    simp [hcs, h, Kind.Spoiled, isWord]
  · split at h
    · rename_i hw
      rcases Kind.ofWord_eq cs with he | he <;> simp [h, hw, he, Kind.Spoiled]
    · rename_i hw
      simpa [Kind.Spoiled, hw] using h

theorem Kind.Follows.kind_of_isWord {kind : Option Kind} {cs : List Char}
    (h : Kind.Follows kind cs) (hw : isWord cs = true) : kind = some (Kind.ofWord cs) := by
  have hne : cs ≠ [] := by rintro rfl; cases hw
  unfold Kind.Follows at h
  rwa [if_neg hne, if_pos hw] at h

namespace Piece

/-- A word has small letters, digits and dashes alone and starts with no dash. -/
def Canonical : Piece → Prop
  | word cs => TypedConfig.isWord cs = true
  | dot | group _ => True

variable {p : Piece} {r : Run} {ps : List Piece} {runs : List Run}

theorem Reads.spoiled_iff (h : p.Reads r) : Kind.Spoiled r.kind ↔ ¬p.Canonical := by
  cases p with
  | dot => cases h
  | word cs => simpa [Canonical] using h.2.spoiled_iff
  | group cs =>
    have hindex : Kind.ofIndex cs ≠ .nonUniform := by unfold Kind.ofIndex; split <;> nofun
    simp [Canonical, Kind.Spoiled, h.2, hindex]

theorem Reads.element? (h : p.Reads r) (hrun : p.isRun = true) (hp : p.Canonical) :
    r.element? = p.element? := by
  cases p with
  | dot => cases h
  | word cs =>
    obtain ⟨hchars, hkind⟩ := h
    simp [Run.element?, hkind.kind_of_isWord hp, Piece.element?, Run.text, hchars]
  | group cs =>
    obtain ⟨hchars, hkind⟩ := h
    have hne : cs ≠ [] := by simpa [isRun] using hrun
    simp [Run.element?, hkind, Piece.element?, Run.text, hchars, hne]

/-- Runs are clean exactly if the pieces that they are read from are canonical. -/
theorem clean_iff (h : List.Forall₂ Reads ps runs) :
    (∀ r ∈ runs, ¬Kind.Spoiled r.kind) ↔ ∀ p ∈ ps, p.Canonical := by
  induction h with
  | nil => simp
  | cons h _ ih => simp only [List.forall_mem_cons, ih, h.spoiled_iff, not_not]

theorem elements_eq (h : List.Forall₂ Reads ps runs) (hruns : ∀ p ∈ ps, p.isRun = true)
    (hps : ∀ p ∈ ps, p.Canonical) : runs.filterMap Run.element? = ps.filterMap Piece.element? := by
  induction h with
  | nil => rfl
  | cons h _ ih =>
    rw [List.forall_mem_cons] at hruns hps
    rw [List.filterMap_cons, List.filterMap_cons, h.element? hruns.1 hps.1, ih hruns.2 hps.2]

/-- What is no run is no element, and has nothing that could be wrong. -/
theorem quiet_of_not_isRun (h : p.isRun = false) : p.element? = none ∧ p.Canonical := by
  cases p with
  | dot => exact ⟨rfl, trivial⟩
  | word cs => cases h
  | group cs => exact ⟨if_pos (by simpa [isRun] using h), trivial⟩

theorem filterMap_filter_isRun (ps : List Piece) :
    (ps.filter isRun).filterMap Piece.element? = ps.filterMap Piece.element? := by
  rw [List.filterMap_filter]
  refine List.filterMap_congr fun p _ => ?_
  split
  · rfl
  · rename_i h
    exact (quiet_of_not_isRun (by simpa using h)).1.symm

theorem canonical_filter_isRun :
    (∀ p ∈ ps.filter isRun, p.Canonical) ↔ ∀ p ∈ ps, p.Canonical := by
  refine ⟨fun h p hp => ?_, fun h p hp => h p (List.mem_filter.mp hp).1⟩
  cases hr : p.isRun with
  | false => exact (quiet_of_not_isRun hr).2
  | true => exact h p (List.mem_filter.mpr ⟨hp, hr⟩)

end Piece

/-- What a scan finds in a text with pieces. -/
theorem Layout.scan {s : String} {ps : List Piece} (h : Layout s.toList ps) :
    (TypedConfig.scan '.' s).unclosed = none ∧
      (¬(TypedConfig.scan '.' s).Spoiled ↔ ∀ p ∈ ps, p.Canonical) ∧
      ((∀ p ∈ ps, p.Canonical) →
        (TypedConfig.scan '.' s).elements = ps.filterMap Piece.element?) := by
  obtain ⟨runs, hscan, hreads⟩ := h.scanFrom 0
  have hscan : TypedConfig.scan '.' s = ⟨runs, none⟩ := hscan
  rw [hscan]
  refine ⟨rfl, ?_, fun hps => ?_⟩
  · rw [← Piece.canonical_filter_isRun, ← Piece.clean_iff hreads]
    simp [Scan.Spoiled]
  · rw [← Piece.filterMap_filter_isRun]
    exact Piece.elements_eq hreads (fun p hp => (List.mem_filter.mp hp).2)
      (Piece.canonical_filter_isRun.mpr hps)

/-- A text is accepted exactly if no dot stands at its ends, its brackets are balanced and its words
are canonical. -/
theorem Name.exists_parse_iff_layout {s : String} : (∃ n, Name.parse s = .ok n) ↔
    s = "" ∨ s.toList.head? ≠ some '.' ∧ s.toList.getLast? ≠ some '.' ∧ Balanced s.toList ∧
      ∀ ps, Layout s.toList ps → ∀ p ∈ ps, p.Canonical := by
  rw [Name.exists_parse_iff]
  refine or_congr_right (and_congr_right fun _ => and_congr_right fun _ => ?_)
  constructor
  · rintro ⟨hunclosed, hclean⟩
    exact ⟨balanced_of_scan hunclosed hclean, fun ps hps => hps.scan.2.1.mp hclean⟩
  · rintro ⟨hbalanced, hcanonical⟩
    obtain ⟨ps, hps⟩ := balanced_iff_layout.mp hbalanced
    exact ⟨hps.scan.1, hps.scan.2.1.mpr (hcanonical ps hps)⟩

/-- The elements of a name are those of the pieces of its text. -/
theorem Name.elements_of_layout {s : String} {n : Name} {ps : List Piece}
    (h : Name.parse s = .ok n) (hps : Layout s.toList ps) :
    n.elements = ps.filterMap Piece.element? := by
  rw [Window.elements_of_parse h]
  exact hps.scan.2.2 (hps.scan.2.1.mp (Name.not_spoiled_of_parse h))

/-- Strict reading accepts the empty text, and besides exactly the texts that neither start nor end
with a dot, whose brackets are balanced and whose words have small letters, digits and dashes alone
and start with no dash. The pieces of a balanced text are unique, and the elements of an accepted
text are its words and its groups with something in them. -/
theorem Window.parse_accepts_grammar (s : String) :
    ((∃ w, Window.parse s = .ok w) ↔
      s = "" ∨ s.toList.head? ≠ some '.' ∧ s.toList.getLast? ≠ some '.' ∧ Balanced s.toList ∧
        ∀ ps, Layout s.toList ps → ∀ p ∈ ps, p.Canonical) ∧
    (Balanced s.toList → ∃! ps, Layout s.toList ps) ∧
    ∀ w ps, Window.parse s = .ok w → Layout s.toList ps →
      w.elements = .ok (ps.filterMap Piece.element?) := by
  refine ⟨?_, fun h => ?_, fun w ps hw hps => ?_⟩
  · rw [← Name.exists_parse_iff_layout]
    constructor
    · rintro ⟨w, hw⟩
      obtain ⟨n, hn, -⟩ := Window.exists_of_parse hw
      exact ⟨n, hn⟩
    · rintro ⟨n, hn⟩
      exact ⟨_, (Window.shows_parse hn).1⟩
  · obtain ⟨ps, hps⟩ := balanced_iff_layout.mp h
    exact ⟨ps, hps, fun qs hqs => hqs.unique hps⟩
  · obtain ⟨n, hn, hshows⟩ := Window.exists_of_parse hw
    rw [hshows.elements, Name.elements_of_layout hn hps]

example : (do (← Window.parse "a..b-1[x.[y]]c[][07]").elements) =
    .ok [⟨.uniform, "a"⟩, ⟨.dashed, "b-1"⟩, ⟨.indexed, "x.[y]"⟩, ⟨.uniform, "c"⟩,
      ⟨.numeric, "07"⟩] := by decide +kernel

end TypedConfig
