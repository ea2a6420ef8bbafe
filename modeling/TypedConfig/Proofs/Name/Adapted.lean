import TypedConfig.Proofs.Name.Agreement
import TypedConfig.Proofs.Name.Printed

/-!
# What lenient reading keeps, and the text of it

A word is dropped if nothing is left of it in dashed form. A dash counts for that unless it is the
first character, so a word of dashes is kept, though it has no letter or digit and is equal to every
other such word. And the dashes of a word are kept by where they stood in it: if all characters in
front of one are left out, the dashed form starts with a dash, and no canonical name has such a
word.

* `dashedChars_eq_nil_iff`, `isWord_dashedChars_iff`: when the dashed form is empty, and when it is
  a canonical word.
* `keeps_tracked`: what a scan drops, for every text and separator.
* `keeps_nested`: in a text whose brackets are balanced, words have no brackets, and those of the
  indexes are balanced.
* `Window.adapt_survives_iff`: the words of an adapted name have letters or digits exactly if none
  of the text is hollow, and its text is read as an equal name exactly if no word starts with a dash
  there. Neither is always so (`Window.adapt_leaves_dashes`).
-/

namespace TypedConfig

/-! ## Dashed forms -/

section Dashed

variable {atStart : Bool} {c : Char} {cs : List Char}

theorem eq_dash_of_toLower (h : c.toLower = '-') : c = '-' := by
  unfold Char.toLower at h
  split at h
  · rename_i hc
    have hval := congrArg (fun d : Char => d.val.toNat) h
    have hA : 'A'.val.toNat = 65 := rfl
    have hZ : 'Z'.val.toNat = 90 := rfl
    have hdash : '-'.val.toNat = 45 := rfl
    simp only [ge_iff_le, UInt32.le_iff_toNat_le, hA, hZ, hdash, UInt32.toNat_add] at hc hval
    have h32 : ('a'.val - 'A'.val).toNat = 32 := rfl
    omega
  · exact h

/-- A character is left in dashed form if it is a letter or a digit, or a dash behind the start. -/
theorem isCanonical_toLower_iff : isCanonical atStart c.toLower = true ↔
    isWordChar c.toLower = true ∨ atStart = false ∧ c = '-' := by
  have hdash : c.toLower = '-' ↔ c = '-' := ⟨eq_dash_of_toLower, fun h => by rw [h]; rfl⟩
  simp [isCanonical, hdash]

theorem dashedChars_append_singleton (cs : List Char) (c : Char) : dashedChars (cs ++ [c]) =
    dashedChars cs ++ if isCanonical cs.isEmpty c.toLower then [c.toLower] else [] := by
  cases cs with
  | nil => simp [dashedChars, keepChars]
  | cons d ds =>
    simp only [dashedChars, List.cons_append, List.map_cons, List.map_append, List.map_nil,
      keepChars, List.filter_append, List.filter_cons, List.filter_nil, List.isEmpty_cons]
    split <;> simp

theorem isCanonical_of_mem_dashedChars (h : c ∈ dashedChars cs) : isCanonical false c = true := by
  cases cs with
  | nil => cases h
  | cons d ds =>
    simp only [dashedChars, List.map_cons, keepChars] at h
    split at h
    · rename_i hd
      rcases List.mem_cons.mp h with rfl | h
      · simp only [isCanonical, Bool.not_true, Bool.false_and, Bool.or_false] at hd
        simp [isCanonical, hd]
      · exact (List.mem_filter.mp h).2
    · exact (List.mem_filter.mp h).2

/-- Nothing is left of a word exactly if it has no letter or digit, and no dash but at its start. -/
theorem dashedChars_eq_nil_iff :
    dashedChars cs = [] ↔ uniformChars cs = [] ∧ '-' ∉ cs.tail := by
  induction cs using List.reverseRecOn with
  | nil => simp [dashedChars, keepChars, uniformChars]
  | append_singleton cs c ih =>
    have huniform : uniformChars (cs ++ [c]) = [] ↔
        uniformChars cs = [] ∧ isWordChar c.toLower = false := by
      simp [uniformChars, List.filter_append]
    have hdash : '-' ∉ (cs ++ [c]).tail ↔ '-' ∉ cs.tail ∧ ¬(cs.isEmpty = false ∧ c = '-') := by
      cases cs <;> simp [eq_comm]
    rw [dashedChars_append_singleton, huniform, hdash, List.append_eq_nil_iff, ih]
    have hlast := @isCanonical_toLower_iff cs.isEmpty c
    cases hc : isCanonical cs.isEmpty c.toLower with
    | true =>
      have hlast := hlast.mp hc
      simp only [↓reduceIte, List.cons_ne_self, and_false, false_iff]
      rintro ⟨⟨-, hw⟩, -, hnd⟩
      rcases hlast with h | h
      · rw [hw] at h; cases h
      · exact hnd h
    | false =>
      have hlast := mt hlast.mpr (by simp [hc])
      rw [not_or, Bool.not_eq_true] at hlast
      simp only [Bool.false_eq_true, ↓reduceIte, and_true, hlast, not_false_eq_true]

/-- The dashed form is a canonical word, unless it is empty or starts with a dash. -/
theorem isWord_dashedChars_iff : isWord (dashedChars cs) = true ↔
    dashedChars cs ≠ [] ∧ (dashedChars cs).head? ≠ some '-' := by
  have hall : ∀ c ∈ dashedChars cs, isCanonical false c = true :=
    fun c hc => isCanonical_of_mem_dashedChars hc
  generalize dashedChars cs = ds at hall
  cases ds with
  | nil => simp [isWord]
  | cons d ds =>
    rw [List.forall_mem_cons] at hall
    have hrest : ds.all (fun c => isWordChar c || c == '-') = true :=
      List.all_eq_true.mpr fun c hc => by simpa [isCanonical] using hall.2 c hc
    have hd : d ≠ '-' ↔ isWordChar d = true := by
      refine ⟨fun hne => ?_, not_dash_of_isWordChar⟩
      simpa [isCanonical, hne] using hall.1
    simp [isWord, hrest, hd]

theorem uniformChars_append (cs ds : List Char) :
    uniformChars (cs ++ ds) = uniformChars cs ++ uniformChars ds := by
  simp [uniformChars]

/-- The dashed form has the letters and digits of the word. -/
theorem uniformChars_dashedChars (cs : List Char) :
    uniformChars (dashedChars cs) = uniformChars cs := by
  induction cs using List.reverseRecOn with
  | nil => rfl
  | append_singleton cs c ih =>
    rw [dashedChars_append_singleton, uniformChars_append, uniformChars_append, ih]
    congr 1
    split
    · rename_i hc
      simp [uniformChars, toLower_of_isCanonical hc]
    · rename_i hc
      have hword : isWordChar c.toLower = false := by
        rw [isCanonical_toLower_iff, not_or] at hc
        simpa using hc.1
      simp [uniformChars, hword]

end Dashed

/-- The dashed form of a word has the characters that are left of it. -/
theorem Element.Exact.toList_dashed {e : Element} (h : e.Exact) (hi : e.isIndex = false) :
    (e.render .dashed).toList = dashedChars e.text.toList := by
  rw [render_eq_convert h]
  simp [convert, hi]

/-- The uniform form of a word is empty exactly if the word has no letter or digit. -/
theorem Element.Exact.render_uniform_eq {e : Element} (h : e.Exact) (hi : e.isIndex = false) :
    e.render .uniform = "" ↔ uniformChars e.text.toList = [] := by
  rw [render_eq_convert h, ← String.toList_inj]
  simp [convert, hi, uniformForm]

/-! ## What a scan drops -/

/-- A word under way loses its kind at no character, and gets one at the first that is left in
dashed form. -/
theorem Kind.extend_eq_none_iff {kind : Option Kind} {atStart : Bool} {c : Char} :
    Kind.extend kind atStart c = none ↔ kind = none ∧ isCanonical atStart c.toLower = false := by
  cases kind with
  | none =>
    have hlower : isCanonical atStart c = true → isCanonical atStart c.toLower = true :=
      fun h => by rwa [toLower_of_isCanonical h]
    simp only [Kind.extend, true_and]
    cases hc : isCanonical atStart c <;> cases hl : isCanonical atStart c.toLower <;>
      cases atStart <;> simp_all
  | some kind => cases kind <;> simp only [Kind.extend] <;> (repeat' split) <;> simp

/-- A character ends the run under way or is taken into it. It is noted as an open bracket only if
it is one. -/
theorem scanFrom_cons (sep : Char) (offset depth : Nat) (opened : Option Nat) (run : Run)
    (c : Char) (cs : List Char) :
    (∃ depth' opened' kind,
      scanFrom sep offset depth opened run (c :: cs) = Scan.cons run
        (scanFrom sep (offset + c.utf8Size) depth' opened'
          (.startingAt (offset + c.utf8Size) kind) cs) ∧
      ∀ o, opened' = some o → opened = some o ∨ c = '[' ∧ o = offset) ∨
    ∃ depth' kind, scanFrom sep offset depth opened run (c :: cs) =
      scanFrom sep (offset + c.utf8Size) depth' opened (run.push c kind) cs := by
  rcases bracket_cases c with rfl | rfl | ⟨hopen, hclose⟩
  · cases depth with
    | zero => exact .inl ⟨_, _, _, rfl, by rintro o ⟨⟩; exact .inr ⟨rfl, rfl⟩⟩
    | succ d => exact .inr ⟨_, _, rfl⟩
  · rcases depth with _ | _ | d
    · exact .inr ⟨_, _, rfl⟩
    · exact .inl ⟨_, _, _, rfl, nofun⟩
    · exact .inr ⟨_, _, rfl⟩
  · by_cases hcut : (c = sep && !run.isIndex) = true
    · exact .inl ⟨depth, opened, none,
        by simp only [scanFrom, hopen, hclose, hcut, ↓reduceIte], fun o => .inl⟩
    · exact .inr ⟨depth, Kind.extend run.kind run.chars.isEmpty c,
        by simp only [scanFrom, hopen, hclose, hcut, ↓reduceIte, Bool.false_eq_true]⟩

/-- Nothing is left of the run in dashed form, and no bracket stands in it that closes nothing. -/
def Run.Void (r : Run) : Prop := dashedChars r.chars = [] ∧ ']' ∉ r.chars

theorem Run.void_startingAt (start : Nat) (kind : Option Kind) : (startingAt start kind).Void :=
  ⟨rfl, nofun⟩

namespace Run

variable {sep : Char} {unclosed : Option Nat} {offset depth : Nat} {r : Run} {cs : List Char}

/-- What holds of a run under way in a scan that finds a bracket `unclosed`: the run starts behind
the outermost bracket that is open, and a word has a kind unless it is void. -/
structure Tracked (sep : Char) (unclosed : Option Nat) (offset depth : Nat) (r : Run)
    (cs : List Char) : Prop where
  start : r.start ≤ offset
  opened : ∃ opened, (scanFrom sep offset depth opened r cs).unclosed = unclosed ∧
    if depth = 0 then opened = none else opened.map (· + 1) = some r.start
  word : depth = 0 → (r.kind = none ↔ r.Void)

/-- A bracket that is found unclosed was open before, or stands in the rest. -/
theorem bracket_of_unclosed {opened : Option Nat} {o : Nat}
    (h : (scanFrom sep offset depth opened r cs).unclosed = some o) :
    opened = some o ∨ ∃ before after, cs = before ++ '[' :: after ∧
      o = offset + (String.ofList before).utf8ByteSize := by
  induction cs generalizing offset depth opened r with
  | nil =>
    unfold scanFrom at h
    split at h <;> rw [Scan.unclosed_cons] at h
    · cases h
    · exact .inl h
  | cons c cs ih =>
    have hrest : ∀ {before after}, cs = before ++ '[' :: after →
        o = offset + c.utf8Size + (String.ofList before).utf8ByteSize →
        ∃ before after, c :: cs = before ++ '[' :: after ∧
          o = offset + (String.ofList before).utf8ByteSize := by
      rintro before after rfl rfl
      exact ⟨c :: before, after, rfl, by simp [String.ofList_cons, Nat.add_assoc]⟩
    rcases scanFrom_cons sep offset depth opened r c cs with
      ⟨depth', opened', kind, hstep, hopened⟩ | ⟨depth', kind, hstep⟩ <;> rw [hstep] at h
    · rw [Scan.unclosed_cons] at h
      rcases ih h with hfound | ⟨before, after, hcs, ho⟩
      · rcases hopened o hfound with hfound | ⟨rfl, rfl⟩
        · exact .inl hfound
        · exact .inr ⟨[], cs, rfl, rfl⟩
      · exact .inr (hrest hcs ho)
    · rcases ih h with hfound | ⟨before, after, hcs, ho⟩
      · exact .inl hfound
      · exact .inr (hrest hcs ho)

/-- A run does not start behind an unclosed bracket if none is open where it is over. -/
theorem not_behind {r' : Run} (hfound : (scanFrom sep offset depth none r' cs).unclosed = unclosed)
    (hstart : r.start ≤ offset) : unclosed.map (· + 1) ≠ some r.start := by
  intro hbehind
  obtain ⟨v, rfl, hv⟩ := Option.map_eq_some_iff.mp hbehind
  rcases bracket_of_unclosed hfound with hopened | ⟨before, after, -, hle⟩
  · cases hopened
  · omega

namespace Tracked

theorem not_behind_of_word (h : r.Tracked sep unclosed offset 0 cs) :
    unclosed.map (· + 1) ≠ some r.start := by
  obtain ⟨hstart, ⟨opened, hfound, hopened⟩, -⟩ := h
  rw [show opened = none from hopened] at hfound
  exact not_behind hfound hstart

theorem not_behind_of_index (h : r.Tracked sep unclosed offset 1 (']' :: cs)) :
    unclosed.map (· + 1) ≠ some r.start := by
  obtain ⟨hstart, ⟨opened, hfound, -⟩, -⟩ := h
  have hstep : scanFrom sep offset 1 opened r (']' :: cs) = Scan.cons r (scanFrom sep
      (offset + (']' : Char).utf8Size) 0 none (.startingAt _ none) cs) := rfl
  rw [hstep, Scan.unclosed_cons] at hfound
  exact not_behind hfound (Nat.le_trans hstart (Nat.le_add_right _ _))

/-- Where the text ends inside of brackets, the run under way is behind the unclosed one. -/
theorem behind (h : r.Tracked sep unclosed offset (depth + 1) []) :
    unclosed.map (· + 1) = some r.start := by
  obtain ⟨-, ⟨opened, hfound, hopened⟩, -⟩ := h
  rw [← hfound]
  simpa [scanFrom] using hopened

end Tracked

theorem void_push_iff (r : Run) {c : Char} (hc : c ≠ ']') (kind : Option Kind) :
    (r.push c kind).Void ↔ r.Void ∧ isCanonical r.chars.isEmpty c.toLower = false := by
  simp only [Void, push, dashedChars_append_singleton, List.append_eq_nil_iff, List.mem_append,
    List.mem_singleton, hc.symm, or_false]
  cases isCanonical r.chars.isEmpty c.toLower <;> simp

end Run

/-- A word is dropped exactly if it is void and does not stand behind a bracket that is never
closed. -/
theorem keeps_tracked (sep : Char) (unclosed : Option Nat) :
    Scan.Keeps sep (Run.Tracked sep unclosed) fun r => r.isIndex = false →
      (r.kind = none ↔ r.Void ∧ unclosed.map (· + 1) ≠ some r.start) where
  openIndex := by
    rintro o r cs ⟨-, ⟨opened, hfound, -⟩, -⟩
    refine ⟨Nat.le_refl _, ⟨some o, ?_, rfl⟩, fun h => absurd h Nat.one_ne_zero⟩
    rw [← hfound]
    exact (Scan.unclosed_cons _ _).symm
  closeIndex := by
    rintro o r cs ⟨-, ⟨opened, hfound, -⟩, -⟩
    refine ⟨Nat.le_refl _, ⟨none, ?_, rfl⟩, fun _ => iff_of_true rfl (Run.void_startingAt _ _)⟩
    rw [← hfound]
    exact (Scan.unclosed_cons _ _).symm
  cut := by
    rintro o r cs hopen hclose hr ⟨-, ⟨opened, hfound, hopened⟩, -⟩
    refine ⟨Nat.le_refl _, ⟨opened, ?_, hopened⟩,
      fun _ => iff_of_true rfl (Run.void_startingAt _ _)⟩
    have hindex : r.isIndex = false := hr.1
    rw [← hfound]
    simp [scanFrom, hopen, hclose, hindex]
  pushWord := by
    rintro o r c cs hopen hclose hsep ⟨hstart, ⟨opened, hfound, hopened⟩, hword⟩
    refine ⟨Nat.le_trans hstart (Nat.le_add_right _ _), ⟨opened, ?_, hopened⟩, fun _ => ?_⟩
    · rw [← hfound]
      simp [scanFrom, hopen, hclose, hsep]
    · rw [Run.void_push_iff r hclose, ← hword rfl]
      exact Kind.extend_eq_none_iff
  pushIndex := by
    rintro o d r c cs hopen hclose hr ⟨hstart, ⟨opened, hfound, hopened⟩, -⟩
    refine ⟨Nat.le_trans hstart (Nat.le_add_right _ _), ⟨opened, ?_, hopened⟩,
      fun h => absurd h (Nat.succ_ne_zero d)⟩
    rw [← hfound]
    simp [scanFrom, hopen, hclose, hr.isIndex_eq_true]
  pushOpen := by
    rintro o d r cs ⟨hstart, ⟨opened, hfound, hopened⟩, -⟩
    exact ⟨Nat.le_trans hstart (Nat.le_add_right _ _), ⟨opened, hfound, hopened⟩,
      fun h => absurd h (Nat.succ_ne_zero _)⟩
  pushClose := by
    rintro o d r cs ⟨hstart, ⟨opened, hfound, hopened⟩, -⟩
    exact ⟨Nat.le_trans hstart (Nat.le_add_right _ _), ⟨opened, hfound, hopened⟩,
      fun h => absurd h (Nat.succ_ne_zero _)⟩
  pushStray := by
    rintro o r cs ⟨hstart, ⟨opened, hfound, hopened⟩, -⟩
    refine ⟨Nat.le_trans hstart (Nat.le_add_right _ _), ⟨opened, hfound, hopened⟩, fun _ => ?_⟩
    simp [Run.push, Run.Void]
  word := by
    rintro o r cs - - htracked -
    rw [htracked.word rfl]
    exact (and_iff_left htracked.not_behind_of_word).symm
  index := by
    rintro o r cs - hr - hword
    rw [hr.isIndex_eq_true] at hword
    cases hword
  left := by
    rintro o d r - htracked -
    simp [htracked.behind]

/-- A word of the text that is kept without a letter or a digit: a dash stands behind its first
character, it has a bracket that closes nothing, or it stands behind a bracket that is never
closed. -/
def Run.Hollow (found : Scan) (r : Run) : Prop :=
  r.isIndex = false ∧ uniformChars r.chars = [] ∧
    ('-' ∈ r.chars.tail ∨ ']' ∈ r.chars ∨ found.unclosed.map (· + 1) = some r.start)

theorem Run.void_iff {r : Run} :
    r.Void ↔ uniformChars r.chars = [] ∧ '-' ∉ r.chars.tail ∧ ']' ∉ r.chars := by
  rw [Void, dashedChars_eq_nil_iff, and_assoc]

theorem Run.tracked_start (sep : Char) (s : String) :
    Tracked sep (scan sep s).unclosed 0 0 (startingAt 0 none) s.toList :=
  ⟨Nat.le_refl _, ⟨none, rfl, rfl⟩, fun _ => iff_of_true rfl (void_startingAt _ _)⟩

/-- A word is dropped exactly if it is void and does not stand behind a bracket that is never
closed, for every text and every separator. -/
theorem scan_tracked {sep : Char} {s : String} {r : Run} (hr : r ∈ (scan sep s).runs)
    (hi : r.isIndex = false) :
    r.kind = none ↔ r.Void ∧ (scan sep s).unclosed.map (· + 1) ≠ some r.start :=
  scanFrom_keeps (keeps_tracked sep _) (Run.underWay_start_word 0) (Run.tracked_start sep s) r hr hi

/-- The hollow words are those that are kept without a letter or a digit. -/
theorem hollow_iff {sep : Char} {s : String} {r : Run} (hr : r ∈ (scan sep s).runs) :
    r.Hollow (scan sep s) ↔
      r.isIndex = false ∧ uniformChars r.chars = [] ∧ r.kind.isSome = true := by
  refine and_congr_right fun hi => and_congr_right fun hu => ?_
  rw [Option.isSome_iff_ne_none, ne_eq, scan_tracked hr hi, Run.void_iff]
  simp only [hu, true_and]
  tauto

/-! ## Texts whose brackets are balanced -/

/-- What holds of a run under way where the rest of the text closes all brackets that are open. -/
structure Run.Nested (depth : Nat) (r : Run) (cs : List Char) : Prop where
  rest : depthFrom depth cs = some 0
  run : match depth with
    | 0 => ']' ∉ r.chars
    | d + 1 => depthFrom 0 r.chars = some d

/-- The run is a word without a bracket that closes nothing, or an index with balanced brackets. -/
structure Run.Closed (r : Run) : Prop where
  nonempty : r.chars ≠ []
  word : r.isIndex = false → ']' ∉ r.chars
  index : r.isIndex = true → Balanced r.chars

/-- Where all brackets are balanced, words have none of them and those of the indexes are
balanced. -/
theorem keeps_nested (sep : Char) : Scan.Keeps sep (fun _ => Run.Nested) Run.Closed where
  openIndex h := ⟨h.rest, rfl⟩
  closeIndex h := ⟨h.rest, List.not_mem_nil⟩
  cut hopen hclose _ h := ⟨depthFrom_other hopen hclose _ _ ▸ h.rest, List.not_mem_nil⟩
  pushWord {_ r _ _} hopen hclose _ h := by
    have hrun : ']' ∉ r.chars := h.run
    refine ⟨depthFrom_other hopen hclose _ _ ▸ h.rest, ?_⟩
    simpa [Run.push, hclose.symm] using hrun
  pushIndex {_ d r _ _} hopen hclose _ h := by
    have hrun : depthFrom 0 r.chars = some d := h.run
    refine ⟨depthFrom_other hopen hclose _ _ ▸ h.rest, ?_⟩
    simp [Run.push, depthFrom_append, hrun, depthFrom_other hopen hclose]
  pushOpen {_ d r _} h := by
    have hrun : depthFrom 0 r.chars = some d := h.run
    exact ⟨h.rest, by simp [Run.push, depthFrom_append, hrun]⟩
  pushClose {_ d r _} h := by
    have hrun : depthFrom 0 r.chars = some (d + 1) := h.run
    exact ⟨h.rest, by simp [Run.push, depthFrom_append, hrun]⟩
  pushStray h := by cases h.rest
  word hne hr h := by
    refine ⟨hne, fun _ => h.run, fun hi => ?_⟩
    rw [hr.1] at hi
    cases hi
  index hne hr h := by
    refine ⟨hne, fun hi => ?_, fun _ => balanced_iff_depth.mpr h.run⟩
    rw [hr.isIndex_eq_true] at hi
    cases hi
  left _ h := by cases h.rest

section Balanced

variable {sep : Char} {s : String}

/-- An element has the characters of its run. -/
theorem Run.of_element? {r : Run} {e : Element} (h : r.element? = some e) :
    r.kind = some e.kind ∧ e.isIndex = r.isIndex ∧ e.text.toList = r.chars := by
  obtain ⟨kind, hk, rfl⟩ := Option.map_eq_some_iff.mp h
  exact ⟨hk, by simp [Element.isIndex, isIndex, hk], String.toList_ofList⟩

theorem scan_closed (hb : Balanced s.toList) : ∀ r ∈ (scan sep s).runs, r.Closed :=
  scanFrom_keeps (keeps_nested sep) (Run.underWay_start_word 0)
    ⟨balanced_iff_depth.mp hb, List.not_mem_nil⟩

theorem unclosed_of_balanced (hb : Balanced s.toList) : (scan sep s).unclosed = none := by
  have hopen : (scan sep s).unclosed.isSome = true ↔ 0 ≠ 0 :=
    scanFrom_unclosed_of_depth (balanced_iff_depth.mp hb) (fun h => absurd rfl h) 0 _
  simpa using hopen

/-- The elements of a text whose brackets are balanced stand as pieces in the text of the name. -/
theorem printable_of_balanced (hb : Balanced s.toList) : (Name.adapt s sep).Printable := by
  intro e he
  obtain ⟨r, hr, hre⟩ := List.mem_filterMap.mp he
  obtain ⟨hk, hindex, hchars⟩ := Run.of_element? hre
  have hclosed := scan_closed hb r hr
  cases hi : e.isIndex with
  | true =>
    refine .index hi ?_ ?_ <;> rw [hchars]
    · exact hclosed.nonempty
    · exact hclosed.index (hindex ▸ hi)
  | false =>
    have hdashed := (scan_exact sep s e he).toList_dashed hi
    rw [hchars] at hdashed
    refine .word hi (fun hnil => ?_) fun c hc => ?_
    · have hvoid : r.Void := ⟨hdashed ▸ hnil, hclosed.word (hindex ▸ hi)⟩
      have hnone : r.kind = none :=
        (scan_tracked hr (hindex ▸ hi)).mpr ⟨hvoid, by simp [unclosed_of_balanced hb]⟩
      rw [hk] at hnone
      cases hnone
    · exact isPlainChar_of_isCanonical (isCanonical_of_mem_dashedChars (hdashed ▸ hc))

end Balanced

/-! ## Reading the text again -/

section Reading

variable {e : Element} {m n : Name}

/-- The piece of an element is canonical, unless it is a word that starts with a dash. -/
theorem Element.Printable.canonical_piece_iff (h : e.Printable) (hexact : e.Exact) :
    e.piece.Canonical ↔ (e.isIndex = false → (e.render .dashed).toList.head? ≠ some '-') := by
  cases h with
  | index hi =>
    rw [piece_of_index hi, hi]
    exact iff_of_true trivial nofun
  | word hi hne =>
    rw [piece_of_word hi, hi]
    rw [hexact.toList_dashed hi] at hne ⊢
    show isWord _ = true ↔ _
    rw [isWord_dashedChars_iff]
    simp [hne]

/-- What is read of the piece of an element means what the element does. -/
theorem Element.Printable.meaning_piece (h : e.Printable) (hexact : e.Exact) :
    e.piece.element?.map Element.meaning = some e.meaning := by
  cases h with
  | index hi hne =>
    have hindex : isIndex ⟨Kind.ofIndex e.text.toList, e.text⟩ = true := Kind.isIndex_ofIndex _
    simp [piece_of_index hi, Piece.element?, hne, meaning, hindex, hi]
  | word hi hne =>
    have hword := (piece_ofWord (e.render .dashed).toList).1
    rw [hexact.toList_dashed hi] at hword
    simp [piece_of_word hi, Piece.element?, hexact.toList_dashed hi, meaning, hword, hi,
      uniformChars_dashedChars]

/-- The text of a name is accepted exactly if no word of it starts with a dash in dashed form. -/
theorem Name.Printable.exists_parse_iff_head (h : n.Printable) (hexact : n.Exact) :
    (∃ m, Name.parse n.text = .ok m) ↔
      ∀ e ∈ n.elements, e.isIndex = false → (e.render .dashed).toList.head? ≠ some '-' := by
  rw [h.exists_parse_iff]
  exact forall₂_congr fun e he => (h e he).canonical_piece_iff (hexact e he)

/-- What is read of the text of a name means what the name does. -/
theorem Name.Printable.meaning_of_parse (h : n.Printable) (hexact : n.Exact)
    (hm : Name.parse n.text = .ok m) : m.meaning = n.meaning := by
  rw [Name.meaning, h.elements_of_parse hm, List.map_filterMap, Name.meaning,
    ← List.filterMap_eq_map]
  exact List.filterMap_congr fun e he => (h e he).meaning_piece (hexact e he)

end Reading

/-- No word of an adapted name is without letters and digits exactly if none of the text is hollow.
If the brackets of the text are balanced, the text of the name is accepted exactly if no word starts
with a dash in dashed form, and what is read of it is equal to the name. -/
theorem Window.adapt_survives_iff (s : String) (sep : Char) : ∃ es text,
    (adapt s sep).elements = .ok es ∧ (adapt s sep).text = .ok text ∧
      ((∀ e ∈ es, e.isIndex = false → e.render .uniform ≠ "") ↔
        ∀ r ∈ (scan sep s).runs, ¬r.Hollow (scan sep s)) ∧
      (Balanced s.toList →
        ((∃ v, parse text = .ok v) ↔
          ∀ e ∈ es, e.isIndex = false → (e.render .dashed).toList.head? ≠ some '-') ∧
        ∀ v, parse text = .ok v → v.same (adapt s sep) = .ok true) := by
  have hw := shows_adapt s sep
  have hexact : (Name.adapt s sep).Exact := scan_exact sep s
  refine ⟨(Name.adapt s sep).elements, (Name.adapt s sep).text, hw.elements, hw.text hexact, ?_,
    fun hb => ⟨?_, fun v hv => ?_⟩⟩
  · constructor
    · intro hall r hr hhollow
      obtain ⟨hi, hu, hk⟩ := (hollow_iff hr).mp hhollow
      obtain ⟨e, hre⟩ : ∃ e, r.element? = some e :=
        Option.isSome_iff_exists.mp (by simpa [Run.element?] using hk)
      obtain ⟨-, hindex, hchars⟩ := Run.of_element? hre
      have he : e ∈ (Name.adapt s sep).elements := List.mem_filterMap.mpr ⟨r, hr, hre⟩
      rw [← hindex] at hi
      rw [← hchars] at hu
      exact hall e he hi (((hexact e he).render_uniform_eq hi).mpr hu)
    · intro hall e he hi hempty
      obtain ⟨r, hr, hre⟩ := List.mem_filterMap.mp he
      obtain ⟨hk, hindex, hchars⟩ := Run.of_element? hre
      rw [(hexact e he).render_uniform_eq hi, hchars] at hempty
      exact hall r hr ((hollow_iff hr).mpr ⟨hindex ▸ hi, hempty, by simp [hk]⟩)
  · rw [← (printable_of_balanced hb).exists_parse_iff_head hexact]
    constructor
    · rintro ⟨v, hv⟩
      obtain ⟨m, hm, -⟩ := exists_of_parse hv
      exact ⟨m, hm⟩
    · rintro ⟨m, hm⟩
      exact ⟨_, (shows_parse hm).1⟩
  · obtain ⟨m, hm, hshows⟩ := exists_of_parse hv
    have hmexact : m.Exact := elements_of_parse hm ▸ scan_exact '.' _
    exact (hshows.same_iff hw hmexact hexact).mpr
      ((printable_of_balanced hb).meaning_of_parse hexact hm)

/-- A word of dashes, and a bracket that closes nothing, are kept without a letter or a digit. And a
dash behind an underscore starts the text of a name, which is refused. -/
theorem Window.adapt_leaves_dashes :
    ((adapt "--" '.').elements = .ok [⟨.nonUniform, "--"⟩] ∧
      Element.render .uniform ⟨.nonUniform, "--"⟩ = "") ∧
    ((adapt "]" '.').elements = .ok [⟨.nonUniform, "]"⟩] ∧
      Element.render .uniform ⟨.nonUniform, "]"⟩ = "") ∧
    Balanced "_-a".toList ∧ (adapt "_-a" '.').text = .ok "-a" ∧
      parse "-a" = .error (.invalid ⟨"-a", ['-'], 0⟩) := by
  decide +kernel

end TypedConfig
