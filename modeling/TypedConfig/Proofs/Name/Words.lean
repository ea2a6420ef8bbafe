import TypedConfig.Proofs.Name.Adapted

/-!
# The runs of a text, one after the other

A character ends the run under way, and another one starts behind it, or it is taken into it. So the
runs stand in the text one after the other (`scan_inOrder`), and none of them is empty
(`chars_ne_nil_of_scanFrom`). A word is made of its characters one by one, and of nothing else
(`Run.TakenIn`), unless it stands behind a bracket that is never closed (`scan_takenIn`). So a word
that is scanned by itself comes out as it is (`Run.TakenIn.elements`).
-/

namespace TypedConfig

/-! ## Runs in order -/

section Steps

variable {sep : Char} {offset depth : Nat} {opened : Option Nat} {run : Run} {cs : List Char}

/-- The runs of a scan start where the run under way does, or behind it. -/
theorem start_le_of_mem {r : Run} (hr : r ∈ (scanFrom sep offset depth opened run cs).runs)
    (hstart : run.start ≤ offset) : run.start ≤ r.start := by
  induction cs generalizing offset depth opened run with
  | nil =>
    unfold scanFrom at hr
    split at hr
    · rcases Scan.mem_cons hr with ⟨rfl, -⟩ | hr
      · exact Nat.le_refl _
      · cases hr
    · rcases Scan.mem_cons hr with ⟨rfl, -⟩ | hr
      · exact Nat.le_refl _
      · cases hr
  | cons c cs ih =>
    have hnext : offset ≤ offset + c.utf8Size := Nat.le_add_right _ _
    rcases scanFrom_cons sep offset depth opened run c cs with
      ⟨depth', opened', kind, hstep, -⟩ | ⟨depth', kind, hstep⟩ <;> rw [hstep] at hr
    · rcases Scan.mem_cons hr with ⟨rfl, -⟩ | hr
      · exact Nat.le_refl _
      · exact Nat.le_trans hstart (Nat.le_trans hnext (ih hr (Nat.le_refl _)))
    · have hlater : (run.push c kind).start ≤ r.start := ih hr (Nat.le_trans hstart hnext)
      exact hlater

/-- The second run starts where the first one ends, or behind that. -/
def Run.Before (r r' : Run) : Prop := r.start + r.text.utf8ByteSize ≤ r'.start

/-- If the run under way ends where the scan is, all runs stand one after the other. -/
theorem scanFrom_inOrder (hend : run.start + run.text.utf8ByteSize = offset) :
    (scanFrom sep offset depth opened run cs).runs.Pairwise Run.Before := by
  induction cs generalizing offset depth opened run with
  | nil =>
    unfold scanFrom Scan.cons
    split <;> split <;> simp
  | cons c cs ih =>
    rcases scanFrom_cons sep offset depth opened run c cs with
      ⟨depth', opened', kind, hstep, -⟩ | ⟨depth', kind, hstep⟩ <;> rw [hstep]
    · have hrest := @ih (offset + c.utf8Size) depth' opened' (.startingAt _ kind) rfl
      unfold Scan.cons
      split
      · exact hrest
      · refine .cons (fun r hr => ?_) hrest
        show run.start + run.text.utf8ByteSize ≤ r.start
        rw [hend]
        exact Nat.le_trans (Nat.le_add_right _ _) (start_le_of_mem hr (Nat.le_refl _))
    · refine ih ?_
      rw [← hend]
      simp [Run.push, Run.text, Nat.add_assoc]

/-- The runs of a text stand in it one after the other. -/
theorem scan_inOrder (sep : Char) (s : String) : (scan sep s).runs.Pairwise Run.Before :=
  scanFrom_inOrder rfl

/-- No run is empty. -/
theorem chars_ne_nil_of_scanFrom :
    ∀ r ∈ (scanFrom sep offset depth opened run cs).runs, r.chars ≠ [] := by
  induction cs generalizing offset depth opened run with
  | nil =>
    unfold scanFrom Scan.cons
    split <;> split <;> simp_all
  | cons c cs ih =>
    intro r hr
    rcases scanFrom_cons sep offset depth opened run c cs with
      ⟨depth', opened', kind, hstep, -⟩ | ⟨depth', kind, hstep⟩ <;> rw [hstep] at hr
    · rcases Scan.mem_cons hr with ⟨rfl, hne⟩ | hr
      · exact hne
      · exact ih r hr
    · exact ih r hr

end Steps

/-! ## Words -/

namespace Run

/-- The word with one more character. A closing bracket closes nothing there. -/
def takeIn (r : Run) (c : Char) : Run :=
  r.push c (if c = ']' then some .nonUniform else Kind.extend r.kind r.chars.isEmpty c)

/-- The run is what its characters make of a word, one after the other, and none of them ends it. A
closing bracket ends no word, not even as a separator. -/
structure TakenIn (sep : Char) (r : Run) : Prop where
  whole : r.chars.foldl takeIn (startingAt r.start none) = r
  free : ∀ c ∈ r.chars, c ≠ '[' ∧ (c = sep → c = ']')

variable {sep c : Char} {r : Run} {cs : List Char}

theorem takenIn_startingAt (sep : Char) (start : Nat) : (startingAt start none).TakenIn sep :=
  ⟨rfl, nofun⟩

theorem TakenIn.push (h : r.TakenIn sep) (hopen : c ≠ '[') (hsep : c = sep → c = ']') :
    (r.takeIn c).TakenIn sep where
  whole := by
    show (r.chars ++ [c]).foldl Run.takeIn (startingAt r.start none) = _
    rw [List.foldl_append, h.whole]
    rfl
  free := by
    intro d hd
    rcases List.mem_append.mp hd with hd | hd
    · exact h.free d hd
    · rw [List.mem_singleton.mp hd]
      exact ⟨hopen, hsep⟩

/-- The kind of a word follows from its characters. -/
theorem TakenIn.follows (h : r.TakenIn sep) : Kind.Follows r.kind r.chars := by
  have hfold : ∀ (cs : List Char) (run : Run), Kind.Follows run.kind run.chars →
      Kind.Follows (cs.foldl Run.takeIn run).kind (cs.foldl Run.takeIn run).chars := by
    intro cs
    induction cs with
    | nil => exact fun _ => id
    | cons c cs ih =>
      intro run hrun
      refine ih _ ?_
      by_cases hc : c = ']'
      · subst hc
        exact Kind.Follows.stray run.chars
      · have hnext := hrun.extend c
        simp only [Run.takeIn, if_neg hc]
        exact hnext
  have hstart := hfold r.chars (startingAt r.start none) Kind.Follows.nil
  rwa [h.whole] at hstart

/-- Where a word starts does not count for what its characters make of it. -/
theorem foldl_takeIn (cs : List Char) (start start' : Nat) (kind : Option Kind)
    (chars : List Char) : cs.foldl takeIn ⟨start', kind, chars⟩ =
      { cs.foldl takeIn ⟨start, kind, chars⟩ with start := start' } := by
  induction cs generalizing kind chars with
  | nil => rfl
  | cons c cs ih => exact ih _ _

end Run

section Scans

variable {sep : Char} {s : String} {r : Run} {offset : Nat} {opened : Option Nat} {run : Run}
  {cs : List Char}

/-- Characters that end no word are taken into the one under way. -/
theorem scanFrom_takeIn (h : ∀ c ∈ cs, c ≠ '[' ∧ (c = sep → c = ']')) :
    scanFrom sep offset 0 opened run cs = Scan.cons (cs.foldl Run.takeIn run) ⟨[], none⟩ := by
  induction cs generalizing offset run with
  | nil => rfl
  | cons c cs ih =>
    obtain ⟨⟨hopen, hsep⟩, h⟩ := List.forall_mem_cons.mp h
    rw [List.foldl_cons, ← @ih (offset + c.utf8Size) _ h]
    by_cases hclose : c = ']'
    · subst hclose
      rfl
    · simp [scanFrom, Run.takeIn, mt hsep hclose, hopen, hclose]

/-- A word that is scanned by itself is the only run, and as it was. -/
theorem Run.TakenIn.elements (h : r.TakenIn sep) (hne : r.chars ≠ []) :
    (scan sep r.text).elements = r.element?.toList := by
  have hscan : scan sep r.text = ⟨[{ r with start := 0 }], none⟩ := by
    have hfree : ∀ c ∈ r.text.toList, c ≠ '[' ∧ (c = sep → c = ']') := by
      simpa [text] using h.free
    have hrun : r.chars.foldl Run.takeIn (startingAt 0 none) = { r with start := 0 } := by
      rw [startingAt, foldl_takeIn r.chars r.start 0, ← startingAt, h.whole]
    rw [scan, scanFrom_takeIn hfree, text, String.toList_ofList, hrun]
    simp [Scan.cons, hne]
  rw [hscan]
  cases hk : r.kind <;> simp [Scan.elements, element?, hk, text]

/-- Outside of brackets every step takes a character into the word, or starts another one. -/
theorem keeps_takenIn (sep : Char) :
    Scan.Keeps sep (fun _ depth r _ => depth = 0 → r.TakenIn sep) fun _ => True where
  openIndex _ := nofun
  closeIndex _ := fun _ => Run.takenIn_startingAt sep _
  cut _ _ _ _ := fun _ => Run.takenIn_startingAt sep _
  pushWord {_ r c _} hopen hclose hsep h _ := by
    have hpush := (h rfl).push hopen fun hc => absurd hc hsep
    simpa [Run.takeIn, hclose] using hpush
  pushIndex _ _ _ _ := nofun
  pushOpen _ := nofun
  pushClose _ := nofun
  pushStray h _ := (h rfl).push (by decide) fun _ => rfl
  word _ _ _ := trivial
  index _ _ _ := trivial
  left _ _ := trivial

theorem keeps_word (sep : Char) (unclosed : Option Nat) :
    Scan.Keeps sep (fun offset depth r cs => Run.Tracked sep unclosed offset depth r cs ∧
        (depth = 0 → r.TakenIn sep)) fun r =>
      r.isIndex = false → unclosed.map (· + 1) ≠ some r.start → r.TakenIn sep := by
  refine (keeps_tracked sep unclosed).and (keeps_takenIn sep) ?_ ?_ ?_
  · intro o r cs _ _ hword _ _
    exact hword rfl
  · intro o r cs hindex _ _ hword
    rw [hindex.isIndex_eq_true] at hword
    cases hword
  · intro o d r htracked _ _ hbefore
    exact absurd htracked.behind hbefore

/-- A word of a text is made of its characters alone, unless it stands behind a bracket that is
never closed, for every text and every separator. -/
theorem scan_takenIn (hr : r ∈ (scan sep s).runs) (hi : r.isIndex = false)
    (hbefore : (scan sep s).unclosed.map (· + 1) ≠ some r.start) : r.TakenIn sep :=
  scanFrom_keeps (keeps_word sep _) (Run.underWay_start_word 0)
    ⟨Run.tracked_start sep s, fun _ => Run.takenIn_startingAt sep 0⟩ r hr hi hbefore

end Scans

end TypedConfig
