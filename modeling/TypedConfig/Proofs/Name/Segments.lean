import TypedConfig.Proofs.Name.Adapted
import TypedConfig.Proofs.Text.Ascii

/-!
# Lenient spellings

Without brackets a scan cuts a text at its separators and at nothing else (`scanFrom_segments`). If
each segment is empty or has a letter or a digit, none but the empty ones is dropped, and what counts
in the others are their letters and digits (`Name.meaning_adapt`). So two such texts are read as
equal names exactly if they have the same of these (`Window.adapt_same_iff_spelling`).
-/

namespace TypedConfig

/-! ## Segments -/

/-- The segments of a text that are not empty. -/
def segments (sep : Char) (cs : List Char) : List (List Char) :=
  (cs.splitOn sep).filter (!·.isEmpty)

/-- The letters and digits of each segment, in small letters. -/
def spelling (sep : Char) (s : String) : List (List Char) :=
  (segments sep s.toList).map fun segment => (segment.filter Char.isAlphanum).map Char.toLower

/-- The text has no brackets, and each of its segments is empty or has a letter or a digit. -/
structure Segmented (sep : Char) (s : String) : Prop where
  bracketFree : ∀ c ∈ s.toList, c ≠ '[' ∧ c ≠ ']'
  legible : ∀ segment ∈ segments sep s.toList, ∃ c ∈ segment, c.isAlphanum = true

instance (sep : Char) (s : String) : Decidable (Segmented sep s) :=
  decidable_of_iff ((s.toList.all fun c => c != '[' && c != ']') = true ∧
      ((segments sep s.toList).all (·.any Char.isAlphanum)) = true) <| by
    simp only [List.all_eq_true, List.any_eq_true, Bool.and_eq_true, bne_iff_ne, ne_eq]
    exact ⟨fun h => ⟨h.1, h.2⟩, fun h => ⟨h.bracketFree, h.legible⟩⟩

section Scans

variable {sep : Char} {s : String} {cs word : List Char} {offset : Nat} {opened : Option Nat}
  {run : Run}

theorem segments_of_not_mem (h : sep ∉ word) :
    segments sep word = if word.isEmpty then [] else [word] := by
  rw [segments, List.splitOn_eq_singleton h]
  cases word <;> rfl

theorem segments_append_cons (h : sep ∉ word) (cs : List Char) :
    segments sep (word ++ sep :: cs) = (if word.isEmpty then [] else [word]) ++ segments sep cs := by
  rw [segments, List.splitOn_append_cons_self_of_not_mem h]
  cases word <;> rfl

/-- Without brackets a scan finds words only, and these are the segments. -/
theorem scanFrom_segments (hfree : ∀ c ∈ cs, c ≠ '[' ∧ c ≠ ']') (hrun : run.UnderWay 0)
    (hsep : sep ∉ run.chars) :
    (scanFrom sep offset 0 opened run cs).runs.map (fun r => (r.isIndex, r.chars)) =
      (segments sep (run.chars ++ cs)).map (Prod.mk false) := by
  have hindex : run.isIndex = false := hrun.1
  -- The word under way has no separator, so with the rest it is cut where the rest is.
  induction cs generalizing offset run with
  | nil =>
    unfold scanFrom
    rw [if_pos rfl, Scan.runs_cons, List.append_nil, List.append_nil, segments_of_not_mem hsep]
    split <;> simp [hindex]
  | cons c cs ih =>
    obtain ⟨⟨hopen, hclose⟩, hfree⟩ := List.forall_mem_cons.mp hfree
    unfold scanFrom
    simp only [hopen, hclose, ↓reduceIte, hindex, Bool.not_false, Bool.and_true, decide_eq_true_eq]
    by_cases hc : c = sep
    · subst hc
      rw [if_pos rfl, Scan.runs_cons, segments_append_cons hsep, List.map_append, List.map_append]
      refine congrArg₂ _ ?_ (ih hfree (Run.underWay_start_word _) List.not_mem_nil rfl)
      split <;> simp [hindex]
    · have hpush := hrun.push_word c
      rw [if_neg hc, ih hfree hpush ?_ hpush.1]
      · simp [Run.push]
      · simp [Run.push, hsep, Ne.symm hc]

theorem scan_segments (hfree : ∀ c ∈ s.toList, c ≠ '[' ∧ c ≠ ']') :
    (scan sep s).runs.map (fun r => (r.isIndex, r.chars)) =
      (segments sep s.toList).map (Prod.mk false) :=
  scanFrom_segments hfree (Run.underWay_start_word 0) List.not_mem_nil

/-- A word that has a letter or a digit is not dropped, and these are what counts. -/
theorem Run.meaning_of_legible {r : Run} (hr : r ∈ (scan sep s).runs) (hi : r.isIndex = false)
    (hlegible : ∃ c ∈ r.chars, c.isAlphanum = true) : r.element?.map Element.meaning =
      some (false, (r.chars.filter Char.isAlphanum).map Char.toLower) := by
  have hnotVoid : ¬r.Void := by
    rw [Run.void_iff, uniformChars_eq]
    obtain ⟨c, hc, halpha⟩ := hlegible
    rintro ⟨hnil, -⟩
    exact List.ne_nil_of_mem (List.mem_filter.mpr ⟨hc, halpha⟩) (List.map_eq_nil_iff.mp hnil)
  obtain ⟨kind, hkind⟩ : ∃ kind, r.kind = some kind := by
    rw [← Option.ne_none_iff_exists', ne_eq, scan_tracked hr hi]
    exact fun h => hnotVoid h.1
  have hword : Kind.isIndex kind = false := by simpa [Run.isIndex, hkind] using hi
  rw [Run.element?, hkind, ← uniformChars_eq]
  simp [Element.meaning, Element.isIndex, hword, Run.text]

/-- The segments that are not empty are the words of the name, and what counts in each is its letters
and digits. -/
theorem Name.meaning_adapt (h : Segmented sep s) :
    (Name.adapt s sep).meaning = (spelling sep s).map (Prod.mk false) := by
  have hruns := @scan_segments sep s h.bracketFree
  have hkept : ∀ r ∈ (scan sep s).runs, r.element?.map Element.meaning =
      some (false, (r.chars.filter Char.isAlphanum).map Char.toLower) := by
    intro r hr
    have hmem : (r.isIndex, r.chars) ∈ (segments sep s.toList).map (Prod.mk false) :=
      hruns ▸ List.mem_map_of_mem hr
    obtain ⟨segment, hsegment, heq⟩ := List.mem_map.mp hmem
    obtain ⟨hi, rfl⟩ := Prod.mk.inj heq
    exact Run.meaning_of_legible hr hi.symm (h.legible _ hsegment)
  have hmap : ∀ runs : List Run,
      runs.filterMap (fun r => some (false, (r.chars.filter Char.isAlphanum).map Char.toLower)) =
        (runs.map fun r => (r.isIndex, r.chars)).map fun run =>
          (false, (run.2.filter Char.isAlphanum).map Char.toLower) := by
    simp [List.filterMap_eq_map', Function.comp_def]
  show ((scan sep s).runs.filterMap Run.element?).map Element.meaning = _
  rw [List.map_filterMap, List.filterMap_congr hkept, hmap, hruns, spelling]
  simp [Function.comp_def]

end Scans

namespace Window

/-- Two texts without brackets, whose segments are empty or have letters or digits, are read as equal
names exactly if they have the same letters and digits, segment by segment. Then the names compare
as equal and have one hash. -/
theorem adapt_same_iff_spelling {sep sep' : Char} {s t : String} (hs : Segmented sep s)
    (ht : Segmented sep' t) :
    (∃ same, (adapt s sep).same (adapt t sep') = .ok same ∧
        (same = true ↔ spelling sep s = spelling sep' t)) ∧
      (spelling sep s = spelling sep' t →
        (adapt s sep).compare (adapt t sep') = .ok .eq ∧
          ∃ h, (adapt s sep).hash = .ok h ∧ (adapt t sep').hash = .ok h) := by
  have ha := shows_adapt s sep
  have hb := shows_adapt t sep'
  have hm : (Name.adapt s sep).Exact := scan_exact sep s
  have hn : (Name.adapt t sep').Exact := scan_exact sep' t
  have hmeaning : (Name.adapt s sep).meaning = (Name.adapt t sep').meaning ↔
      spelling sep s = spelling sep' t := by
    rw [Name.meaning_adapt hs, Name.meaning_adapt ht]
    exact (List.map_injective_iff.mpr (Prod.mk_right_injective false)).eq_iff
  refine ⟨⟨_, ha.same hb hm hn, ?_⟩, fun h => ⟨?_, _, ha.hash, ?_⟩⟩
  · rw [Name.beq_iff hm.wellFormed hn.wellFormed, hmeaning]
  · rw [ha.compare hb, (Name.compare_eq_eq_iff hm.wellFormed hn.wellFormed).mpr (hmeaning.mpr h)]
  · rw [hb.hash, Name.hash_congr (hmeaning.mpr h)]

/-- Dashes, underscores, capitals, letters beyond the first 128 characters and empty segments are not
seen. -/
theorem adapt_same_fooBar : Segmented '.' "fooBar..x_1é" ∧ Segmented '.' "-foo-bar.X1" ∧
    (∃ same, (adapt "fooBar..x_1é" '.').same (adapt "-foo-bar.X1" '.') = .ok same ∧
      (same = true ↔ spelling '.' "fooBar..x_1é" = spelling '.' "-foo-bar.X1")) ∧
    (adapt "fooBar..x_1é" '.').compare (adapt "-foo-bar.X1" '.') = .ok .eq := by
  have hs : Segmented '.' "fooBar..x_1é" := by decide +kernel
  have ht : Segmented '.' "-foo-bar.X1" := by decide +kernel
  have h := adapt_same_iff_spelling hs ht
  exact ⟨hs, ht, h.1, (h.2 (by decide +kernel)).1⟩

end Window

end TypedConfig
