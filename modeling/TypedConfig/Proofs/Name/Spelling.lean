import TypedConfig.Name.Window
import TypedConfig.Proofs.Name.Built
import TypedConfig.Proofs.Text.Slice

/-!
# Canonical words, and what a scan makes of a text

A canonical word is a small letter or a digit with small letters, digits and dashes after it. The
kind that a scan gives a run says exactly which characters it has: a word is uniform or dashed if
and only if it is canonical, and dashed if it has a dash; an index is numeric if it is digits alone
(`Kind.Exact`). And each run stands in the text where it says (`Run.Sound`).

* `Kind.Follows.extend`: the kind of a word is right after each of its characters.
* `scan_sound`: the runs of a scan are sound, for every text and every separator.
* `Name.Exact`: all elements of a name are of the right kind. Joining and cutting keep that.
-/

namespace TypedConfig

open Number

/-! ## Words -/

/-- A canonical word. -/
def isWord : List Char → Bool
  | [] => false
  | c :: cs => isWordChar c && cs.all fun d => isWordChar d || d == '-'

/-- The kind of a canonical word. -/
def Kind.ofWord (cs : List Char) : Kind := if cs.contains '-' then .dashed else .uniform

/-- The kind of an index. -/
def Kind.ofIndex (cs : List Char) : Kind := if isDigits cs then .numeric else .indexed

/-- The characters are exactly such as the kind says. -/
def Kind.Exact (kind : Kind) (cs : List Char) : Prop :=
  match kind with
  | .uniform | .dashed => isWord cs = true ∧ kind = Kind.ofWord cs
  | .nonUniform => True
  | .indexed | .numeric => kind = Kind.ofIndex cs

theorem isWord_append_singleton {cs : List Char} (h : cs ≠ []) (c : Char) :
    isWord (cs ++ [c]) = (isWord cs && isCanonical false c) := by
  cases cs with
  | nil => exact absurd rfl h
  | cons d ds => simp [isWord, isCanonical, Bool.and_assoc]

theorem Kind.ofWord_append_singleton (cs : List Char) (c : Char) :
    Kind.ofWord (cs ++ [c]) = if c = '-' then .dashed else Kind.ofWord cs := by
  by_cases hc : c = '-' <;> simp [Kind.ofWord, hc, eq_comm]

theorem Kind.ofWord_eq (cs : List Char) : Kind.ofWord cs = .uniform ∨ Kind.ofWord cs = .dashed := by
  unfold Kind.ofWord
  split
  · exact .inr rfl
  · exact .inl rfl

theorem not_dash_of_isWordChar {c : Char} (h : isWordChar c = true) : c ≠ '-' := by
  rintro rfl
  revert h
  decide

/-- The kind of a word under way, which has these characters so far. -/
def Kind.Follows (kind : Option Kind) (cs : List Char) : Prop :=
  if cs = [] then kind = none
  else if isWord cs then kind = some (Kind.ofWord cs)
  else kind = none ∨ kind = some .nonUniform

namespace Kind.Follows

variable {kind : Option Kind} {cs : List Char}

theorem nil : Follows none [] := rfl

/-- Whatever the characters, a word under way is no index. -/
theorem not_isIndex (h : Follows kind cs) : kind.any Kind.isIndex = false := by
  unfold Follows at h
  split at h
  · rw [h]; rfl
  · split at h
    · rw [h]
      rcases Kind.ofWord_eq cs with he | he <;> rw [he] <;> rfl
    · rcases h with h | h <;> rw [h] <;> rfl

/-- A word that is not canonical is not going to be. -/
theorem spoiled (hne : cs ≠ []) (hw : isWord cs = false)
    (hk : kind = none ∨ kind = some .nonUniform) : Follows kind cs := by
  unfold Follows
  rw [if_neg hne, hw]
  exact hk

theorem canonical (hw : isWord cs = true) : Follows (some (Kind.ofWord cs)) cs := by
  have hne : cs ≠ [] := by rintro rfl; cases hw
  unfold Follows
  rw [if_neg hne, if_pos hw]

/-- One more character. -/
theorem extend (h : Follows kind cs) (c : Char) :
    Follows (Kind.extend kind cs.isEmpty c) (cs ++ [c]) := by
  have hne : cs ++ [c] ≠ [] := by simp
  by_cases hcs : cs = []
  · subst hcs
    obtain rfl : kind = none := h
    by_cases hc : isWordChar c = true
    · have hword : Kind.ofWord [c] = .uniform := by
        simp [Kind.ofWord, (not_dash_of_isWordChar hc).symm]
      have hkind : Kind.extend none true c = some (Kind.ofWord [c]) := by
        simp [Kind.extend, isCanonical, hc, hword]
      have hcanonical : isWord [c] = true := by simp [isWord, hc]
      simpa [hkind] using canonical hcanonical
    · refine spoiled hne (by simpa [isWord] using hc) ?_
      simp only [Kind.extend, List.isEmpty_nil, isCanonical, hc]
      split <;> simp_all
  · have hempty : cs.isEmpty = false := by simpa using hcs
    rw [hempty]
    unfold Follows at h
    rw [if_neg hcs] at h
    by_cases hw : isWord cs = true
    · rw [if_pos hw] at h
      subst h
      by_cases hc : isCanonical false c = true
      · have hkind : Kind.extend (some (Kind.ofWord cs)) false c =
            some (Kind.ofWord (cs ++ [c])) := by
          rw [Kind.ofWord_append_singleton]
          by_cases hd : c = '-'
          · subst hd
            rcases Kind.ofWord_eq cs with he | he <;> rw [he] <;> rfl
          · rcases Kind.ofWord_eq cs with he | he <;> rw [he] <;> simp [Kind.extend, hd, hc]
        rw [hkind]
        exact canonical (by rw [isWord_append_singleton hcs, hw, hc]; rfl)
      · have hd : c ≠ '-' := by rintro rfl; exact hc rfl
        refine spoiled hne (by simp [isWord_append_singleton hcs, hc]) (.inr ?_)
        rcases Kind.ofWord_eq cs with he | he <;> rw [he] <;> simp [Kind.extend, hd, hc]
    · rw [if_neg hw] at h
      refine spoiled hne (by simp [isWord_append_singleton hcs, hw]) ?_
      rcases h with rfl | rfl
      · simp only [Kind.extend]
        split
        · exact .inr rfl
        · split
          · exact .inr rfl
          · exact .inl rfl
      · exact .inr rfl

/-- A closing bracket without an opening one. -/
theorem stray (cs : List Char) : Follows (some .nonUniform) (cs ++ [']']) := by
  refine spoiled (by simp) ?_ (.inr rfl)
  by_cases hcs : cs = []
  · subst hcs; rfl
  · rw [isWord_append_singleton hcs]
    exact Bool.and_false _

theorem exact {kind : Kind} (h : Follows (some kind) cs) : kind.Exact cs := by
  unfold Follows at h
  split at h
  · cases h
  · split at h
    · rename_i hw
      cases h
      rcases Kind.ofWord_eq cs with he | he <;> rw [he] <;> exact ⟨hw, he.symm⟩
    · rcases h with h | h
      · cases h
      · cases h; trivial

end Kind.Follows

theorem Kind.exact_ofIndex (cs : List Char) : (Kind.ofIndex cs).Exact cs := by
  unfold Kind.ofIndex
  split
  · rename_i h
    simp [Kind.Exact, Kind.ofIndex, h]
  · rename_i h
    simp [Kind.Exact, Kind.ofIndex, h]

/-! ## Runs -/

/-- The run is of the right kind and stands in the text where it says. -/
structure Run.Sound (source : String) (r : Run) : Prop where
  exact : ∀ kind, r.kind = some kind → kind.Exact r.chars
  stands : Text.slice? source r.start (r.start + r.text.utf8ByteSize) = some r.text

/-- What holds of a scan at an offset inside so many brackets, with a run under way and the rest of
the text before it. -/
structure Run.OnTheWay (source : String) (offset depth : Nat) (r : Run) (cs : List Char) : Prop where
  place : ∃ before, source = before ++ r.text ++ String.ofList cs ∧
    r.start = before.utf8ByteSize ∧ offset = (before ++ r.text).utf8ByteSize
  kind : r.UnderWay depth
  word : depth = 0 → Kind.Follows r.kind r.chars

namespace Run.OnTheWay

variable {source : String} {offset depth : Nat} {r : Run} {c : Char} {cs : List Char}

theorem start (s : String) : OnTheWay s 0 0 (.startingAt 0 none) s.toList where
  place := ⟨"", by simp [startingAt, text], rfl, rfl⟩
  kind := underWay_start_word 0
  word := fun _ => Kind.Follows.nil

/-- The offset of a run that starts behind a character. -/
theorem place_start (h : r.OnTheWay source offset depth (c :: cs)) (kind : Option Kind) :
    ∃ before, source = before ++ (startingAt (offset + c.utf8Size) kind).text ++ String.ofList cs ∧
      (startingAt (offset + c.utf8Size) kind).start = before.utf8ByteSize ∧
      offset + c.utf8Size =
        (before ++ (startingAt (offset + c.utf8Size) kind).text).utf8ByteSize := by
  obtain ⟨before, hs, -, ho⟩ := h.place
  refine ⟨before ++ r.text ++ String.singleton c, ?_, ?_, ?_⟩
  · rw [hs]
    simp [startingAt, text, ← String.toList_inj]
  · simp [startingAt, ho, String.utf8ByteSize_append]
  · simp [startingAt, text, ho, String.utf8ByteSize_append]

/-- The offset behind a character that the run takes in. -/
theorem place_push (h : r.OnTheWay source offset depth (c :: cs)) (kind : Option Kind) :
    ∃ before, source = before ++ (r.push c kind).text ++ String.ofList cs ∧
      (r.push c kind).start = before.utf8ByteSize ∧
      offset + c.utf8Size = (before ++ (r.push c kind).text).utf8ByteSize := by
  obtain ⟨before, hs, hr, ho⟩ := h.place
  refine ⟨before, ?_, hr, ?_⟩
  · rw [hs]
    simp [push, text, ← String.toList_inj]
  · simp [push, text, ho, String.utf8ByteSize_append, Nat.add_assoc]

/-- A word starts. -/
theorem startWord (h : r.OnTheWay source offset depth (c :: cs)) :
    (startingAt (offset + c.utf8Size) none).OnTheWay source (offset + c.utf8Size) 0 cs :=
  ⟨h.place_start none, underWay_start_word _, fun _ => Kind.Follows.nil⟩

/-- An index starts. -/
theorem startIndex (h : r.OnTheWay source offset depth (c :: cs)) :
    (startingAt (offset + c.utf8Size) (some .numeric)).OnTheWay source (offset + c.utf8Size) 1 cs :=
  ⟨h.place_start _, underWay_start_index _ 0, nofun⟩

/-- One more character of a word. -/
theorem pushWord (h : r.OnTheWay source offset 0 (c :: cs)) :
    (r.push c (Kind.extend r.kind r.chars.isEmpty c)).OnTheWay source (offset + c.utf8Size) 0 cs :=
  ⟨h.place_push _, h.kind.push_word c, fun _ => (h.word rfl).extend c⟩

/-- One more character of an index. -/
theorem pushIndex (h : r.OnTheWay source offset (depth + 1) (c :: cs)) :
    (r.push c (Kind.extend r.kind r.chars.isEmpty c)).OnTheWay source (offset + c.utf8Size)
      (depth + 1) cs :=
  ⟨h.place_push _, h.kind.push_index c, nofun⟩

/-- A bracket inside an index. -/
theorem pushBracket {depth' : Nat} (h : r.OnTheWay source offset depth (c :: cs))
    (hc : c.isDigit = false) :
    (r.push c (some .indexed)).OnTheWay source (offset + c.utf8Size) (depth' + 1) cs :=
  ⟨h.place_push _, underWay_push_bracket r _ hc, nofun⟩

/-- A closing bracket without an opening one. -/
theorem pushStray (h : r.OnTheWay source offset 0 (']' :: cs)) :
    (r.push ']' (some .nonUniform)).OnTheWay source (offset + (']' : Char).utf8Size) 0 cs :=
  ⟨h.place_push _, underWay_push_stray r _, fun _ => Kind.Follows.stray r.chars⟩

theorem stands (h : r.OnTheWay source offset depth cs) :
    Text.slice? source r.start (r.start + r.text.utf8ByteSize) = some r.text := by
  obtain ⟨before, hs, hr, -⟩ := h.place
  exact Text.slice?_eq_some_iff.mpr ⟨before, _, hs, hr, by rw [hr, String.utf8ByteSize_append]⟩

/-- A run that is over is sound, unless it is empty. -/
theorem sound (h : r.OnTheWay source offset depth cs) (hne : r.chars ≠ []) : r.Sound source := by
  refine ⟨fun kind hk => ?_, h.stands⟩
  cases depth with
  | zero => exact (hk ▸ h.word rfl : Kind.Follows (some kind) r.chars).exact
  | succ d =>
    have hi : isDigits r.chars = r.chars.all Char.isDigit := by simp [isDigits, hne]
    rcases h.kind with ⟨hr, hd⟩ | ⟨hr, hd⟩ <;> rw [hr] at hk <;> cases hk <;>
      simp [Kind.Exact, Kind.ofIndex, hi, hd]

end Run.OnTheWay

/-- Every step of a scan keeps a run on its way, and a run that is over is sound. -/
theorem keeps_sound (source : String) (sep : Char) :
    Scan.Keeps sep (Run.OnTheWay source) (Run.Sound source) where
  openIndex := Run.OnTheWay.startIndex
  closeIndex := Run.OnTheWay.startWord
  cut _ _ _ h := h.startWord
  pushWord _ _ _ h := h.pushWord
  pushIndex _ _ _ h := h.pushIndex
  pushOpen h := h.pushBracket (by decide)
  pushClose h := h.pushBracket (by decide)
  pushStray := Run.OnTheWay.pushStray
  word hne _ h := h.sound hne
  index hne _ h := h.sound hne
  -- The content of brackets that are never closed is a word of any characters.
  left _ h := ⟨by rintro kind ⟨⟩; trivial, h.stands⟩

/-- The runs of a scan are sound, for every text and every separator. -/
theorem scan_sound (sep : Char) (s : String) : ∀ r ∈ (scan sep s).runs, r.Sound s :=
  scanFrom_keeps (keeps_sound s sep) (Run.underWay_start_word 0) (.start s)

/-! ## Elements and names -/

/-- The text of the element is exactly such as its kind says. -/
def Element.Exact (e : Element) : Prop := e.kind.Exact e.text.toList

theorem Element.index_eq (key : String) : Element.index key = ⟨Kind.ofIndex key.toList, key⟩ := by
  have hempty : key.toList.isEmpty = key.isEmpty := by rw [Bool.eq_iff_iff]; simp
  unfold Element.index Kind.ofIndex isDigits
  rw [hempty]
  split <;> rfl

theorem Element.exact_index (key : String) : (Element.index key).Exact := by
  rw [Element.Exact, Element.index_eq]
  exact Kind.exact_ofIndex _

theorem Kind.Exact.spells {kind : Kind} {cs : List Char} (h : kind.Exact cs) : kind.Spells cs := by
  have hword : isWord cs = true → ∀ c ∈ cs, isWordChar c = true ∨ c = '-' := by
    intro hw c hc
    cases cs with
    | nil => cases hc
    | cons d ds =>
      simp only [isWord, Bool.and_eq_true, List.all_eq_true, Bool.or_eq_true, beq_iff_eq] at hw
      rcases List.mem_cons.mp hc with rfl | hc
      · exact .inl hw.1
      · exact hw.2 c hc
  cases kind with
  | uniform =>
    intro c hc
    have hdash : cs.contains '-' = false := by
      have := h.2
      unfold Kind.ofWord at this
      split at this <;> simp_all
    refine (hword h.1 c hc).resolve_right ?_
    rintro rfl
    simp_all
  | dashed => exact hword h.1
  | nonUniform => trivial
  | indexed => cases hd : isDigits cs <;> simp [Kind.Exact, Kind.ofIndex, Kind.Spells, hd] at h ⊢
  | numeric => cases hd : isDigits cs <;> simp [Kind.Exact, Kind.ofIndex, Kind.Spells, hd] at h ⊢

namespace Name

/-- The elements of the name are of the right kinds. -/
def Exact (n : Name) : Prop := ∀ e ∈ n.elements, e.Exact

theorem Exact.wellFormed {n : Name} (h : n.Exact) : n.WellFormed := fun e he => (h e he).spells

theorem Exact.append {a b : Name} (ha : a.Exact) (hb : b.Exact) : (a ++ b).Exact := by
  intro e he
  rcases List.mem_append.mp he with h | h
  · exact ha e h
  · exact hb e h

theorem Exact.item {n : Name} (h : n.Exact) (key : String) : (n.item key).Exact := by
  intro e he
  rcases List.mem_append.mp he with h' | h'
  · exact h e h'
  · rw [List.mem_singleton.mp h']; exact Element.exact_index key

theorem Exact.take {n : Name} (h : n.Exact) (k : Nat) : (n.take k).Exact :=
  fun e he => h e (List.mem_of_mem_take he)

theorem Exact.drop {n : Name} (h : n.Exact) (k : Nat) : (n.drop k).Exact :=
  fun e he => h e (List.mem_of_mem_drop he)

end Name

/-- The elements that a scan finds are of the right kinds. -/
theorem scan_exact (sep : Char) (s : String) : ∀ e ∈ (scan sep s).elements, e.Exact := by
  intro e he
  obtain ⟨r, hr, hre⟩ := List.mem_filterMap.mp he
  obtain ⟨kind, hk, rfl⟩ := Option.map_eq_some_iff.mp hre
  simpa [Element.Exact, Run.text] using (scan_sound sep s r hr).exact kind hk

end TypedConfig
