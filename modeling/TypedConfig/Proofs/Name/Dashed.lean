import TypedConfig.Name.Dashed
import TypedConfig.Proofs.Name.RoundTrip
import TypedConfig.Proofs.Name.Segments

/-!
# The dashed spelling

Outside of brackets the dashed spelling writes one character after the other (`Name.spelled`), and
inside of them it copies. But any closing bracket ends the copying, also one that closes an inner
pair (`bracketOpen`).

* `Name.isWord_dashedFrom`, `Name.uniformChars_dashedFrom`: an identifier of letters, digits,
  underscores and dashes becomes a canonical word with the same letters and digits.
* `Name.dashedFrom_eq_self_iff`: a text is left alone exactly if each character that no bracket
  counts as open in front of stays as it is.
* `Layout.dashed`: in a text whose words are canonical, dots and words stay, and groups stay groups.
-/

namespace TypedConfig.Name

variable {c d : Char} {cs : List Char} {last : Option Char} {inIndex : Bool}

/-! ## Characters outside of brackets -/

/-- A dash for an underscore. -/
def dashChar (c : Char) : Char := if c = '_' then '-' else c

/-- What is written for a character other than an opening bracket, behind the character `last`. -/
def spelled (last : Option Char) (c : Char) : List Char :=
  (if Text.isUpper (dashChar c) && last.isSome && last != some '-' then ['-'] else []) ++
    Text.lowered (dashChar c)

@[simp] theorem dashedFrom_nil (inIndex : Bool) (last : Option Char) :
    dashedFrom inIndex last [] = [] := rfl

@[simp] theorem dashedFrom_index (last : Option Char) (c : Char) (cs : List Char) :
    dashedFrom true last (c :: cs) = c :: dashedFrom (c != ']') (some c) cs := rfl

@[simp] theorem dashedFrom_open (last : Option Char) (cs : List Char) :
    dashedFrom false last ('[' :: cs) = '[' :: dashedFrom true (some '[') cs := rfl

theorem dashedFrom_spelled (h : c ≠ '[') (last : Option Char) (cs : List Char) :
    dashedFrom false last (c :: cs) =
      spelled last c ++ dashedFrom false (spelled last c).getLast? cs := by
  simp [dashedFrom, spelled, dashChar, h]

theorem spelled_ne_nil (last : Option Char) (c : Char) : spelled last c ≠ [] := by
  simp [spelled, Text.lowered_ne_nil]

/-- No bracket is written but for one. -/
theorem bracketFree_spelled (h : c ≠ '[' ∧ c ≠ ']') (hd : d ∈ spelled last c) :
    d ≠ '[' ∧ d ≠ ']' := by
  rcases List.mem_append.mp hd with hd | hd
  · split at hd
    · rw [List.mem_singleton.mp hd]
      decide
    · cases hd
  · refine Text.bracketFree_lowered ?_ hd
    unfold dashChar
    split
    · decide
    · exact h

/-! ## Identifiers -/

/-- A letter, digit, underscore or dash. -/
def isIdentifierChar (c : Char) : Bool := c.isAlphanum || c == '_' || c == '-'

/-- A letter or digit, and letters, digits, underscores and dashes behind it. -/
def isIdentifier : List Char → Bool
  | [] => false
  | c :: cs => c.isAlphanum && cs.all isIdentifierChar

/-- The character of a word that stands for one of an identifier. -/
def wordChar (c : Char) : Char := (dashChar c).toLower

theorem dashChar_of_isAlphanum (h : c.isAlphanum = true) : dashChar c = c := by
  refine if_neg ?_
  rintro rfl
  cases h

theorem identifierChar_cases (h : isIdentifierChar c = true) :
    c.isAlphanum = true ∨ c = '_' ∨ c = '-' := by
  simpa [isIdentifierChar, or_assoc] using h

/-- Below U+0080 the lower-case form is one character. -/
theorem lowered_dashChar (h : isIdentifierChar c = true) :
    Text.lowered (dashChar c) = [wordChar c] := by
  refine Text.lowered_of_ascii ?_
  rcases identifierChar_cases h with h | rfl | rfl
  · rw [dashChar_of_isAlphanum h]
    exact Text.lt_of_isAlphanum h
  · decide
  · decide

theorem isCanonical_wordChar (h : isIdentifierChar c = true) :
    isCanonical false (wordChar c) = true := by
  rcases identifierChar_cases h with h | rfl | rfl
  · rw [wordChar, dashChar_of_isAlphanum h, isCanonical, isWordChar_toLower, h]
    rfl
  · decide
  · decide

theorem uniformChars_wordChar (h : isIdentifierChar c = true) :
    uniformChars [wordChar c] = uniformChars [c] := by
  rcases identifierChar_cases h with halpha | rfl | rfl
  · have hlower : (wordChar c).toLower = wordChar c :=
      toLower_of_isCanonical (isCanonical_wordChar h)
    have hword : wordChar c = c.toLower := by rw [wordChar, dashChar_of_isAlphanum halpha]
    simp only [uniformChars, List.map_cons, List.map_nil, hlower]
    rw [hword]
  · decide
  · decide

/-- A character of an identifier is written as one of a word, with a dash in front of it or none. -/
theorem spelled_of_isIdentifierChar (h : isIdentifierChar c = true) (last : Option Char) :
    ∃ gap, (gap = [] ∨ gap = ['-']) ∧ (last = none → gap = []) ∧
      spelled last c = gap ++ [wordChar c] := by
  refine ⟨_, ?_, ?_, by rw [spelled, lowered_dashChar h]⟩
  · split
    · exact .inr rfl
    · exact .inl rfl
  · rintro rfl
    simp

/-- The characters of a word stand for those of an identifier. -/
theorem isCanonical_of_mem_dashedFrom (h : ∀ c ∈ cs, isIdentifierChar c = true)
    (hd : d ∈ dashedFrom false last cs) : isCanonical false d = true := by
  induction cs generalizing last with
  | nil => cases hd
  | cons c cs ih =>
    obtain ⟨hc, hcs⟩ := List.forall_mem_cons.mp h
    have hopen : c ≠ '[' := by rintro rfl; cases hc
    rw [dashedFrom_spelled hopen] at hd
    rcases List.mem_append.mp hd with hd | hd
    · obtain ⟨gap, hgap, -, hspelled⟩ := spelled_of_isIdentifierChar hc last
      rw [hspelled] at hd
      rcases List.mem_append.mp hd with hd | hd
      · rcases hgap with rfl | rfl
        · cases hd
        · rw [List.mem_singleton.mp hd]
          rfl
      · rw [List.mem_singleton.mp hd]
        exact isCanonical_wordChar hc
    · exact ih hcs hd

/-- The dashed spelling has the letters and digits of an identifier. -/
theorem uniformChars_dashedFrom (h : ∀ c ∈ cs, isIdentifierChar c = true) (last : Option Char) :
    uniformChars (dashedFrom false last cs) = uniformChars cs := by
  induction cs generalizing last with
  | nil => rfl
  | cons c cs ih =>
    obtain ⟨hc, hcs⟩ := List.forall_mem_cons.mp h
    have hopen : c ≠ '[' := by rintro rfl; cases hc
    obtain ⟨gap, hgap, -, hspelled⟩ := spelled_of_isIdentifierChar hc last
    have hdash : uniformChars gap = [] := by rcases hgap with rfl | rfl <;> rfl
    rw [dashedFrom_spelled hopen, uniformChars_append, ih hcs, hspelled, uniformChars_append, hdash,
      List.nil_append, uniformChars_wordChar hc, ← uniformChars_append]
    rfl

/-- The dashed spelling of an identifier is a canonical word. -/
theorem isWord_dashedFrom (h : isIdentifier cs = true) :
    isWord (dashedFrom false none cs) = true := by
  cases cs with
  | nil => cases h
  | cons c cs =>
    simp only [isIdentifier, Bool.and_eq_true, List.all_eq_true] at h
    obtain ⟨hc, hcs⟩ := h
    have hidentifier : isIdentifierChar c = true := by simp [isIdentifierChar, hc]
    have hopen : c ≠ '[' := by rintro rfl; cases hc
    obtain ⟨gap, -, hgap, hspelled⟩ := spelled_of_isIdentifierChar hidentifier none
    rw [hgap rfl] at hspelled
    rw [dashedFrom_spelled hopen, hspelled]
    have hword : isWordChar (wordChar c) = true := by
      rw [wordChar, dashChar_of_isAlphanum hc, isWordChar_toLower, hc]
    have hrest : ∀ d ∈ dashedFrom false (some (wordChar c)) cs, isCanonical false d = true :=
      fun d hd => isCanonical_of_mem_dashedFrom hcs hd
    simpa [isWord, hword, isCanonical] using hrest

/-! ## Texts that stay -/

/-- A bracket counts as open behind a text. Any closing bracket closes all that are open. -/
def bracketOpen (inIndex : Bool) (cs : List Char) : Bool :=
  cs.foldl (fun inIndex c => if inIndex then c != ']' else c == '[') inIndex

/-- The character is written as it is behind the character `last`, with no dash in front of it. -/
structure Stays (last : Option Char) (c : Char) : Prop where
  notUnderscore : c ≠ '_'
  small : Text.lowered c = [c]
  ungapped : Text.isUpper c = true → last = none ∨ last = some '-'

theorem spelled_eq_iff : spelled last c = [c] ↔ Stays last c := by
  constructor
  · intro h
    obtain ⟨hgap, hlowered⟩ :
        (Text.isUpper (dashChar c) && last.isSome && last != some '-') = false ∧
          Text.lowered (dashChar c) = [c] := by
      unfold spelled at h
      split at h
      · exact absurd (List.cons.inj h).2 (Text.lowered_ne_nil _)
      · rename_i hgap
        exact ⟨by simpa using hgap, h⟩
    have hne : c ≠ '_' := by
      rintro rfl
      revert hlowered
      decide
    rw [dashChar, if_neg hne] at hgap hlowered
    refine ⟨hne, hlowered, fun hupper => ?_⟩
    simpa [hupper, Option.isSome_iff_ne_none, or_iff_not_imp_left] using hgap
  · rintro ⟨hne, hlowered, hgap⟩
    rw [spelled, dashChar, if_neg hne, hlowered, if_neg]
    · rfl
    · cases hupper : Text.isUpper c with
      | false => simp
      | true => rcases hgap hupper with rfl | rfl <;> simp

/-- Each character of the text that no bracket counts as open in front of stays as it is. -/
def Settled (inIndex : Bool) (last : Option Char) (cs : List Char) : Prop :=
  ∀ l c r, cs = l ++ c :: r → bracketOpen inIndex l = false → c = '[' ∨ Stays (l.getLast?.or last) c

theorem settled_nil : Settled inIndex last [] := by
  intro l c r h
  cases l <;> cases h

theorem settled_cons : Settled inIndex last (c :: cs) ↔
    (inIndex = false → c = '[' ∨ Stays last c) ∧
      Settled (bracketOpen inIndex [c]) (some c) cs := by
  have hlast : ∀ l : List Char, (c :: l).getLast?.or last = l.getLast?.or (some c) := by
    intro l
    cases l <;> simp [List.getLast?_cons]
  constructor
  · intro h
    refine ⟨fun hclosed => h [] c cs rfl hclosed, fun l d r hcs hclosed => ?_⟩
    rw [← hlast]
    exact h (c :: l) d r (congrArg _ hcs) hclosed
  · rintro ⟨hfirst, hrest⟩ l d r hcs hclosed
    cases l with
    | nil =>
      obtain ⟨rfl, -⟩ := List.cons.inj hcs
      exact hfirst hclosed
    | cons c' l =>
      obtain ⟨rfl, htail⟩ := List.cons.inj hcs
      rw [hlast]
      exact hrest l d r htail hclosed

/-- A group that closes no bracket is copied. -/
theorem settled_of_not_mem (h : ']' ∉ cs) (last : Option Char) : Settled true last cs := by
  induction cs generalizing last with
  | nil => exact settled_nil
  | cons c cs ih =>
    rw [List.mem_cons, not_or] at h
    have hopen : bracketOpen true [c] = true := by simp [bracketOpen, Ne.symm h.1]
    refine settled_cons.mpr ⟨nofun, ?_⟩
    rw [hopen]
    exact ih h.2 _

/-- No character is left out. -/
theorem length_le_dashedFrom (inIndex : Bool) (last : Option Char) (cs : List Char) :
    cs.length ≤ (dashedFrom inIndex last cs).length := by
  induction cs generalizing inIndex last with
  | nil => exact Nat.le_refl _
  | cons c cs ih =>
    cases inIndex with
    | true => simpa using ih _ _
    | false =>
      by_cases hc : c = '['
      · subst hc
        simpa using ih _ _
      · have hpos := List.length_pos_iff.mpr (spelled_ne_nil last c)
        have hrest := ih false (spelled last c).getLast?
        rw [dashedFrom_spelled hc, List.length_append, List.length_cons]
        omega

/-- The dashed spelling leaves a text alone exactly if each character that no bracket counts as open
in front of stays. -/
theorem dashedFrom_eq_self_iff : dashedFrom inIndex last cs = cs ↔ Settled inIndex last cs := by
  induction cs generalizing inIndex last with
  | nil => exact iff_of_true rfl settled_nil
  | cons c cs ih =>
    rw [settled_cons, ← ih]
    cases inIndex with
    | true => simp [bracketOpen]
    | false =>
      by_cases hc : c = '['
      · subst hc
        simp [bracketOpen]
      · have hflag : bracketOpen false [c] = false := by simp [bracketOpen, hc]
        rw [dashedFrom_spelled hc, hflag]
        simp only [hc, false_or, forall_const, ← spelled_eq_iff]
        constructor
        · intro h
          -- As no character is left out, only one can be written for the first one.
          have hlength := congrArg List.length h
          rw [List.length_append, List.length_cons] at hlength
          have hrest := length_le_dashedFrom false (spelled last c).getLast? cs
          have hone : (spelled last c).length = 1 := by
            have := List.length_pos_iff.mpr (spelled_ne_nil last c)
            omega
          obtain ⟨d, hd⟩ := List.length_eq_one_iff.mp hone
          rw [hd] at h
          obtain ⟨rfl, hcs⟩ := List.cons.inj h
          exact ⟨hd, hcs⟩
        · rintro ⟨hspelled, hcs⟩
          rw [hspelled]
          exact congrArg _ hcs

/-! ## Texts with pieces -/

/-- What stands in front of a closing bracket, and what stands behind it. -/
theorem dashedFrom_append_close (inIndex : Bool) (last : Option Char) (g cs : List Char) :
    dashedFrom inIndex last (g ++ ']' :: cs) =
      dashedFrom inIndex last g ++ ']' :: dashedFrom false (some ']') cs := by
  induction g generalizing inIndex last with
  | nil => cases inIndex <;> rfl
  | cons c g ih =>
    cases inIndex with
    | true => simpa using ih _ _
    | false =>
      by_cases hc : c = '['
      · subst hc
        simpa using ih _ _
      · rw [List.cons_append, dashedFrom_spelled hc, dashedFrom_spelled hc, ih, List.append_assoc]

/-- The brackets are those of the text. -/
theorem depthFrom_dashedFrom (inIndex : Bool) (last : Option Char) (d : Nat) (cs : List Char) :
    depthFrom d (dashedFrom inIndex last cs) = depthFrom d cs := by
  induction cs generalizing inIndex last d with
  | nil => rfl
  | cons c cs ih =>
    have hcopy : ∀ inIndex last, depthFrom d (c :: dashedFrom inIndex last cs) =
        depthFrom d (c :: cs) := by
      intro inIndex last
      rcases bracket_cases c with rfl | rfl | ⟨hopen, hclose⟩
      · exact ih _ _ _
      · cases d with
        | zero => rfl
        | succ d => exact ih _ _ _
      · rw [depthFrom_other hopen hclose, depthFrom_other hopen hclose, ih]
    cases inIndex with
    | true => exact hcopy _ _
    | false =>
      rcases bracket_cases c with rfl | rfl | ⟨hopen, hclose⟩
      · exact hcopy _ _
      · exact hcopy _ _
      · rw [dashedFrom_spelled hopen, depthFrom_bracketFree
          (fun e he => bracketFree_spelled ⟨hopen, hclose⟩ he), ih, depthFrom_other hopen hclose]

end TypedConfig.Name

namespace TypedConfig

variable {c : Char} {w cs : List Char} {ps : List Piece} {last : Option Char}

/-- The piece that the dashed spelling makes of one of a canonical text. -/
def Piece.dashed : Piece → Piece
  | .dot => .dot
  | .word cs => .word cs
  | .group g => .group (Name.dashedFrom true (some '[') g)

theorem Piece.isWord_dashed (p : Piece) : p.dashed.isWord = p.isWord := by
  cases p <;> rfl

/-- A canonical character is written as it is. -/
theorem Name.stays_of_isCanonical (h : isCanonical false c = true) (last : Option Char) :
    Stays last c := by
  have hall : ∀ c : Char, isCanonical false c = true →
      c ≠ '_' ∧ Text.lowered c = [c] ∧ Text.isUpper c = false := by
    refine Text.forall_char (by decide +kernel) fun c hc h => ?_
    have hdash : c ≠ '-' := by rintro rfl; exact absurd hc (by decide)
    simp only [isCanonical, Bool.not_false, Bool.true_and, Bool.or_eq_true, beq_iff_eq, hdash,
      or_false, isWordChar_iff] at h
    omega
  obtain ⟨hne, hlowered, hupper⟩ := hall c h
  exact ⟨hne, hlowered, fun h => by rw [hupper] at h; cases h⟩

theorem Name.dashedFrom_of_stays (h : Stays last c) (hopen : c ≠ '[') (cs : List Char) :
    dashedFrom false last (c :: cs) = c :: dashedFrom false (some c) cs := by
  rw [dashedFrom_spelled hopen, spelled_eq_iff.mpr h]
  rfl

/-- Canonical characters are written as they are. -/
theorem Name.exists_dashedFrom (h : ∀ d ∈ w, isCanonical false d = true) (last : Option Char)
    (cs : List Char) :
    ∃ last', dashedFrom false last (w ++ cs) = w ++ dashedFrom false last' cs := by
  induction w generalizing last with
  | nil => exact ⟨last, rfl⟩
  | cons c w ih =>
    obtain ⟨hc, hw⟩ := List.forall_mem_cons.mp h
    have hopen : c ≠ '[' := by rintro rfl; cases hc
    obtain ⟨last', hrest⟩ := ih hw (some c)
    refine ⟨last', ?_⟩
    rw [List.cons_append, dashedFrom_of_stays (stays_of_isCanonical hc last) hopen, hrest]
    rfl

/-- In a text whose words are canonical the dots and words stay as they are, and groups stay
groups. -/
theorem Layout.dashed (h : Layout cs ps) (hps : ∀ p ∈ ps, p.Canonical) (last : Option Char) :
    Layout (Name.dashedFrom false last cs) (ps.map Piece.dashed) := by
  induction h generalizing last with
  | nil => exact .nil
  | dot _ ih =>
    have hstays : Name.Stays last '.' := ⟨by decide, by decide, fun h => absurd h (by decide)⟩
    rw [Name.dashedFrom_of_stays hstays (by decide)]
    exact .dot (ih (List.forall_mem_cons.mp hps).2 _)
  | group hg _ ih =>
    rw [Name.dashedFrom_open, Name.dashedFrom_append_close]
    refine .group ?_ (ih (List.forall_mem_cons.mp hps).2 _)
    rwa [balanced_iff_depth, Name.depthFrom_dashedFrom, ← balanced_iff_depth]
  | @word c w cs ps hw hhead _ ih =>
    obtain ⟨hword, hps⟩ := List.forall_mem_cons.mp hps
    have hcanonical : ∀ d ∈ c :: w, isCanonical false d = true := fun d hd =>
      isCanonical_of_mem_dashedChars (by rwa [dashedChars_of_isWord hword])
    obtain ⟨last', hrest⟩ := Name.exists_dashedFrom hcanonical last cs
    rw [hrest]
    refine .word hw (fun p hp => ?_) (ih hps _)
    rw [List.head?_map] at hp
    obtain ⟨q, hq, rfl⟩ := Option.map_eq_some_iff.mp hp
    rw [Piece.isWord_dashed]
    exact hhead q hq

/-- Two texts with the same pieces are one. -/
theorem Layout.text_unique {ds : List Char} (h : Layout cs ps) (h' : Layout ds ps) : cs = ds := by
  induction h generalizing ds with
  | nil => cases h'; rfl
  | dot _ ih => cases h' with | dot h' => rw [ih h']
  | group _ _ ih => cases h' with | group _ h' => rw [ih h']
  | word _ _ _ ih => cases h' with | word _ _ h' => rw [ih h']

namespace Piece

theorem dashed_eq_dot_iff {p : Piece} : p.dashed = dot ↔ p = dot := by
  cases p <;> simp [dashed]

/-- The pieces stay exactly if all characters stay that no bracket counts as open in front of. -/
theorem map_dashed_eq_self_iff : ps.map dashed = ps ↔
    ∀ g, group g ∈ ps → Name.Settled true (some '[') g := by
  have hpieces : ps.map dashed = ps ↔ ∀ p ∈ ps, p.dashed = p := by
    simpa using @List.map_inj_left _ _ ps dashed id
  rw [hpieces]
  constructor
  · intro h g hg
    exact Name.dashedFrom_eq_self_iff.mp (group.inj (h _ hg))
  · intro h p hp
    cases p with
    | dot | word => rfl
    | group g => exact congrArg _ (Name.dashedFrom_eq_self_iff.mpr (h g hp))

/-- The pieces mean the same exactly if they stay. -/
theorem meaning_dashed_iff :
    ((ps.map dashed).filterMap element?).map Element.meaning =
      (ps.filterMap element?).map Element.meaning ↔ ps.map dashed = ps := by
  induction ps with
  | nil => simp
  | cons p ps ih =>
    cases p with
    | dot | word => simp [-List.filterMap_map, List.filterMap_cons, dashed, element?, ih]
    | group g =>
      by_cases hg : g = []
      · simp [-List.filterMap_map, dashed, element?, hg, ih]
      · have hne : Name.dashedFrom true (some '[') g ≠ [] := by
          have hlength := Name.length_le_dashedFrom true (some '[') g
          have hpos := List.length_pos_iff.mpr hg
          exact List.length_pos_iff.mp (by omega)
        simp [-List.filterMap_map, dashed, element?, hg, hne, ih, Element.meaning,
          Element.isIndex]

end Piece

/-! ## Reading dashed spellings -/

namespace Name

variable {s : String} {n : Name}

theorem toList_dashed (s : String) : (dashed s).toList = dashedFrom false none s.toList :=
  String.toList_ofList

/-- A canonical word is read as one element. -/
theorem parse_of_isWord (h : isWord cs = true) :
    parse (String.ofList cs) = .ok ⟨[⟨Kind.ofWord cs, String.ofList cs⟩]⟩ := by
  have hcanonical : Canonical ⟨[⟨Kind.ofWord cs, String.ofList cs⟩]⟩ :=
    List.forall_mem_singleton.mpr (.word h)
  have hplain : (Kind.ofWord cs).isPlain = true := by
    rcases Kind.ofWord_eq cs with hk | hk <;> rw [hk] <;> rfl
  have htext : Name.text ⟨[⟨Kind.ofWord cs, String.ofList cs⟩]⟩ = String.ofList cs :=
    (Element.text_of_isPlain hplain).1
  have hparse := hcanonical.parse_text
  rwa [htext] at hparse

theorem exact_of_parse (h : parse s = .ok n) : n.Exact :=
  Window.elements_of_parse h ▸ scan_exact '.' s

theorem exists_layout_of_parse (h : parse s = .ok n) : ∃ ps, Layout s.toList ps := by
  rcases exists_parse_iff_layout.mp ⟨n, h⟩ with rfl | ⟨-, -, hbalanced, -⟩
  · exact ⟨[], .nil⟩
  · exact balanced_iff_layout.mp hbalanced

/-- The dashed spelling of a canonical text is one as well, with a piece for each. -/
theorem layout_dashed (h : parse s = .ok n) (hps : Layout s.toList ps) :
    Layout (dashed s).toList (ps.map Piece.dashed) ∧
      ∃ m, parse (dashed s) = .ok m ∧
        m.elements = (ps.map Piece.dashed).filterMap Piece.element? := by
  have hall : ∀ p ∈ ps, p.Canonical := by
    rcases exists_parse_iff_layout.mp ⟨n, h⟩ with rfl | ⟨-, -, -, hcanonical⟩
    · cases hps
      nofun
    · exact hcanonical ps hps
  have hlayout := hps.dashed hall none
  rw [← toList_dashed] at hlayout
  have hdot : ∀ p : Option Piece, p.map Piece.dashed = some .dot ↔ p = some .dot := by
    intro p
    simp [Piece.dashed_eq_dot_iff]
  have hcanonical : ∀ p ∈ ps.map Piece.dashed, p.Canonical := by
    rw [List.forall_mem_map]
    intro p hp
    cases p with
    | dot | group => trivial
    | word => exact hall _ hp
  obtain ⟨m, hm⟩ : ∃ m, parse (dashed s) = .ok m := by
    rw [exists_parse_iff_layout]
    rcases exists_parse_iff_layout.mp ⟨n, h⟩ with rfl | ⟨hfirst, hlast, -, -⟩
    · exact .inl rfl
    · refine .inr ⟨?_, ?_, hlayout.balanced, fun qs hqs => hqs.unique hlayout ▸ hcanonical⟩
      · rwa [ne_eq, hlayout.head?_eq_dot_iff, List.head?_map, hdot, ← hps.head?_eq_dot_iff]
      · rwa [ne_eq, hlayout.getLast?_eq_dot_iff, List.getLast?_map, hdot,
          ← hps.getLast?_eq_dot_iff]
  exact ⟨hlayout, m, hm, elements_of_layout hm hlayout⟩

/-- A canonical text is its own dashed spelling exactly if its pieces stay. -/
theorem dashed_eq_self_iff (h : parse s = .ok n) (hps : Layout s.toList ps) :
    dashed s = s ↔ ps.map Piece.dashed = ps := by
  obtain ⟨hlayout, -⟩ := layout_dashed h hps
  constructor
  · intro hs
    rw [hs] at hlayout
    exact hlayout.unique hps
  · intro heq
    rw [heq] at hlayout
    exact String.toList_inj.mp (hlayout.text_unique hps)

end Name

end TypedConfig
