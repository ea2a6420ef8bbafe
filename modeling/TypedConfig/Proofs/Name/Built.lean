import TypedConfig.Proofs.Name.Meaning

/-!
# Names that can be built

`Name.Built` are the names that reading, joining and cutting give. They are well formed, because a
scan gives every run the kind that its characters have (`scanFrom_wellFormed`), for every text and
every separator, and the operations on names only move elements around.

* `Scan.Keeps`: what holds of a scan at every step, with the run under way and the rest of the text,
  and what it makes of the runs that are over.
* `scanFrom_keeps`: what every step keeps holds of all runs.
-/

namespace TypedConfig

open Number

/-! ## Scans -/

/-- The element that the run is, if it is one, has the kind of its text. -/
def Run.WellFormed (r : Run) : Prop := ∀ kind, r.kind = some kind → kind.Spells r.chars

/-- What holds of the run under way inside so many brackets: a word has the kind of its characters,
and an index is numeric as long as it has only digits. -/
def Run.UnderWay (depth : Nat) (r : Run) : Prop :=
  if depth = 0 then r.isIndex = false ∧ r.WellFormed
  else (r.kind = some .numeric ∧ r.chars.all Char.isDigit = true) ∨
    (r.kind = some .indexed ∧ r.chars.all Char.isDigit = false)

namespace Run

theorem underWay_start_word (start : Nat) : (startingAt start none).UnderWay 0 := by
  simp [UnderWay, startingAt, isIndex, WellFormed]

theorem underWay_start_index (start depth : Nat) :
    (startingAt start (some .numeric)).UnderWay (depth + 1) := by
  simp [UnderWay, startingAt]

/-- Inside of brackets an index is under way. -/
theorem UnderWay.isIndex_eq_true {r : Run} {depth : Nat} (h : r.UnderWay (depth + 1)) :
    r.isIndex = true := by
  rcases h with ⟨hk, -⟩ | ⟨hk, -⟩ <;> simp [isIndex, hk, Kind.isIndex]

/-- One more character of a word. -/
theorem UnderWay.push_word {r : Run} (h : r.UnderWay 0) (c : Char) :
    (r.push c (Kind.extend r.kind r.chars.isEmpty c)).UnderWay 0 := by
  obtain ⟨start, kind, chars⟩ := r
  simp only [UnderWay, ↓reduceIte, isIndex, WellFormed, push] at h ⊢
  obtain ⟨hi, hw⟩ := h
  have hdash : ∀ s, isCanonical s c = true → isWordChar c = true ∨ c = '-' := by
    intro s hs
    simp only [isCanonical, Bool.or_eq_true, Bool.and_eq_true, beq_iff_eq] at hs
    exact hs.imp_right (·.2)
  rcases kind with _ | kind
  · simp only [Kind.extend]
    cases hc : chars with
    | nil =>
      simp only [List.isEmpty_nil, ↓reduceIte, List.nil_append]
      split
      · rename_i h
        simpa [Kind.isIndex, Kind.Spells, isCanonical] using h
      · split <;> simp [Kind.isIndex, Kind.Spells]
    | cons d ds =>
      simp only [List.isEmpty_cons, Bool.false_eq_true, ↓reduceIte]
      split
      · simp [Kind.isIndex, Kind.Spells]
      · split <;> simp [Kind.isIndex, Kind.Spells]
  · cases kind with
    | indexed | numeric => simp [Kind.isIndex] at hi
    | nonUniform => simp [Kind.extend, Kind.isIndex, Kind.Spells]
    | uniform =>
      have hw : ∀ d ∈ chars, isWordChar d = true := by simpa [Kind.Spells] using hw
      simp only [Kind.extend]
      split
      · rename_i h
        have h : c = '-' := by simpa using h
        simp only [Option.any_some, Kind.isIndex, Kind.Spells, true_and]
        rintro _ ⟨⟩ d hd
        rcases List.mem_append.mp hd with hd | hd
        · exact .inl (hw d hd)
        · exact .inr (by rw [List.mem_singleton.mp hd, h])
      · split
        · rename_i hne hcan
          have hc : isWordChar c = true := (hdash _ hcan).resolve_right (by simpa using hne)
          simp only [Option.any_some, Kind.isIndex, Kind.Spells, true_and]
          rintro _ ⟨⟩ d hd
          rcases List.mem_append.mp hd with hd | hd
          · exact hw d hd
          · rw [List.mem_singleton.mp hd]; exact hc
        · simp [Kind.isIndex, Kind.Spells]
    | dashed =>
      have hw : ∀ d ∈ chars, isWordChar d = true ∨ d = '-' := by simpa [Kind.Spells] using hw
      simp only [Kind.extend]
      split
      · rename_i hcan
        simp only [Option.any_some, Kind.isIndex, Kind.Spells, true_and]
        rintro _ ⟨⟩ d hd
        rcases List.mem_append.mp hd with hd | hd
        · exact hw d hd
        · rw [List.mem_singleton.mp hd]; exact hdash _ hcan
      · simp [Kind.isIndex, Kind.Spells]

/-- One more character of an index. -/
theorem UnderWay.push_index {r : Run} {depth : Nat} (h : r.UnderWay (depth + 1)) (c : Char) :
    (r.push c (Kind.extend r.kind r.chars.isEmpty c)).UnderWay (depth + 1) := by
  simp only [UnderWay, Nat.add_eq_zero_iff, Nat.one_ne_zero, and_false, ↓reduceIte, push] at h ⊢
  rcases h with ⟨hk, hd⟩ | ⟨hk, hd⟩
  · cases hc : c.isDigit <;> simp [hk, Kind.extend, hc, hd]
  · simp [hk, Kind.extend, hd]

/-- A bracket inside an index makes it one of any characters. -/
theorem underWay_push_bracket (r : Run) (depth : Nat) {c : Char} (hc : c.isDigit = false) :
    (r.push c (some .indexed)).UnderWay (depth + 1) := by
  simp [UnderWay, push, hc]

/-- A closing bracket without an opening one spoils a word. -/
theorem underWay_push_stray (r : Run) (c : Char) : (r.push c (some .nonUniform)).UnderWay 0 := by
  simp [UnderWay, push, isIndex, WellFormed, Kind.isIndex, Kind.Spells]

/-- A run that is over is well formed, unless it is empty. -/
theorem UnderWay.wellFormed {r : Run} {depth : Nat} (h : r.UnderWay depth) (hc : r.chars ≠ []) :
    r.WellFormed := by
  have he : r.chars.isEmpty = false := by simpa using hc
  unfold UnderWay at h
  split at h
  · exact h.2
  · rcases h with ⟨hk, hd⟩ | ⟨hk, hd⟩ <;> intro kind hkind <;> rw [hk] at hkind <;> cases hkind <;>
      simp [Kind.Spells, isDigits, he, hd]

end Run

theorem Scan.runs_cons (r : Run) (s : Scan) :
    (Scan.cons r s).runs = (if r.chars.isEmpty then [] else [r]) ++ s.runs := by
  unfold Scan.cons
  split <;> rfl

theorem Scan.mem_cons {r s : Run} {found : Scan} (h : r ∈ (Scan.cons s found).runs) :
    (r = s ∧ s.chars ≠ []) ∨ r ∈ found.runs := by
  unfold Scan.cons at h
  split at h
  · exact .inr h
  · rename_i hs
    rcases List.mem_cons.mp h with h | h
    · exact .inl ⟨h, by simpa using hs⟩
    · exact .inr h

/-! ### Step by step

A scan is at a byte offset inside so many brackets, with a run under way and the rest of the text
before it. -/

/-- Every step of a scan keeps `P`, and a run of which `P` holds when it is over satisfies `Q`. -/
structure Scan.Keeps (sep : Char) (P : Nat → Nat → Run → List Char → Prop) (Q : Run → Prop) :
    Prop where
  /-- An outermost bracket is opened. -/
  openIndex : ∀ {o r cs}, P o 0 r ('[' :: cs) →
    P (o + ('[' : Char).utf8Size) 1 (.startingAt (o + ('[' : Char).utf8Size) (some .numeric)) cs
  /-- It is closed. -/
  closeIndex : ∀ {o r cs}, P o 1 r (']' :: cs) →
    P (o + (']' : Char).utf8Size) 0 (.startingAt (o + (']' : Char).utf8Size) none) cs
  /-- A separator ends a word. -/
  cut : ∀ {o r cs}, sep ≠ '[' → sep ≠ ']' → r.UnderWay 0 → P o 0 r (sep :: cs) →
    P (o + sep.utf8Size) 0 (.startingAt (o + sep.utf8Size) none) cs
  /-- One more character of a word. -/
  pushWord : ∀ {o r c cs}, c ≠ '[' → c ≠ ']' → c ≠ sep → P o 0 r (c :: cs) →
    P (o + c.utf8Size) 0 (r.push c (Kind.extend r.kind r.chars.isEmpty c)) cs
  /-- One more character of an index. -/
  pushIndex : ∀ {o d r c cs}, c ≠ '[' → c ≠ ']' → r.UnderWay (d + 1) → P o (d + 1) r (c :: cs) →
    P (o + c.utf8Size) (d + 1) (r.push c (Kind.extend r.kind r.chars.isEmpty c)) cs
  /-- A bracket is opened inside an index. -/
  pushOpen : ∀ {o d r cs}, P o (d + 1) r ('[' :: cs) →
    P (o + ('[' : Char).utf8Size) (d + 2) (r.push '[' (some .indexed)) cs
  /-- It is closed. -/
  pushClose : ∀ {o d r cs}, P o (d + 2) r (']' :: cs) →
    P (o + (']' : Char).utf8Size) (d + 1) (r.push ']' (some .indexed)) cs
  /-- A bracket is closed that was not opened. -/
  pushStray : ∀ {o r cs}, P o 0 r (']' :: cs) →
    P (o + (']' : Char).utf8Size) 0 (r.push ']' (some .nonUniform)) cs
  /-- A word is over. -/
  word : ∀ {o r cs}, r.chars ≠ [] → r.UnderWay 0 → P o 0 r cs → Q r
  /-- An index is over. -/
  index : ∀ {o r cs}, r.chars ≠ [] → r.UnderWay 1 → P o 1 r (']' :: cs) → Q r
  /-- The text ends inside of brackets. -/
  left : ∀ {o d r}, r.chars ≠ [] → P o (d + 1) r [] → Q { r with kind := some .nonUniform }

/-- What every step keeps is kept together, and a run that is over may be judged by all of it. -/
theorem Scan.Keeps.and {sep : Char} {P P' : Nat → Nat → Run → List Char → Prop}
    {Q Q' R : Run → Prop} (h : Keeps sep P Q) (h' : Keeps sep P' Q')
    (word : ∀ {o r cs}, r.UnderWay 0 → P o 0 r cs → P' o 0 r cs → R r)
    (index : ∀ {o r cs}, r.UnderWay 1 → P o 1 r (']' :: cs) → P' o 1 r (']' :: cs) → R r)
    (left : ∀ {o d r}, P o (d + 1) r [] → P' o (d + 1) r [] →
      R { r with kind := some .nonUniform }) :
    Keeps sep (fun o d r cs => P o d r cs ∧ P' o d r cs) R where
  openIndex hp := ⟨h.openIndex hp.1, h'.openIndex hp.2⟩
  closeIndex hp := ⟨h.closeIndex hp.1, h'.closeIndex hp.2⟩
  cut hopen hclose hr hp := ⟨h.cut hopen hclose hr hp.1, h'.cut hopen hclose hr hp.2⟩
  pushWord hopen hclose hsep hp :=
    ⟨h.pushWord hopen hclose hsep hp.1, h'.pushWord hopen hclose hsep hp.2⟩
  pushIndex hopen hclose hr hp :=
    ⟨h.pushIndex hopen hclose hr hp.1, h'.pushIndex hopen hclose hr hp.2⟩
  pushOpen hp := ⟨h.pushOpen hp.1, h'.pushOpen hp.2⟩
  pushClose hp := ⟨h.pushClose hp.1, h'.pushClose hp.2⟩
  pushStray hp := ⟨h.pushStray hp.1, h'.pushStray hp.2⟩
  word _ hr hp := word hr hp.1 hp.2
  index _ hr hp := index hr hp.1 hp.2
  left _ hp := left hp.1 hp.2

/-- What every step keeps holds of all runs. -/
theorem scanFrom_keeps {sep : Char} {P : Nat → Nat → Run → List Char → Prop} {Q : Run → Prop}
    (h : Scan.Keeps sep P Q) {cs : List Char} {offset depth : Nat} {opened : Option Nat} {run : Run}
    (hr : run.UnderWay depth) (hp : P offset depth run cs) :
    ∀ r ∈ (scanFrom sep offset depth opened run cs).runs, Q r := by
  have hcons : ∀ {run : Run} {found : Scan}, (run.chars ≠ [] → Q run) → (∀ r ∈ found.runs, Q r) →
      ∀ r ∈ (Scan.cons run found).runs, Q r := by
    intro run found hrun hfound r hmem
    rcases Scan.mem_cons hmem with ⟨rfl, hne⟩ | hmem
    · exact hrun hne
    · exact hfound r hmem
  induction cs generalizing offset depth opened run with
  | nil =>
    unfold scanFrom
    cases depth with
    | zero => exact hcons (fun hne => h.word hne hr hp) nofun
    | succ d => exact hcons (fun hne => h.left hne hp) nofun
  | cons c cs ih =>
    unfold scanFrom
    simp only
    split
    · rename_i hc
      subst hc
      cases depth with
      | zero =>
        exact hcons (fun hne => h.word hne hr hp)
          (ih (Run.underWay_start_index _ 0) (h.openIndex hp))
      | succ d => exact ih (Run.underWay_push_bracket run (d + 1) (by decide)) (h.pushOpen hp)
    · rename_i hopen
      split
      · rename_i hc
        subst hc
        split
        · exact ih (Run.underWay_push_stray _ _) (h.pushStray hp)
        · exact hcons (fun hne => h.index hne hr hp)
            (ih (Run.underWay_start_word _) (h.closeIndex hp))
        · exact ih (Run.underWay_push_bracket run _ (by decide)) (h.pushClose hp)
      · rename_i hclose
        cases depth with
        | zero =>
          have hindex : run.isIndex = false := hr.1
          simp only [hindex, Bool.not_false, Bool.and_true, decide_eq_true_eq]
          split
          · rename_i hc
            subst hc
            exact hcons (fun hne => h.word hne hr hp)
              (ih (Run.underWay_start_word _) (h.cut hopen hclose hr hp))
          · rename_i hsep
            exact ih (hr.push_word c) (h.pushWord hopen hclose hsep hp)
        | succ d =>
          -- A separator inside of brackets is a character of the index.
          simp only [hr.isIndex_eq_true, Bool.not_true, Bool.and_false, Bool.false_eq_true,
            ↓reduceIte]
          exact ih (hr.push_index c) (h.pushIndex hopen hclose hr hp)

/-- The runs of a scan are well formed, for every text and every separator. -/
theorem scanFrom_wellFormed {sep : Char} {cs : List Char} {offset depth : Nat}
    {opened : Option Nat} {run : Run} (h : run.UnderWay depth) :
    ∀ r ∈ (scanFrom sep offset depth opened run cs).runs, r.WellFormed :=
  have hkeeps : Scan.Keeps sep (fun _ _ _ _ => True) Run.WellFormed :=
    { openIndex _ := trivial
      closeIndex _ := trivial
      cut _ _ _ _ := trivial
      pushWord _ _ _ _ := trivial
      pushIndex _ _ _ _ := trivial
      pushOpen _ := trivial
      pushClose _ := trivial
      pushStray _ := trivial
      word hne hr _ := hr.wellFormed hne
      index hne hr _ := hr.wellFormed hne
      left _ _ := by simp [Run.WellFormed, Kind.Spells] }
  scanFrom_keeps hkeeps h trivial

/-- The elements that a scan finds are well formed. -/
theorem scan_wellFormed (sep : Char) (s : String) : ∀ e ∈ (scan sep s).elements, e.WellFormed := by
  intro e he
  obtain ⟨r, hr, hre⟩ := List.mem_filterMap.mp he
  have hw := scanFrom_wellFormed (Run.underWay_start_word 0) r hr
  unfold Run.element? at hre
  obtain ⟨kind, hk, rfl⟩ := Option.map_eq_some_iff.mp hre
  simpa [Element.WellFormed, Run.text] using hw kind hk

/-! ## Names -/

namespace Name

theorem adapt_wellFormed (s : String) (sep : Char) : (adapt s sep).WellFormed :=
  scan_wellFormed sep s

theorem parse_wellFormed {s : String} {n : Name} (h : parse s = .ok n) : n.WellFormed := by
  unfold parse at h
  split at h
  · cases h; intro e he; cases he
  · split at h
    · cases h
    · split at h
      · cases h
      · simp only at h
        split at h
        · cases h
        · cases h; exact scan_wellFormed '.' s

theorem respell_wellFormed {name : String} {spell : String → String} {r : Run} {e : Element}
    (h : respell name spell r = .ok e) : e.WellFormed := by
  unfold respell at h
  simp only at h
  split at h
  · rename_i e' he
    cases h
    exact scan_wellFormed '.' _ e (by rw [he]; exact List.mem_singleton_self e)
  · cases h

theorem adaptWith_wellFormed {s : String} {sep : Char} {spell : String → String} {n : Name}
    (h : adaptWith s sep spell = .ok n) : n.WellFormed := by
  unfold adaptWith at h
  simp only [bind, Except.bind, pure, Except.pure] at h
  split at h
  · cases h
  · rename_i es hes
    cases h
    generalize (scan sep s).runs.filter _ = runs at hes
    induction runs generalizing es with
    | nil => cases hes; intro e he; cases he
    | cons r rs ih =>
      simp only [List.mapM_cons, bind, Except.bind, pure, Except.pure] at hes
      split at hes
      · cases hes
      · rename_i e he
        split at hes
        · cases hes
        · rename_i es' hes'
          cases hes
          intro d hd
          rcases List.mem_cons.mp hd with rfl | hd
          · exact respell_wellFormed he
          · exact ih es' hes' d hd

theorem exists_of_extend? {n m : Name} {s : String} (h : n.extend? s = .ok m) :
    ∃ k, parse s = .ok k ∧ m = n ++ k := by
  unfold extend? at h
  cases hk : parse s with
  | error e => rw [hk] at h; cases h
  | ok k =>
    rw [hk] at h
    cases h
    exact ⟨k, rfl, rfl⟩

theorem extend?_wellFormed {n m : Name} {s : String} (hn : n.WellFormed)
    (h : n.extend? s = .ok m) : m.WellFormed := by
  obtain ⟨k, hk, rfl⟩ := exists_of_extend? h
  exact hn.append (parse_wellFormed hk)

/-- The names that reading gives, and joining and cutting of such names. -/
inductive Built : Name → Prop
  | parse {s : String} {n : Name} (h : parse s = .ok n) : Built n
  | adapt (s : String) (sep : Char) : Built (adapt s sep)
  | adaptWith {s : String} {sep : Char} {spell : String → String} {n : Name}
      (h : adaptWith s sep spell = .ok n) : Built n
  | append {a b : Name} (ha : Built a) (hb : Built b) : Built (a ++ b)
  | item {n : Name} (h : Built n) (key : String) : Built (n.item key)
  | take {n : Name} (h : Built n) (k : Nat) : Built (n.take k)
  | drop {n : Name} (h : Built n) (k : Nat) : Built (n.drop k)
  | parent {n : Name} (h : Built n) : Built n.parent

theorem Built.extend? {n m : Name} {s : String} (hn : n.Built) (h : n.extend? s = .ok m) :
    m.Built := by
  obtain ⟨k, hk, rfl⟩ := exists_of_extend? h
  exact .append hn (.parse hk)

/-- The name of one index alone. -/
theorem Built.index (key : String) : Built ⟨[Element.index key]⟩ := .item (.adapt "" '.') key

/-- Every name that can be built is well formed. -/
theorem Built.wellFormed {n : Name} (h : n.Built) : n.WellFormed := by
  induction h with
  | parse h => exact parse_wellFormed h
  | adapt s sep => exact adapt_wellFormed s sep
  | adaptWith h => exact adaptWith_wellFormed h
  | append _ _ iha ihb => exact iha.append ihb
  | item _ key ih => exact ih.item key
  | take _ k ih => exact ih.take k
  | drop _ k ih => exact ih.drop k
  | parent _ ih => exact ih.parent

end Name

end TypedConfig
