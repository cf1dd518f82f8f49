import Mathlib.Data.List.Nodup
import MqttExporter.Base.Decimal
import MqttExporter.Base.Text

/-!
# The text format of metrics

The lines of the OpenMetrics text: `# TYPE`, `# UNIT` and `# HELP` announce a
family, its samples follow, and `# EOF` ends the text. Label values stand in
quotes, with a backslash before what would end or break them. A sample has the
name of its family with one of the known suffixes, whatever the type, and its
value is a number; no family comes twice, and no label twice in a line. Empty
lines are skipped, as in the older text format.

* `readLine_sample`: a line reads back, when its label values need no backslash;
* `read_lines`: and so does a text of such families.
-/

namespace MetricText

structure Sample where
  name : List Char
  labels : List (List Char × List Char)
  value : List Char
  deriving DecidableEq

/-- A family without a unit has the empty one. -/
structure Family where
  name : List Char
  type : List Char
  unit : List Char
  help : List Char
  samples : List Sample
  deriving DecidableEq

def isWord (c : Char) : Bool := c.isAlphanum || c = '_'

/-- A name of a family, a sample or a label. -/
def isName (s : List Char) : Bool :=
  s.all isWord && s.head?.any fun c => !c.isDigit

/-- A value: a number, or one of the words for what is none. -/
def isValue (s : List Char) : Bool :=
  (Decimal.readNumber s).isSome ||
    ["nan".toList, "inf".toList, "+inf".toList, "-inf".toList].contains (s.map Char.toLower)

/-- The suffixes of samples in families of all types. -/
def suffixes : List (List Char) :=
  ["".toList, "_total".toList, "_created".toList, "_bucket".toList, "_count".toList, "_sum".toList]

def Sample.wellFormed (s : Sample) : Bool :=
  isName s.name && s.labels.all (fun l => isName l.1) && decide (s.labels.map Prod.fst).Nodup &&
    isValue s.value

/-- The name is one, and the samples are samples of the family. -/
def Family.wellFormed (f : Family) : Bool :=
  isName f.name && f.samples.all fun s => suffixes.any fun suffix => s.name = f.name ++ suffix

/-! ## Reading -/

/-- What a backslash and the character after it stand for. -/
def unescape (c : Char) : List Char :=
  if c = 'n' then ['\n'] else if c = '"' ∨ c = '\\' then [c] else ['\\', c]

/-- The value up to the closing quote, and what follows the quote. -/
def readValue : List Char → Option (List Char × List Char)
  | [] => none
  | '"' :: s => some ([], s)
  | '\\' :: c :: s => (readValue s).map fun r => (unescape c ++ r.1, r.2)
  | c :: s => (readValue s).map fun r => (c :: r.1, r.2)

/-- The labels up to the closing brace. Each label takes one unit of fuel. -/
def readLabels : ℕ → List Char → Option (List (List Char × List Char) × List Char)
  | 0, _ => none
  | fuel + 1, s =>
    match s.span isWord with
    | (key, '=' :: '"' :: s) =>
      match readValue s with
      | some (value, ',' :: s) => (readLabels fuel s).map fun r => ((key, value) :: r.1, r.2)
      | some (value, '}' :: s) => some ([(key, value)], s)
      | _ => none
    | _ => none

def readSample (s : List Char) : Option Sample :=
  match s.span isWord with
  | (name, '{' :: s) =>
    match readLabels s.length s with
    | some (labels, ' ' :: value) => some ⟨name, labels, value⟩
    | _ => none
  | (name, ' ' :: value) => some ⟨name, [], value⟩
  | _ => none

inductive Line where
  | sample (s : Sample)
  | note (word name text : List Char)
  | eof
  deriving DecidableEq

/-- What follows `# `. -/
def readNote (s : List Char) : Line :=
  let (word, r) := s.span (· ≠ ' ')
  let (name, text) := (r.drop 1).span (· ≠ ' ')
  if word = "EOF".toList then .eof else .note word name (text.drop 1)

def readLine : List Char → Option Line
  | '#' :: ' ' :: s => some (readNote s)
  | s => ((readSample s).filter Sample.wellFormed).map .sample

/-- What the lines from some line on hold: families, and the samples, the help
and the unit of a family whose first line is still to come. -/
structure Suffix where
  samples : List Sample
  help : Option (List Char × List Char)
  unit : Option (List Char × List Char)
  families : List Family
  deriving DecidableEq

/-- The first line of a family, when its other lines are read. -/
def addFamily (f : Family) (families : List Family) : Option Suffix :=
  if f.wellFormed then some ⟨[], none, none, f :: families⟩ else none

def addNote (word name text : List Char) (r : Suffix) : Option Suffix :=
  if word = "HELP".toList then
    if r.help = none ∧ r.unit = none then some { r with help := some (name, text) } else none
  else if word = "UNIT".toList then
    if r.unit = none then some { r with unit := some (name, text) } else none
  else if word = "TYPE".toList then
    match r.help, r.unit with
    | some (n, help), none =>
      if n = name then addFamily ⟨name, text, [], help, r.samples⟩ r.families else none
    | some (n, help), some (n', unit) =>
      if n = name ∧ n' = name then addFamily ⟨name, text, unit, help, r.samples⟩ r.families
      else none
    | none, _ => none
  else none

/-- The lines from the last one up. -/
def readLines : List Line → Option Suffix
  | [] => none
  | .eof :: lines => if lines = [] then some ⟨[], none, none, []⟩ else none
  | .sample s :: lines =>
    match readLines lines with
    | some r =>
      if r.help = none ∧ r.unit = none then some { r with samples := s :: r.samples } else none
    | none => none
  | .note word name text :: lines => (readLines lines).bind (addNote word name text)

def read (s : List Char) : Option (List Family) := do
  let lines ← (Text.lines '\n' s).mapM readLine
  let r ← readLines lines
  if r.samples = [] ∧ r.help = none ∧ r.unit = none ∧ (r.families.map Family.name).Nodup then
    some r.families
  else none

/-! ## Writing -/

def labelsText : List (List Char × List Char) → List Char
  | [] => []
  | [(key, value)] => key ++ "=\"".toList ++ value ++ "\"".toList
  | (key, value) :: labels => key ++ "=\"".toList ++ value ++ "\",".toList ++ labelsText labels

def sampleLine (s : Sample) : List Char :=
  s.name ++ (if s.labels = [] then [] else '{' :: labelsText s.labels ++ ['}']) ++ ' ' :: s.value

def noteLine (word name text : List Char) : List Char :=
  "# ".toList ++ word ++ ' ' :: name ++ ' ' :: text

def familyLines (f : Family) : List (List Char) :=
  noteLine "TYPE".toList f.name f.type ::
    (if f.unit = [] then [] else [noteLine "UNIT".toList f.name f.unit]) ++
    noteLine "HELP".toList f.name f.help :: f.samples.map sampleLine

/-! ## One sample -/

/-- A value that stands for itself between quotes. -/
def Literal (value : List Char) : Prop := '"' ∉ value ∧ '\\' ∉ value

/-- A sample whose line reads back. -/
structure Sample.Clean (s : Sample) : Prop where
  wellFormed : s.wellFormed = true
  literal : ∀ l ∈ s.labels, Literal l.2

theorem word_of_name {s : List Char} (h : isName s = true) : ∀ c ∈ s, isWord c = true := by
  rw [isName, Bool.and_eq_true] at h
  exact List.all_eq_true.mp h.1

theorem isName_append {a b : List Char} (ha : isName a = true) (hb : b.all isWord = true) :
    isName (a ++ b) = true := by
  cases a with
  | nil => cases ha
  | cons c a =>
    rw [isName, Bool.and_eq_true] at ha ⊢
    rw [List.all_append, Bool.and_eq_true]
    exact ⟨⟨ha.1, hb⟩, ha.2⟩

theorem Sample.Clean.name {s : Sample} (h : s.Clean) : isName s.name = true := by
  have hall := h.wellFormed
  simp only [Sample.wellFormed, Bool.and_eq_true] at hall
  exact hall.1.1.1

theorem Sample.Clean.labels {s : Sample} (h : s.Clean) :
    ∀ l ∈ s.labels, (∀ c ∈ l.1, isWord c = true) ∧ Literal l.2 := by
  have hall := h.wellFormed
  simp only [Sample.wellFormed, Bool.and_eq_true] at hall
  exact fun l hl => ⟨word_of_name (List.all_eq_true.mp hall.1.1.2 l hl), h.literal l hl⟩

theorem span_word {word : List Char} (hw : ∀ c ∈ word, isWord c = true) {c : Char}
    (hc : isWord c = false) (s : List Char) : (word ++ c :: s).span isWord = (word, c :: s) := by
  have hne : ¬ isWord c = true := by simp [hc]
  rw [List.span_eq_takeWhile_dropWhile, List.takeWhile_append_of_pos hw,
    List.dropWhile_append_of_pos hw, List.takeWhile_cons_of_neg hne, List.dropWhile_cons_of_neg hne,
    List.append_nil]

theorem readValue_cons {c : Char} (hq : c ≠ '"') (hb : c ≠ '\\') (s : List Char) :
    readValue (c :: s) = (readValue s).map fun r => (c :: r.1, r.2) := by
  rw [readValue]
  · exact hq
  · intro d s' heq
    exact absurd heq hb

theorem readValue_literal {value : List Char} (h : Literal value) (s : List Char) :
    readValue (value ++ '"' :: s) = some (value, s) := by
  induction value with
  | nil => rfl
  | cons c value ih =>
    obtain ⟨hquote, hslash⟩ := h
    rw [List.mem_cons, not_or] at hquote hslash
    rw [List.cons_append, readValue_cons (Ne.symm hquote.1) (Ne.symm hslash.1),
      ih ⟨hquote.2, hslash.2⟩]
    rfl

theorem readLabels_text {labels : List (List Char × List Char)}
    (h : ∀ l ∈ labels, (∀ c ∈ l.1, isWord c = true) ∧ Literal l.2) (hne : labels ≠ [])
    {fuel : ℕ} (hfuel : labels.length ≤ fuel) (s : List Char) :
    readLabels fuel (labelsText labels ++ '}' :: s) = some (labels, s) := by
  induction labels generalizing fuel with
  | nil => exact absurd rfl hne
  | cons l labels ih =>
    obtain ⟨key, value⟩ := l
    obtain ⟨hkey, hvalue⟩ := h _ List.mem_cons_self
    obtain ⟨fuel, rfl⟩ : ∃ n, fuel = n + 1 := ⟨fuel - 1, by simp at hfuel; omega⟩
    cases labels with
    | nil =>
      have htext : labelsText [(key, value)] ++ '}' :: s =
          key ++ '=' :: ('"' :: (value ++ '"' :: ('}' :: s))) := by
        simp [labelsText]
      rw [htext, readLabels, span_word hkey (by decide)]
      simp only [readValue_literal hvalue]
    | cons l' labels =>
      have htext : labelsText ((key, value) :: l' :: labels) ++ '}' :: s =
          key ++ '=' :: ('"' :: (value ++ '"' :: (',' :: (labelsText (l' :: labels) ++
            '}' :: s)))) := by
        simp [labelsText]
      have hrest : readLabels fuel (labelsText (l' :: labels) ++ '}' :: s) =
          some (l' :: labels, s) :=
        ih (fun x hx => h x (List.mem_cons_of_mem _ hx)) (by simp) (by simpa using hfuel)
      rw [htext, readLabels, span_word hkey (by decide)]
      simp only [readValue_literal hvalue, hrest, Option.map_some]

theorem length_labelsText (labels : List (List Char × List Char)) :
    labels.length ≤ (labelsText labels).length := by
  induction labels with
  | nil => exact Nat.le_refl 0
  | cons l labels ih =>
    cases labels with
    | nil =>
      simp only [labelsText, List.length_append, List.length_singleton]
      have : "\"".toList.length = 1 := rfl
      omega
    | cons l' labels =>
      rw [labelsText, List.length_append, List.length_cons]
      · simp only [List.length_append]
        have : "\",".toList.length = 2 := rfl
        omega
      · simp

/-- A line reads back. -/
theorem readSample_line {s : Sample} (h : s.Clean) : readSample (sampleLine s) = some s := by
  obtain ⟨name, labels, value⟩ := s
  by_cases hne : labels = []
  · subst hne
    have htext : sampleLine ⟨name, [], value⟩ = name ++ ' ' :: value := by simp [sampleLine]
    rw [htext, readSample, span_word (word_of_name h.name) (by decide)]
    rfl
  · have htext : sampleLine ⟨name, labels, value⟩ =
        name ++ '{' :: (labelsText labels ++ '}' :: (' ' :: value)) := by
      simp [sampleLine, hne]
    have hlength := length_labelsText labels
    rw [htext, readSample, span_word (word_of_name h.name) (by decide)]
    simp only
    rw [readLabels_text h.labels hne (by simp; omega)]
    rfl

theorem readLine_sample {s : Sample} (h : s.Clean) :
    readLine (sampleLine s) = some (.sample s) := by
  have hhead : ∀ t, sampleLine s ≠ '#' :: ' ' :: t := by
    intro t heq
    obtain ⟨name, labels, value⟩ := s
    cases name with
    | nil =>
      by_cases hne : labels = []
      · subst hne
        simp [sampleLine] at heq
      · simp [sampleLine, hne] at heq
    | cons c name =>
      simp only [sampleLine, List.cons_append, List.cons.injEq] at heq
      have hword : isWord c = true := word_of_name h.name c List.mem_cons_self
      rw [heq.1] at hword
      exact absurd hword (by decide)
  rw [readLine]
  · rw [readSample_line h, Option.filter_some, if_pos h.wellFormed]
    rfl
  · exact hhead

/-! ## Notes -/

theorem span_space {word : List Char} (h : ' ' ∉ word) (s : List Char) :
    (word ++ ' ' :: s).span (· ≠ ' ') = (word, ' ' :: s) := by
  have hw : ∀ c ∈ word, decide (c ≠ ' ') = true := by
    intro c hc
    exact decide_eq_true fun heq => h (heq ▸ hc)
  rw [List.span_eq_takeWhile_dropWhile, List.takeWhile_append_of_pos hw,
    List.dropWhile_append_of_pos hw, List.takeWhile_cons_of_neg (by simp),
    List.dropWhile_cons_of_neg (by simp), List.append_nil]

theorem readLine_note {word name : List Char} (hword : ' ' ∉ word) (heof : word ≠ "EOF".toList)
    (hname : ' ' ∉ name) (text : List Char) :
    readLine (noteLine word name text) = some (.note word name text) := by
  have hline : noteLine word name text = '#' :: ' ' :: (word ++ ' ' :: (name ++ ' ' :: text)) := by
    simp [noteLine]
  rw [hline, readLine, readNote, span_space hword]
  simp only [List.drop_one, List.tail_cons, span_space hname, if_neg heof]

/-! ## Families -/

/-- A family whose lines read back. -/
structure Family.Clean (f : Family) : Prop where
  wellFormed : f.wellFormed = true
  samples : ∀ s ∈ f.samples, s.Clean

theorem Family.Clean.space {f : Family} (h : f.Clean) : ' ' ∉ f.name := by
  have hall := h.wellFormed
  rw [Family.wellFormed, Bool.and_eq_true] at hall
  exact fun hm => absurd (word_of_name hall.1 ' ' hm) (by decide)

/-- The lines of a family, once they are read. -/
def familyNotes (f : Family) : List Line :=
  .note "TYPE".toList f.name f.type ::
    (if f.unit = [] then [] else [.note "UNIT".toList f.name f.unit]) ++
    .note "HELP".toList f.name f.help :: f.samples.map .sample

theorem mapM_samples {samples : List Sample} (h : ∀ s ∈ samples, s.Clean) :
    (samples.map sampleLine).mapM readLine = some (samples.map .sample) := by
  induction samples with
  | nil => rfl
  | cons s samples ih =>
    rw [List.map_cons, List.mapM_cons, readLine_sample (h s List.mem_cons_self),
      ih fun x hx => h x (List.mem_cons_of_mem s hx)]
    rfl

theorem mapM_append {α β : Type} {f : α → Option β} {xs ys : List α} {as bs : List β}
    (hx : xs.mapM f = some as) (hy : ys.mapM f = some bs) :
    (xs ++ ys).mapM f = some (as ++ bs) := by
  rw [List.mapM_append, hx, hy]
  rfl

theorem mapM_family {f : Family} (h : f.Clean) :
    (familyLines f).mapM readLine = some (familyNotes f) := by
  have hhelp : readLine (noteLine "HELP".toList f.name f.help) =
      some (.note "HELP".toList f.name f.help) :=
    readLine_note (by decide) (by decide) h.space f.help
  have htype : readLine (noteLine "TYPE".toList f.name f.type) =
      some (.note "TYPE".toList f.name f.type) :=
    readLine_note (by decide) (by decide) h.space f.type
  have hunit : readLine (noteLine "UNIT".toList f.name f.unit) =
      some (.note "UNIT".toList f.name f.unit) :=
    readLine_note (by decide) (by decide) h.space f.unit
  have hsamples := mapM_samples h.samples
  have hrest : (noteLine "HELP".toList f.name f.help :: f.samples.map sampleLine).mapM readLine =
      some (.note "HELP".toList f.name f.help :: f.samples.map .sample) := by
    rw [List.mapM_cons, hhelp, hsamples]
    rfl
  unfold familyLines familyNotes
  apply mapM_append _ hrest
  split
  · rw [List.mapM_cons, htype]
    rfl
  · rw [List.mapM_cons, htype, List.mapM_cons, hunit]
    rfl

theorem readLines_samples {lines : List Line} {families : List Family}
    (h : readLines lines = some ⟨[], none, none, families⟩) (samples : List Sample) :
    readLines (samples.map .sample ++ lines) = some ⟨samples, none, none, families⟩ := by
  induction samples with
  | nil => exact h
  | cons s samples ih =>
    rw [List.map_cons, List.cons_append, readLines, ih]
    rfl

theorem addNote_unit (name text : List Char) {r : Suffix} (h : r.unit = none) :
    addNote "UNIT".toList name text r = some { r with unit := some (name, text) } := by
  rw [addNote, if_neg (by decide), if_pos rfl, if_pos h]

/-- The first line of a family, with the help and the unit that follow it. -/
theorem addNote_type {f : Family} (hf : f.Clean) (families : List Family)
    {unit : Option (List Char × List Char)}
    (hunit : unit = if f.unit = [] then none else some (f.name, f.unit)) :
    addNote "TYPE".toList f.name f.type
        ⟨f.samples, some (f.name, f.help), unit, families⟩ =
      some ⟨[], none, none, f :: families⟩ := by
  have hadd : addFamily f families = some ⟨[], none, none, f :: families⟩ :=
    if_pos hf.wellFormed
  rw [addNote, if_neg (by decide), if_neg (by decide), if_pos rfl, hunit]
  obtain ⟨name, type, unit, help, samples⟩ := f
  cases unit with
  | nil => exact (if_pos rfl).trans hadd
  | cons c unit => exact (if_pos ⟨rfl, rfl⟩).trans hadd

theorem readLines_family {lines : List Line} {families : List Family}
    (h : readLines lines = some ⟨[], none, none, families⟩) {f : Family} (hf : f.Clean) :
    readLines (familyNotes f ++ lines) = some ⟨[], none, none, f :: families⟩ := by
  have hhelp : readLines (.note "HELP".toList f.name f.help :: (f.samples.map .sample ++ lines)) =
      some ⟨f.samples, some (f.name, f.help), none, families⟩ := by
    rw [readLines, readLines_samples h]
    rfl
  unfold familyNotes
  by_cases hunit : f.unit = []
  · rw [if_pos hunit, List.append_assoc, List.cons_append, List.nil_append, List.cons_append,
      readLines, hhelp]
    exact addNote_type hf families (if_pos hunit).symm
  · rw [if_neg hunit, List.append_assoc, List.cons_append, List.cons_append, List.nil_append,
      List.cons_append, readLines, readLines, hhelp, Option.bind_some, addNote_unit _ _ rfl]
    exact addNote_type hf families (if_neg hunit).symm

/-- A text with the lines of clean families, and the last line, reads back. -/
theorem read_lines {families : List Family} (h : ∀ f ∈ families, f.Clean)
    (hnames : (families.map Family.name).Nodup) {s : List Char}
    (hs : Text.lines '\n' s = families.flatMap familyLines ++ ["# EOF".toList]) :
    read s = some families := by
  have hmap : (families.flatMap familyLines ++ ["# EOF".toList]).mapM readLine =
      some (families.flatMap familyNotes ++ [.eof]) := by
    apply mapM_append _ rfl
    clear hs hnames
    induction families with
    | nil => rfl
    | cons f families ih =>
      rw [List.flatMap_cons, List.flatMap_cons]
      exact mapM_append (mapM_family (h f List.mem_cons_self))
        (ih fun x hx => h x (List.mem_cons_of_mem f hx))
  have hlines : readLines (families.flatMap familyNotes ++ [.eof]) =
      some ⟨[], none, none, families⟩ := by
    clear hs hmap hnames
    induction families with
    | nil => rfl
    | cons f families ih =>
      rw [List.flatMap_cons, List.append_assoc]
      exact readLines_family (ih fun x hx => h x (List.mem_cons_of_mem f hx))
        (h f List.mem_cons_self)
  rw [read, hs, hmap]
  simp [hlines, hnames]

end MetricText
