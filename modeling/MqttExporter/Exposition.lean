import MqttExporter.Base.Text
import MqttExporter.FamilyRun

/-!
# What the exposition text tells

A line is a name, a label set and a value. Label values are written between
quotes as they are.

* `toString_injective`: label sets are told apart by their texts as long as no
  value continues the text with another label;
* `line_series`: within a family a line tells the name and the label set;
* `lines_samples`: the lines are those of the points, one for each;
* `unforgeable_iff`: which characters of label values keep all that.
-/

namespace MqttExporter

/-! ## Label sets -/

def isNameStart (c : Char) : Bool := c.isAlpha || c = '_'

def isNameChar (c : Char) : Bool := c.isAlphanum || c = '_'

/-- `[a-zA-Z_][a-zA-Z0-9_]*`. -/
def ValidName : Str → Prop
  | [] => False
  | c :: cs => isNameStart c = true ∧ ∀ d ∈ cs, isNameChar d = true

instance : DecidablePred ValidName
  | [] => inferInstanceAs (Decidable False)
  | c :: cs =>
    have := List.decidableBAll (fun d => isNameChar d = true) cs
    inferInstanceAs (Decidable (isNameStart c = true ∧ ∀ d ∈ cs, isNameChar d = true))

/-- The value closes its quotes and goes on like the label set does. -/
def Imitates (value : Str) : Prop :=
  ∃ key, ValidName key ∧ "\",".toList ++ key ++ "=".toList <:+: value

/-- A value that cannot be taken for more than a value. -/
def Plain (value : Str) : Prop := '\n' ∉ value ∧ ¬ Imitates value

def PlainLabels (labels : LabelSet) : Prop :=
  ∀ e ∈ labels.entries, ValidName e.1 ∧ Plain e.2

theorem ValidName.char {key : Str} (h : ValidName key) {c : Char} (hc : c ∈ key) :
    isNameChar c = true := by
  cases key with
  | nil => cases hc
  | cons d ds =>
    rcases List.mem_cons.mp hc with rfl | hc
    · have hstart := h.1
      simp only [isNameStart, Bool.or_eq_true] at hstart
      simp only [isNameChar, Char.isAlphanum, Bool.or_eq_true]
      exact hstart.imp_left Or.inl
    · exact h.2 c hc

theorem ValidName.not_mem {key : Str} (h : ValidName key) {c : Char} (hc : isNameChar c = false) :
    c ∉ key := by
  intro hm
  rw [h.char hm] at hc
  cases hc

/-- One label, with the comma that follows it in the loop. -/
def labelText (e : Str × Str) : Str := e.1 ++ "=\"".toList ++ e.2 ++ "\",".toList

def labelTexts (es : List (Str × Str)) : Str := es.flatMap labelText

theorem labelTexts_cons (k v : Str) (es : List (Str × Str)) :
    labelTexts ((k, v) :: es) = k ++ ('=' :: '"' :: (v ++ ('"' :: ',' :: labelTexts es))) := by
  simp [labelTexts, labelText]

theorem toString_eq (labels : LabelSet) :
    labels.toString = if labels.entries = [] then []
      else '{' :: ((labelTexts labels.entries).dropLast ++ ['}']) := by
  unfold LabelSet.toString
  split
  · rfl
  · rename_i h
    have hne : labelTexts labels.entries ≠ [] := by
      obtain ⟨⟨k, v⟩, es, he⟩ := List.exists_cons_of_ne_nil h
      rw [he, labelTexts_cons]
      simp
    change ('{' :: labelTexts labels.entries).dropLast ++ ['}'] = _
    rw [List.dropLast_cons_of_ne_nil hne, List.cons_append]

theorem labelTexts_concat {es : List (Str × Str)} (h : es ≠ []) :
    labelTexts es = (labelTexts es).dropLast ++ [','] := by
  obtain ⟨init, e, rfl⟩ := List.eq_nil_or_concat es |>.resolve_left h
  have hlast : labelTexts (init.concat e) =
      (labelTexts init ++ (e.1 ++ "=\"".toList ++ e.2 ++ ['"'])) ++ [','] := by
    simp [labelTexts, labelText]
  rw [hlast, List.dropLast_concat]

/-- Where the text of one value runs on, it runs into the next label. -/
theorem imitates_of_run_on {t rest : Str} {es : List (Str × Str)} (hes : ∀ e ∈ es, ValidName e.1)
    (ht : t ≠ []) (h : '"' :: ',' :: labelTexts es = t ++ ('"' :: rest)) : Imitates t := by
  obtain ⟨c, t₁, rfl⟩ := List.exists_cons_of_ne_nil ht
  obtain ⟨rfl, h₁⟩ := List.cons.inj h
  cases t₁ with
  | nil => cases h₁
  | cons d t₂ =>
    obtain ⟨rfl, h₂⟩ := List.cons.inj h₁
    cases es with
    | nil => exact absurd h₂ (by simp [labelTexts])
    | cons e es =>
      obtain ⟨k, v⟩ := e
      have hk : ValidName k := hes _ List.mem_cons_self
      rw [labelTexts_cons] at h₂
      rcases List.append_eq_append_iff.mp h₂ with ⟨u, hu, hrest⟩ | ⟨u, hu, hrest⟩
      · -- the text passes the key, so it holds the equals sign
        cases u with
        | nil => cases hrest
        | cons x u =>
          obtain ⟨rfl, -⟩ := List.cons.inj hrest
          exact ⟨k, hk, [], u, by rw [hu]; simp⟩
      · -- the text ends inside the key, and a key has no quote
        cases u with
        | nil => cases hrest
        | cons x u =>
          obtain ⟨rfl, -⟩ := List.cons.inj hrest
          exact absurd (hu ▸ by simp : '"' ∈ k) (hk.not_mem (by decide))

/-- A value that holds no imitation ends where the text says. -/
theorem run_on_nil {v t rest : Str} {es : List (Str × Str)} (hes : ∀ e ∈ es, ValidName e.1)
    (hv : ¬ Imitates (v ++ t)) (h : '"' :: ',' :: labelTexts es = t ++ ('"' :: rest)) : t = [] := by
  by_contra hne
  obtain ⟨key, hkey, hin⟩ := imitates_of_run_on hes hne h
  exact hv ⟨key, hkey, hin.trans (List.suffix_append v t).isInfix⟩

theorem labelTexts_injective {es es' : List (Str × Str)}
    (h : ∀ e ∈ es, ValidName e.1 ∧ ¬ Imitates e.2) (h' : ∀ e ∈ es', ValidName e.1 ∧ ¬ Imitates e.2)
    (heq : labelTexts es = labelTexts es') : es = es' := by
  induction es generalizing es' with
  | nil =>
    cases es' with
    | nil => rfl
    | cons e es' => rw [labelTexts_cons] at heq; simp [labelTexts] at heq
  | cons e es ih =>
    cases es' with
    | nil => rw [labelTexts_cons] at heq; simp [labelTexts] at heq
    | cons e' es' =>
      obtain ⟨k, v⟩ := e
      obtain ⟨k', v'⟩ := e'
      obtain ⟨hk, hv⟩ := h _ List.mem_cons_self
      obtain ⟨hk', hv'⟩ := h' _ List.mem_cons_self
      have hes : ∀ x ∈ es, ValidName x.1 ∧ ¬ Imitates x.2 :=
        fun x hx => h x (List.mem_cons_of_mem _ hx)
      have hes' : ∀ x ∈ es', ValidName x.1 ∧ ¬ Imitates x.2 :=
        fun x hx => h' x (List.mem_cons_of_mem _ hx)
      rw [labelTexts_cons, labelTexts_cons] at heq
      obtain ⟨rfl, hrest⟩ := Text.split_first (hk.not_mem (by decide)) (hk'.not_mem (by decide)) heq
      replace hrest := (List.cons.inj hrest).2
      rcases List.append_eq_append_iff.mp hrest with ⟨t, rfl, hx⟩ | ⟨t, rfl, hx⟩
      · obtain rfl := run_on_nil (fun x hx => (hes x hx).1) hv' hx
        rw [List.append_nil, ih hes hes' (by simpa using hx)]
      · obtain rfl := run_on_nil (fun x hx => (hes' x hx).1) hv hx
        rw [List.append_nil, ih hes hes' (by simpa using hx.symm)]

/-- Label sets with plain values are told apart by their texts. -/
theorem toString_injective {labels labels' : LabelSet} (h : PlainLabels labels)
    (h' : PlainLabels labels') (heq : labels.toString = labels'.toString) : labels = labels' := by
  apply OrderedMap.eq_of_entries
  rw [toString_eq, toString_eq] at heq
  by_cases hn : labels.entries = []
  · by_cases hn' : labels'.entries = []
    · rw [hn, hn']
    · rw [if_pos hn, if_neg hn'] at heq
      cases heq
  · by_cases hn' : labels'.entries = []
    · rw [if_neg hn, if_pos hn'] at heq
      cases heq
    · rw [if_neg hn, if_neg hn'] at heq
      have htexts : labelTexts labels.entries = labelTexts labels'.entries := by
        rw [labelTexts_concat hn, labelTexts_concat hn',
          List.append_cancel_right (List.cons.inj heq).2]
      exact labelTexts_injective (fun e he => ⟨(h e he).1, (h e he).2.2⟩)
        (fun e he => ⟨(h' e he).1, (h' e he).2.2⟩) htexts

theorem newline_toString {labels : LabelSet}
    (h : ∀ e ∈ labels.entries, ValidName e.1 ∧ '\n' ∉ e.2) : '\n' ∉ labels.toString := by
  have htexts : '\n' ∉ labelTexts labels.entries := by
    intro hm
    obtain ⟨e, he, hc⟩ := List.mem_flatMap.mp hm
    have hkey := (h e he).1.not_mem (c := '\n') (by decide)
    simp [labelText, hkey, (h e he).2] at hc
  rw [toString_eq]
  split
  · exact List.not_mem_nil
  · have hinit : '\n' ∉ (labelTexts labels.entries).dropLast :=
      fun hm => htexts (List.dropLast_subset _ hm)
    simp [hinit]

/-! ## Lines -/

theorem newline_stringify {p : IPoint} (hname : '\n' ∉ p.fullname) (hl : PlainLabels p.labelSet) :
    '\n' ∉ p.stringify := by
  have hlabels := newline_toString fun e he => ⟨(hl e he).1, (hl e he).2.1⟩
  have hvalue := p.value.text_no_break (c := '\n') (by decide)
  rw [IPoint.stringify_eq]
  simp [hname, hlabels, hvalue]

/-- What follows the name of a family and a suffix does not begin like a suffix. -/
theorem toString_head (labels : LabelSet) (rest : Str) :
    ∃ c cs, labels.toString ++ ' ' :: rest = c :: cs ∧ c ≠ '_' := by
  rw [toString_eq]
  split
  · exact ⟨' ', rest, rfl, by decide⟩
  · exact ⟨'{', _, rfl, by decide⟩

/-- In a family, a line tells the name and the label set of its point. -/
theorem line_series {fullname : Str} {labels labels' : LabelSet} {p q : IPoint}
    (hp : IMetric.IsSeries fullname labels (p.fullname, p.labelSet))
    (hq : IMetric.IsSeries fullname labels' (q.fullname, q.labelSet))
    (hpl : PlainLabels p.labelSet) (hql : PlainLabels q.labelSet)
    (heq : p.stringify = q.stringify) : p.fullname = q.fullname ∧ p.labelSet = q.labelSet := by
  obtain ⟨⟨s, hs, hps⟩, -⟩ := hp
  obtain ⟨⟨t, ht, hqt⟩, -⟩ := hq
  replace hps : p.fullname = fullname ++ s := hps
  replace hqt : q.fullname = fullname ++ t := hqt
  rw [IPoint.stringify_eq, IPoint.stringify_eq, hps, hqt] at heq
  simp only [List.append_assoc] at heq
  replace heq := List.append_cancel_left heq
  have hst : s = t := by
    obtain ⟨c, cs, hc, hne⟩ := toString_head p.labelSet p.value.text
    obtain ⟨d, ds, hd, hne'⟩ := toString_head q.labelSet q.value.text
    rw [hc, hd] at heq
    simp only [List.mem_cons, List.not_mem_nil, or_false] at hs ht
    rcases hs with rfl | rfl | rfl <;> rcases ht with rfl | rfl | rfl <;>
      first | rfl | simp_all [@eq_comm _ '_']
  subst hst
  obtain ⟨htext, -⟩ := Text.split_last (p.value.text_no_break (by decide))
    (q.value.text_no_break (by decide)) (List.append_cancel_left heq)
  exact ⟨by rw [hps, hqt], toString_injective hpl hql htext⟩

/-! ## Families -/

theorem plain_leText (le : Double) : Plain (leText le) := by
  have hbreak : ∀ c, Double.IsBreak c → c ∉ leText le := by
    intro c hc
    unfold leText
    split
    · have hall : ∀ d ∈ " \n\"".toList, d ∉ "+Inf".toList :=
        List.all_iff_forall_prop.mp (by decide)
      exact hall c hc
    · exact le.toFixed_no_break hc
  refine ⟨hbreak '\n' (by decide), ?_⟩
  rintro ⟨key, -, hin⟩
  exact hbreak '"' (by decide) (hin.subset (by simp))

theorem plain_emplace {labels : LabelSet} (h : PlainLabels labels) (le : Double) :
    PlainLabels (labels.emplace "le".toList (leText le)) := by
  rintro ⟨k, v⟩ he
  have hfind := (labels.emplace "le".toList (leText le)).mem_entries_iff.mp he
  exact OrderedMap.forall_emplace ⟨(by decide : ValidName "le".toList), plain_leText le⟩
    (fun q b hq => h (q, b) (labels.mem_entries_iff.mpr hq)) k v hfind

/-- The points of a family that was sampled under plain label sets only. -/
theorem point_plain {lib : Libraries} {f : MetricFamily} (hf : f.Named lib PlainLabels)
    {points : List IPoint} (hp : f.points lib = some points) {p : IPoint} (hmem : p ∈ points) :
    PlainLabels p.labelSet ∧
      ∃ labels, IMetric.IsSeries f.getFullname labels (p.fullname, p.labelSet) := by
  obtain ⟨labels, hplain, hseries⟩ := MetricFamily.point_named hf hp hmem
  refine ⟨?_, labels, hseries⟩
  rcases (show p.labelSet = labels ∨ ∃ le, p.labelSet = _ from hseries.2) with h | ⟨le, h⟩
  · exact h ▸ hplain
  · exact h ▸ plain_emplace hplain le

theorem lines_metricText {points : List IPoint} (h : ∀ p ∈ points, '\n' ∉ p.stringify)
    (rest : Str) :
    Text.lines '\n' (MetricFamily.metricText points ++ rest) =
      points.map IPoint.stringify ++ Text.lines '\n' rest := by
  have hpoints : ∀ p ∈ points, '\n' ∉ p.stringify ∧ p.stringify ≠ [] :=
    fun p hp => ⟨h p hp, by simp [IPoint.stringify_eq]⟩
  unfold MetricFamily.metricText
  rw [List.append_assoc]
  refine (Text.lines_flatMap hpoints _).trans (congrArg _ ?_)
  split
  · exact Text.lines_break '\n' rest
  · rfl

theorem lines_metrics {lib : Libraries} {name : Str} {ms : List IMetric}
    (h : ∀ p ∈ ms.flatMap (fun m => m.points lib name), '\n' ∉ p.stringify) :
    Text.lines '\n' (ms.flatMap fun m => MetricFamily.metricText (m.points lib name)) =
      (ms.flatMap fun m => m.points lib name).map IPoint.stringify := by
  induction ms with
  | nil => rfl
  | cons m ms ih =>
    simp only [List.flatMap_cons, List.mem_append] at h ⊢
    rw [lines_metricText fun p hp => h p (Or.inl hp), ih fun p hp => h p (Or.inr hp),
      List.map_append]

/-- The lines of the samples are those of the points, in their order. -/
theorem lines_samples {lib : Libraries} {f : MetricFamily} {points : List IPoint} {text : Str}
    (hp : f.points lib = some points) (ht : f.samples lib = some text)
    (h : ∀ p ∈ points, '\n' ∉ p.stringify) :
    Text.lines '\n' text = points.map IPoint.stringify := by
  obtain ⟨ms, hv, rfl⟩ := Option.map_eq_some_iff.mp hp
  rw [MetricFamily.samples, hv] at ht
  cases ht
  exact lines_metrics h

/-! ## Which values are safe -/

section
variable (lib : Libraries) (A : Char → Prop) (N : Str → Prop)

/-- Valid label names, and values written with the characters `A`. -/
def LabelsOver (labels : LabelSet) : Prop :=
  ∀ e ∈ labels.entries, ValidName e.1 ∧ ∀ c ∈ e.2, A c

/-- The states of families with a full name in `N`, sampled under such label sets. -/
def FamilyOver (f : MetricFamily) : Prop :=
  ∃ config events, f = MetricFamily.run lib ⟨config, .empty⟩ events ∧
    N (MetricFamily.getFullname ⟨config, .empty⟩) ∧
    ∀ e ∈ events, ∀ labels ∈ e.sampled, LabelsOver A labels

/-- Values written with the characters `A` cannot forge or confuse the text. -/
structure Unforgeable : Prop where
  injective : ∀ labels labels', LabelsOver A labels → LabelsOver A labels' →
    labels.toString = labels'.toString → labels = labels'
  oneLine : ∀ labels, LabelsOver A labels → '\n' ∉ labels.toString
  lines : ∀ f, FamilyOver lib A N f → ∀ points text, f.points lib = some points →
    f.samples lib = some text → Text.lines '\n' text = points.map IPoint.stringify
  series : ∀ f g, FamilyOver lib A N f → FamilyOver lib A N g → f.getFullname = g.getFullname →
    ∀ points points', f.points lib = some points → g.points lib = some points' →
    ∀ p ∈ points, ∀ q ∈ points', p.stringify = q.stringify →
      p.fullname = q.fullname ∧ p.labelSet = q.labelSet

end

variable {lib : Libraries} {A : Char → Prop} {N : Str → Prop}

/-- The characters that it takes to imitate another label. -/
def CanImitate (A : Char → Prop) : Prop := A '"' ∧ A ',' ∧ A '=' ∧ ∃ c, isNameStart c = true ∧ A c

theorem canImitate_of_imitates {value : Str} (hv : ∀ c ∈ value, A c) (h : Imitates value) :
    CanImitate A := by
  obtain ⟨key, hkey, hin⟩ := h
  have hmem : ∀ c ∈ "\",".toList ++ key ++ "=".toList, A c := fun c hc => hv c (hin.subset hc)
  obtain _ | ⟨c, cs⟩ := key
  · exact hkey.elim
  · exact ⟨hmem _ (by simp), hmem _ (by simp), hmem _ (by simp), c, hkey.1, hmem _ (by simp)⟩

theorem plainLabels_of_over (hn : ¬ A '\n') (hi : ¬ CanImitate A) {labels : LabelSet}
    (h : LabelsOver A labels) : PlainLabels labels :=
  fun e he => ⟨(h e he).1, fun hm => hn ((h e he).2 _ hm),
    fun himit => hi (canImitate_of_imitates (h e he).2 himit)⟩

theorem FamilyOver.named (hn : ¬ A '\n') (hi : ¬ CanImitate A) {f : MetricFamily}
    (h : FamilyOver lib A N f) : f.Named lib PlainLabels := by
  obtain ⟨config, events, rfl, -, hover⟩ := h
  exact MetricFamily.run_named fun e he labels hl =>
    plainLabels_of_over hn hi (hover e he labels hl)

theorem FamilyOver.name {f : MetricFamily} (h : FamilyOver lib A N f) : N f.getFullname := by
  obtain ⟨config, events, rfl, hname, -⟩ := h
  have hconfig := MetricFamily.config_run lib ⟨config, .empty⟩ events
  unfold MetricFamily.getFullname MetricFamily.getUnit MetricFamily.getBaseName at hname ⊢
  rw [hconfig]
  exact hname

theorem unforgeable_of_safe (hname : ∀ name, N name → '\n' ∉ name) (hn : ¬ A '\n')
    (hi : ¬ CanImitate A) : Unforgeable lib A N where
  injective _ _ h h' := toString_injective (plainLabels_of_over hn hi h)
    (plainLabels_of_over hn hi h')
  oneLine _ h := newline_toString fun e he =>
    ⟨(h e he).1, (plainLabels_of_over hn hi h e he).2.1⟩
  lines f hf points text hp ht := by
    apply lines_samples hp ht
    intro p hmem
    obtain ⟨hplain, labels, ⟨suffix, hs, hfull⟩, -⟩ := point_plain (hf.named hn hi) hp hmem
    refine newline_stringify ?_ hplain
    have hsuffix : '\n' ∉ suffix := by
      simp only [List.mem_cons, List.not_mem_nil, or_false] at hs
      rcases hs with rfl | rfl | rfl <;> decide
    rw [show p.fullname = f.getFullname ++ suffix from hfull, List.mem_append, not_or]
    exact ⟨hname _ hf.name, hsuffix⟩
  series f g hf hg hfg points points' hp hq p hpm q hqm heq := by
    obtain ⟨hpl, labels, hps⟩ := point_plain (hf.named hn hi) hp hpm
    obtain ⟨hql, labels', hqs⟩ := point_plain (hg.named hn hi) hq hqm
    exact line_series hps (hfg ▸ hqs) hpl hql heq

/-- Two labels with empty values, and one label that reads like both. -/
theorem not_injective (hi : CanImitate A) : ¬ ∀ labels labels', LabelsOver A labels →
    LabelsOver A labels' → labels.toString = labels'.toString → labels = labels' := by
  obtain ⟨hquote, hcomma, hequals, c, hc, hAc⟩ := hi
  have hone : ValidName [c] := ⟨hc, by simp⟩
  have htwo : ValidName [c, c] := ⟨hc, by simpa using hone.char List.mem_cons_self⟩
  intro h
  let labels : LabelSet := ⟨[([c], []), ([c, c], [])], by simp⟩
  let labels' : LabelSet := ⟨[([c], ['"', ',', c, c, '=', '"'])], by simp⟩
  have hover : LabelsOver A labels := by simp [LabelsOver, labels, hone, htwo]
  have hover' : LabelsOver A labels' := by
    simp [LabelsOver, labels', hone, hquote, hcomma, hequals, hAc]
  have hlen := congrArg (fun m : LabelSet => m.entries.length) (h labels labels' hover hover' rfl)
  exact absurd hlen (by simp [labels, labels'])

/-- One sample of a counter whose name breaks the line. -/
theorem not_lines {name : Str} (hN : N name) (hname : '\n' ∈ name) : ¬ Unforgeable lib A N := by
  intro h
  let config : Configuration :=
    ⟨[], ⟨name, .counter, [], [], [], [], [], [], []⟩, [], 0⟩
  let f := MetricFamily.run lib ⟨config, .empty⟩ [.sample 0 [] .empty]
  have hf : FamilyOver lib A N f :=
    ⟨config, _, rfl, hN, by
      rintro e he labels hl e' he'
      cases List.mem_singleton.mp he
      cases hl
      cases he'⟩
  have hpoints : f.points lib =
      some [⟨name ++ "_total".toList, .empty, (Double.ofInt 0).succ⟩] := rfl
  obtain ⟨text, ht⟩ : ∃ text, f.samples lib = some text := ⟨_, rfl⟩
  have hlines := h.lines f hf _ text hpoints ht
  have hmem : (IPoint.mk (name ++ "_total".toList) .empty (Double.ofInt 0).succ).stringify ∈
      Text.lines '\n' text := by
    rw [hlines]
    exact List.mem_cons_self
  exact Text.not_mem_of_mem_lines hmem (by simp [IPoint.stringify, hname])

/-- Label values are safe for the text exactly when they are written without
line breaks and lack one of the characters that imitate a label; and the names
of the metrics must not break lines. -/
theorem unforgeable_iff (lib : Libraries) (A : Char → Prop) (N : Str → Prop) :
    Unforgeable lib A N ↔ (∀ name, N name → '\n' ∉ name) ∧ ¬ A '\n' ∧ ¬ CanImitate A := by
  constructor
  · intro h
    refine ⟨fun name hN hname => not_lines hN hname h, fun hn => ?_, fun hi => ?_⟩
    · refine h.oneLine ⟨[("a".toList, ['\n'])], by simp⟩ (fun e he => ?_) (by decide)
      cases List.mem_singleton.mp he
      exact ⟨by decide, by simpa using hn⟩
    · exact not_injective hi h.injective
  · rintro ⟨hname, hn, hi⟩
    exact unforgeable_of_safe hname hn hi

/-- With any characters in the values, a value can add a label. -/
theorem forgeable : ¬ ∀ lib, Unforgeable lib (fun _ => True) ValidName := by
  intro h
  have heq := (h simpleLibraries).injective
    ⟨[("id".toList, "7\",unit=\"W".toList)], by simp⟩
    ⟨[("id".toList, "7".toList), ("unit".toList, "W".toList)], by simp; decide⟩
    (by simp [LabelsOver]; decide) (by simp [LabelsOver]; decide) (by decide)
  revert heq
  decide

end MqttExporter
