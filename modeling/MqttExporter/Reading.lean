import MqttExporter.Base.MetricText
import MqttExporter.Exposition
import MqttExporter.Replies

/-!
# Reading a response

What is read from a response by the rules of `MetricText`. They leave out that the
suffix of a sample goes with the type: a histogram of the program prints its count
under `_total` and its sum under the bare name.

* `stringify_line`, `lines_passText`: the lines of the program are those of the
  format, as long as names are names and label values need no backslash;
* `reply_read`: so a response reads back as what the passes over the registered
  families printed, unless two of them have one name.
-/

namespace MqttExporter

open MetricText (Literal isName isValue isWord word_of_name noteLine sampleLine familyLines)

/-- A label set that can be written without a backslash. -/
def Readable (labels : LabelSet) : Prop :=
  ∀ e ∈ labels.entries, isName e.1 = true ∧ Literal e.2 ∧ '\n' ∉ e.2

/-- An entry whose announcement keeps to the format. -/
structure ReadableEntry (config : Configuration) : Prop where
  name : isName (MetricFamily.getFullname ⟨config, .empty⟩) = true
  unit : '\n' ∉ config.openMetric.unit
  help : '\n' ∉ config.openMetric.help

/-- A point, as the format has it. -/
def IPoint.sample (p : IPoint) : MetricText.Sample :=
  ⟨p.fullname, p.labelSet.entries, p.value.text⟩

/-- A family that shows the points. -/
def Configuration.announce (config : Configuration) (points : List IPoint) : MetricText.Family :=
  let f : MetricFamily := ⟨config, .empty⟩
  ⟨f.getFullname, f.getStandardType, f.getUnit, f.getHelp, points.map IPoint.sample⟩

/-! ## Lines -/

theorem labelTexts_dropLast (es : List (Str × Str)) :
    (labelTexts es).dropLast = MetricText.labelsText es := by
  induction es with
  | nil => rfl
  | cons e es ih =>
    obtain ⟨k, v⟩ := e
    cases es with
    | nil =>
      have htext : labelTexts [(k, v)] = (k ++ "=\"".toList ++ v ++ "\"".toList) ++ [','] := by
        simp [labelTexts, labelText]
      rw [htext, List.dropLast_concat, MetricText.labelsText]
    | cons e' es =>
      have hne : labelTexts (e' :: es) ≠ [] := by
        obtain ⟨k', v'⟩ := e'
        rw [labelTexts_cons]
        simp
      have htext : labelTexts ((k, v) :: e' :: es) =
          (k ++ "=\"".toList ++ v ++ "\",".toList) ++ labelTexts (e' :: es) := rfl
      rw [htext, List.dropLast_append_of_ne_nil hne, ih]
      rfl

/-- A line of the program is a line of the format. -/
theorem stringify_line (p : IPoint) : p.stringify = sampleLine p.sample := by
  rw [IPoint.stringify_eq, toString_eq, labelTexts_dropLast]
  rfl

theorem newline_name {s : Str} (h : isName s = true) : '\n' ∉ s :=
  fun hm => absurd (word_of_name h _ hm) (by decide)

theorem isValue_text (d : Double) : isValue d.text = true := by
  cases d with
  | finite x hx =>
    rw [isValue, Double.text, Decimal.read_showGeneral (by norm_num)]
    rfl
  | infinite negative => cases negative <;> decide +kernel
  | nan => decide +kernel

/-- A point of a family with such labels. -/
structure ReadablePoint (fullname : Str) (p : IPoint) : Prop where
  name : isName p.fullname = true
  suffix : ∃ suffix ∈ MetricText.suffixes, p.fullname = fullname ++ suffix
  labels : Readable p.labelSet

theorem ReadablePoint.clean {fullname : Str} {p : IPoint} (h : ReadablePoint fullname p) :
    p.sample.Clean where
  wellFormed := by
    have hnames : p.labelSet.entries.all (fun l => isName l.1) = true :=
      List.all_eq_true.mpr fun e he => (h.labels e he).1
    simp only [MetricText.Sample.wellFormed, IPoint.sample, h.name, hnames, isValue_text,
      Bool.true_and, Bool.and_true]
    exact decide_eq_true p.labelSet.keys_nodup
  literal := fun e he => (h.labels e he).2.1

theorem newline_point {fullname : Str} {p : IPoint} (h : ReadablePoint fullname p) :
    '\n' ∉ p.stringify := by
  have htexts : '\n' ∉ labelTexts p.labelSet.entries := by
    intro hm
    obtain ⟨e, he, hc⟩ := List.mem_flatMap.mp hm
    obtain ⟨hkey, -, hvalue⟩ := h.labels e he
    simp [labelText, newline_name hkey, hvalue] at hc
  have hinit : '\n' ∉ MetricText.labelsText p.labelSet.entries := by
    rw [← labelTexts_dropLast]
    exact fun hm => htexts (List.dropLast_subset _ hm)
  have hvalue := p.value.text_no_break (c := '\n') (by decide)
  rw [stringify_line, sampleLine]
  simp only [List.mem_append, List.mem_cons, not_or]
  refine ⟨⟨newline_name h.name, ?_⟩, by decide, hvalue⟩
  split
  · exact List.not_mem_nil
  · change '\n' ∉ '{' :: MetricText.labelsText p.labelSet.entries ++ ['}']
    simp [hinit]

/-! ## Texts -/

theorem newline_note {word name text : Str} (hword : '\n' ∉ word) (hname : '\n' ∉ name)
    (htext : '\n' ∉ text) : '\n' ∉ noteLine word name text := by
  simp [noteLine, hword, hname, htext]

theorem newline_type (f : MetricFamily) : '\n' ∉ f.getStandardType := by
  unfold MetricFamily.getStandardType
  split <;> decide

theorem header_lines (config : Configuration) : MetricFamily.header ⟨config, .empty⟩ =
    (familyLines (config.announce [])).flatMap fun line => line ++ ['\n'] := by
  unfold MetricFamily.header familyLines Configuration.announce
  simp only
  split
  · simp [noteLine]
  · simp [noteLine]

theorem lines_header {config : Configuration} (h : ReadableEntry config) (rest : Str) :
    Text.lines '\n' (MetricFamily.header ⟨config, .empty⟩ ++ rest) =
      familyLines (config.announce []) ++ Text.lines '\n' rest := by
  have hlines : ∀ line ∈ familyLines (config.announce []), '\n' ∉ line ∧ line ≠ [] := by
    have hnote : ∀ word name text : Str, noteLine word name text ≠ [] := by
      intro word name text
      simp [noteLine]
    have hname := newline_name h.name
    intro line hline
    simp only [familyLines, Configuration.announce, List.map_nil, List.mem_append, List.mem_cons,
      List.not_mem_nil, or_false] at hline
    rcases hline with (rfl | hunit) | rfl
    · exact ⟨newline_note (by decide) hname (newline_type _), hnote _ _ _⟩
    · split at hunit
      · cases hunit
      · cases List.mem_singleton.mp hunit
        exact ⟨newline_note (by decide) hname h.unit, hnote _ _ _⟩
    · exact ⟨newline_note (by decide) hname h.help, hnote _ _ _⟩
  rw [header_lines]
  exact (Text.lines_flatMap hlines rest).trans (by rw [List.map_id'])

theorem announce_append (config : Configuration) (points : List IPoint) :
    familyLines (config.announce points) =
      familyLines (config.announce []) ++ points.map IPoint.stringify := by
  have hlines : (points.map IPoint.sample).map sampleLine = points.map IPoint.stringify := by
    rw [List.map_map]
    exact List.map_congr_left fun p _ => (stringify_line p).symm
  unfold familyLines Configuration.announce
  simp only [List.map_nil]
  rw [hlines]
  simp

/-- The points of a pass, in the order in which it printed them. -/
def passPoints (p : Pass) : List IPoint := p.done.flatMap Prod.snd

theorem lines_done {fullname : Str} {done : List (LabelSet × List IPoint)}
    (h : ∀ p ∈ done.flatMap Prod.snd, ReadablePoint fullname p) (rest : Str) :
    Text.lines '\n' (done.flatMap (fun d => MetricFamily.metricText d.2) ++ rest) =
      (done.flatMap Prod.snd).map IPoint.stringify ++ Text.lines '\n' rest := by
  induction done with
  | nil => rfl
  | cons d done ih =>
    simp only [List.flatMap_cons, List.mem_append] at h ⊢
    rw [List.append_assoc, lines_metricText fun p hp => newline_point (h p (Or.inl hp)),
      ih fun p hp => h p (Or.inr hp), List.map_append, List.append_assoc]

theorem lines_passText {config : Configuration} (hc : ReadableEntry config)
    {p : Pass} {fullname : Str} (hp : ∀ point ∈ passPoints p, ReadablePoint fullname point)
    (rest : Str) :
    Text.lines '\n' (Concurrent.passText config p ++ "\n".toList ++ rest) =
      familyLines (config.announce (passPoints p)) ++ Text.lines '\n' rest := by
  have htext : Concurrent.passText config p ++ "\n".toList ++ rest =
      MetricFamily.header ⟨config, .empty⟩ ++
        (p.done.flatMap (fun d => MetricFamily.metricText d.2) ++ '\n' :: '\n' :: rest) := by
    simp [Concurrent.passText]
  rw [htext, lines_header hc, lines_done hp, Text.lines_break, Text.lines_break,
    announce_append config (passPoints p), List.append_assoc]
  rfl

/-! ## What is printed is readable -/

theorem backslash_leText (le : Double) : '\\' ∉ leText le := by
  unfold leText
  split
  · decide
  · cases le with
    | finite x hx =>
      intro hm
      rcases Decimal.numeral_showFixed 6 x _ hm with hdigit | hmark
      · exact absurd hdigit (by decide)
      · exact absurd hmark (by decide)
    | infinite negative => cases negative <;> decide
    | nan => decide

theorem readable_emplace {labels : LabelSet} (h : Readable labels) (le : Double) :
    Readable (labels.emplace "le".toList (leText le)) := by
  rintro ⟨k, v⟩ he
  have hle := plain_leText le
  have hquote : '"' ∉ leText le := by
    unfold leText
    split
    · decide
    · exact le.toFixed_no_break (by decide)
  have hfind := (labels.emplace "le".toList (leText le)).mem_entries_iff.mp he
  have hname : isName "le".toList = true := by decide
  exact OrderedMap.forall_emplace ⟨hname, ⟨hquote, backslash_leText le⟩, hle.1⟩
    (fun q b hq => h (q, b) (labels.mem_entries_iff.mpr hq)) k v hfind

theorem readable_series {fullname : Str} (hname : isName fullname = true)
    {labels : LabelSet} (hl : Readable labels) {p : IPoint}
    (h : IMetric.IsSeries fullname labels (p.fullname, p.labelSet)) :
    ReadablePoint fullname p := by
  obtain ⟨⟨suffix, hsuffix, hfull⟩, hset⟩ := h
  replace hfull : p.fullname = fullname ++ suffix := hfull
  have hall : (["".toList, "_total".toList, "_bucket".toList].all fun s =>
      s.all isWord && MetricText.suffixes.contains s) = true := by
    decide
  have hknown := List.all_eq_true.mp hall suffix hsuffix
  rw [Bool.and_eq_true, List.contains_iff_mem] at hknown
  refine ⟨?_, ⟨suffix, hknown.2, hfull⟩, ?_⟩
  · rw [hfull]
    exact MetricText.isName_append hname hknown.1
  · rcases (show p.labelSet = labels ∨ ∃ le, p.labelSet = _ from hset) with heq | ⟨le, heq⟩
    · exact heq ▸ hl
    · exact heq ▸ readable_emplace hl le

namespace Concurrent

theorem regular_readable {lib : Libraries} {config : Configuration} {events : List FamilyEvent}
    {p : Pass} (h : Regular lib config events p) (hc : ReadableEntry config)
    (he : ∀ event ∈ events, ∀ labels ∈ event.sampled, Readable labels) :
    ∀ point ∈ passPoints p,
      ReadablePoint (MetricFamily.getFullname ⟨config, .empty⟩) point := by
  intro point hpoint
  obtain ⟨⟨labels, printed⟩, hdone, hmem⟩ := List.mem_flatMap.mp hpoint
  obtain ⟨m, hm, hseries⟩ := h.complete labels printed hdone
  have hnamed : (familyAt lib config events p.start).Named lib Readable :=
    MetricFamily.run_named fun event hevent => he event (List.mem_of_mem_take hevent)
  obtain ⟨item, hfind, hitem⟩ := Option.bind_eq_some_iff.mp hm
  obtain ⟨hreadable, hbelongs⟩ := hnamed labels item m hfind hitem
  have hin : (point.fullname, point.labelSet) ∈ printedSeries printed :=
    List.mem_map_of_mem hmem
  rw [hseries] at hin
  exact readable_series hc.name hreadable (hbelongs.2 _ _ hin)

end Concurrent

/-! ## The whole response -/

namespace Exporter

theorem announce_clean {config : Configuration} (hc : ReadableEntry config) {points : List IPoint}
    (hp : ∀ p ∈ points, ReadablePoint (MetricFamily.getFullname ⟨config, .empty⟩) p) :
    (config.announce points).Clean where
  wellFormed := by
    rw [MetricText.Family.wellFormed, Bool.and_eq_true, List.all_eq_true]
    refine ⟨hc.name, fun s hs => ?_⟩
    obtain ⟨p, hmem, rfl⟩ := List.mem_map.mp hs
    obtain ⟨suffix, hknown, hfull⟩ := (hp p hmem).suffix
    exact List.any_eq_true.mpr ⟨suffix, hknown, decide_eq_true hfull⟩
  samples := by
    intro s hs
    obtain ⟨p, hmem, rfl⟩ := List.mem_map.mp hs
    exact (hp p hmem).clean

/-- Blocks that are families of the format, one after the other. -/
theorem lines_blocks {R : Str × Configuration → Str → MetricText.Family → Prop}
    {es : List (Str × Configuration)} {blocks : List (Str × Str)}
    (hkeys : blocks.map Prod.fst = es.map Prod.fst)
    (h : ∀ entry ∈ es, ∀ text, (entry.1, text) ∈ blocks → ∃ family : MetricText.Family,
      family.Clean ∧ R entry text family ∧ ∀ rest,
        Text.lines '\n' (text ++ "\n".toList ++ rest) =
          familyLines family ++ Text.lines '\n' rest) (rest : Str) :
    ∃ families : List MetricText.Family, (∀ family ∈ families, family.Clean) ∧
      List.Forall₂ (fun entry family => ∃ text, R entry text family) es families ∧
      Text.lines '\n' (blocks.flatMap (fun b => b.2 ++ "\n".toList) ++ rest) =
        families.flatMap familyLines ++ Text.lines '\n' rest := by
  induction es generalizing blocks with
  | nil =>
    obtain rfl := List.map_eq_nil_iff.mp hkeys
    exact ⟨[], fun _ hmem => absurd hmem List.not_mem_nil, .nil, rfl⟩
  | cons entry es ih =>
    cases blocks with
    | nil => cases hkeys
    | cons b blocks =>
      obtain ⟨hkey, hrest⟩ := List.cons.inj hkeys
      obtain ⟨family, hclean, hR, hlines⟩ := h entry List.mem_cons_self b.2
        (by rw [← hkey]; exact List.mem_cons_self)
      obtain ⟨families, hcleans, hall, hothers⟩ := ih hrest fun x hx text ht =>
        h x (List.mem_cons_of_mem entry hx) text (List.mem_cons_of_mem b ht)
      refine ⟨family :: families, ?_, .cons ⟨b.2, hR⟩ hall, ?_⟩
      · intro f hf
        rcases List.mem_cons.mp hf with rfl | hf
        · exact hclean
        · exact hcleans f hf
      · rw [List.flatMap_cons, List.flatMap_cons, List.append_assoc (b.2 ++ _), hlines, hothers,
          List.append_assoc]

/-- The full names of entries, by which their families are announced. -/
def fullnames (entries : List (Str × Configuration)) : List Str :=
  entries.map fun entry => MetricFamily.getFullname ⟨entry.2, .empty⟩

theorem names_announced {lib : Libraries} {e : Exporter} {r : Reply}
    {entries : List (Str × Configuration)} {families : List MetricText.Family}
    (h : List.Forall₂ (fun entry family => ∃ text f first p,
      Block lib e r entry.1 text entry.2 f first p ∧
        family = entry.2.announce (passPoints p)) entries families) :
    families.map MetricText.Family.name = fullnames entries := by
  induction h with
  | nil => rfl
  | cons hfamily _ ih =>
    obtain ⟨text, f, first, p, -, rfl⟩ := hfamily
    rw [List.map_cons, ih]
    rfl

theorem Reachable.read_spec {lib : Libraries} {metrics : List Configuration} {app : App}
    {e : Exporter} (h : Reachable lib metrics app e) {r : Reply} (hr : r ∈ e.replies) {body : Str}
    (hanswered : Answered r body)
    (hentries : ∀ entry ∈ app.configs.entries, ReadableEntry entry.2)
    (hnames : (fullnames app.configs.entries).Nodup)
    (hlabels : ∀ key f, e.families.find? key = some f → ∀ event ∈ f.history,
      ∀ labels ∈ event.sampled, Readable labels) :
    ∃ families, MetricText.read body = some families ∧
      List.Forall₂ (fun entry family => ∃ text f first p,
        Block lib e r entry.1 text entry.2 f first p ∧
          family = entry.2.announce (passPoints p)) app.configs.entries families := by
  obtain ⟨hbody, hkeys, hblocks⟩ := h.blocks_spec hr hanswered
  obtain ⟨families, hclean, hall, hlines⟩ := lines_blocks
    (R := fun entry text family => ∃ f first p, Block lib e r entry.1 text entry.2 f first p ∧
      family = entry.2.announce (passPoints p)) hkeys (fun entry hentry text hblock => by
    obtain ⟨config, f, first, p, hconfig, hb⟩ := hblocks entry.1 text hblock
    have hfind : app.configs.find? entry.1 = some entry.2 :=
      app.configs.mem_entries_iff.mp hentry
    rw [hfind] at hconfig
    cases hconfig
    have hreadable := Concurrent.regular_readable hb.regular (hentries entry hentry)
      (hlabels entry.1 f hb.family)
    refine ⟨_, announce_clean (hentries entry hentry) hreadable, ⟨f, first, p, hb, rfl⟩, ?_⟩
    rw [hb.text]
    exact lines_passText (hentries entry hentry) hreadable) "# EOF\n".toList
  refine ⟨families, MetricText.read_lines hclean (names_announced hall ▸ hnames) ?_, hall⟩
  rw [hbody, response, hlines]
  rfl

/-- What `oneReply` leads to can be read. -/
theorem OneReply.readable {app : App} {e : Exporter} {r : Reply} {body : Str}
    (h : OneReply app e r body) : (∀ entry ∈ app.configs.entries, ReadableEntry entry.2) ∧
    (fullnames app.configs.entries).Nodup ∧
    ∀ key f, e.families.find? key = some f → ∀ event ∈ f.history,
      ∀ labels ∈ event.sampled, Readable labels := by
  refine ⟨fun entry hentries => ?_, ?_, fun key f hf event hevent labels hlabels => ?_⟩
  · rw [h.configs] at hentries
    cases List.mem_singleton.mp hentries
    exact ⟨by decide, by decide, by decide⟩
  · rw [h.configs]
    exact List.nodup_singleton _
  · have hfamily := List.all_eq_true.mp h.sampled (key, f) (e.families.mem_entries_iff.mpr hf)
    have hsampled := List.all_eq_true.mp hfamily event hevent
    rw [Option.mem_def.mp hlabels, Option.all_some, decide_eq_true_eq] at hsampled
    intro x hx
    rw [hsampled] at hx
    cases List.mem_singleton.mp hx
    exact ⟨by decide, ⟨by decide, by decide⟩, by decide⟩

end Exporter

end MqttExporter
