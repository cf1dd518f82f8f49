import MqttExporter.Base.KeyedRun
import MqttExporter.FamilyRun

/-!
# Series side by side

A call of `newSample` reads and writes the item of its own label set only, so
each series of a family is what its own payloads make of it.
-/

namespace MqttExporter

open Loop

namespace MetricFamily

/-- One call of `newSample`, with what the clock returns in it. -/
structure Sample where
  now : Int
  payload : Str
  labels : LabelSet
  deriving DecidableEq

def Sample.event (s : Sample) : FamilyEvent := .sample s.now s.payload s.labels

def sampleAll (lib : Libraries) (config : Configuration) (samples : List Sample) : MetricFamily :=
  run lib ⟨config, .empty⟩ (samples.map Sample.event)

/-- The payloads that one label set receives, in order. -/
def payloadsOf (labels : LabelSet) (samples : List Sample) : List Str :=
  Keyed.project Sample.labels Sample.payload labels samples

/-- The metric of each label set, without the timestamps. -/
def held (f : MetricFamily) (labels : LabelSet) : Option (Option IMetric) :=
  (f.metrics.find? labels).map MetricItem.metric

/-- What a call leaves under its label set, from what it finds there. -/
def afterSample (lib : Libraries) (config : OpenMetric) (labels : LabelSet) (payload : Str)
    (cell : Option (Option IMetric)) : Option (Option IMetric) :=
  let metric : Except Error IMetric := match cell.join with
    | some m => .ok m
    | none => IMetric.create lib config labels
  match metric with
  | .error _ => some none
  | .ok m =>
    match m.newSample lib payload with
    | .error _ => some (some m)
    | .ok m' => some (some m')

theorem held_join (f : MetricFamily) (labels : LabelSet) :
    (f.held labels).join = f.current labels := by
  unfold held current
  cases f.metrics.find? labels <;> rfl

theorem held_sample (lib : Libraries) (f : MetricFamily) (now : Int) (payload : Str)
    (labels : LabelSet) :
    (f.apply lib (.sample now payload labels)).held labels =
      afterSample lib f.config.openMetric labels payload (f.held labels) := by
  have htarget : f.target lib labels = match (f.held labels).join with
      | some m => .ok m
      | none => IMetric.create lib f.config.openMetric labels := by
    rw [held_join]
    rfl
  unfold afterSample
  rw [← htarget, apply, newSample_eq]
  cases ht : f.target lib labels with
  | error e =>
    -- no metric was there, and the one to be inserted could not be built
    have hnone : ((f.metrics.find? labels).getD ⟨none, 0⟩).metric = none := by
      cases hf : f.metrics.find? labels with
      | none => rfl
      | some item =>
        cases hm : item.metric with
        | none => exact hm
        | some m =>
          simp only [target, current, hf, Option.bind_some, hm] at ht
          cases ht
    simp only [final, held, OrderedMap.find?_set_self, Option.map_some, hnone]
  | ok m =>
    cases hm : m.newSample lib payload with
    | error e => simp only [hm, final, held, OrderedMap.find?_set_self, Option.map_some]
    | ok m' => simp only [hm, final, held, OrderedMap.find?_set_self, Option.map_some]

theorem keyed_samples (lib : Libraries) (config : Configuration) :
    Keyed (fun f s => apply lib f (Sample.event s)) (fun f => f.config = config) Sample.labels
      Sample.payload held (afterSample lib config.openMetric) where
  keep f s hf := (config_apply lib f s.event).trans hf
  own f s hf := by
    rw [← hf]
    exact held_sample lib f s.now s.payload s.labels
  frame f s k _ hk := by
    obtain ⟨item, hset, -⟩ := final_newSample lib s.now s.payload s.labels f
    change (final (newSample lib s.now s.payload s.labels f)).held k = f.held k
    rw [hset, held, OrderedMap.find?_set_ne _ _ hk]
    rfl

theorem sampleAll_eq (lib : Libraries) (config : Configuration) (samples : List Sample) :
    sampleAll lib config samples =
      samples.foldl (fun f s => apply lib f s.event) ⟨config, .empty⟩ := by
  rw [sampleAll, run, List.foldl_map]

theorem config_sampleAll (lib : Libraries) (config : Configuration) (samples : List Sample) :
    (sampleAll lib config samples).config = config :=
  config_run lib ⟨config, .empty⟩ _

/-! ## What a scrape sees -/

/-- The values of the points of each label set. -/
def pointValues (lib : Libraries) (f : MetricFamily) :
    OrderedMap LabelSet (Option (List Double)) :=
  f.metrics.mapValues fun _ item =>
    item.metric.map fun m => (m.points lib f.getFullname).map IPoint.value

theorem begin_eq (f : MetricFamily) :
    f.begin = (f.metrics.mapValues fun _ item => item.metric).entries.map Prod.snd := by
  simp [begin, OrderedMap.mapValues]

/-- The timestamps do not show. -/
theorem stringify_congr (lib : Libraries) {f g : MetricFamily} (hc : f.config = g.config)
    (hm : ∀ labels, f.held labels = g.held labels) :
    f.pointValues lib = g.pointValues lib ∧ f.stringify lib = g.stringify lib := by
  have hname := getFullname_congr hc
  have hmaps : (f.metrics.mapValues fun _ item => item.metric) =
      g.metrics.mapValues fun _ item => item.metric := by
    apply OrderedMap.ext_find
    intro labels
    rw [OrderedMap.find?_mapValues, OrderedMap.find?_mapValues]
    exact hm labels
  have hvisited : f.visited = g.visited := by
    rw [visited, visited, begin_eq, begin_eq, hmaps]
  constructor
  · apply OrderedMap.ext_find
    intro labels
    have hcell := hm labels
    unfold held at hcell
    unfold pointValues
    rw [OrderedMap.find?_mapValues, OrderedMap.find?_mapValues, hname]
    simpa [Option.map_map, Function.comp_def] using
      congrArg
        (Option.map (Option.map fun m => (m.points lib g.getFullname).map IPoint.value)) hcell
  · have hheader : f.header = g.header := by
      unfold header getStandardType getHelp
      rw [hname, getUnit, getUnit, hc]
    rw [stringify, stringify, samples, samples, hvisited, hname, hheader]

/-- Two runs that bring each label set the same payloads in the same order leave
the same values, and the same text. -/
theorem series_independent (lib : Libraries) (config : Configuration)
    {samples samples' : List Sample}
    (hsame : ∀ labels, payloadsOf labels samples = payloadsOf labels samples') :
    (sampleAll lib config samples).pointValues lib =
        (sampleAll lib config samples').pointValues lib ∧
      (sampleAll lib config samples).stringify lib =
        (sampleAll lib config samples').stringify lib := by
  apply stringify_congr
  · rw [config_sampleAll, config_sampleAll]
  · intro labels
    rw [sampleAll_eq, sampleAll_eq]
    exact (keyed_samples lib config).runs_agree rfl hsame labels

theorem series_independent_swap :
    let other : LabelSet := OrderedMap.ofList [("room".toList, "hall".toList)]
    (sampleAll simpleLibraries (counterEntry "t" "c")
        [⟨0, "1".toList, .empty⟩, ⟨5, "2".toList, other⟩, ⟨9, "3".toList, .empty⟩]).stringify
          simpleLibraries =
      (sampleAll simpleLibraries (counterEntry "t" "c")
        [⟨2, "1".toList, .empty⟩, ⟨1, "3".toList, .empty⟩, ⟨7, "2".toList, other⟩]).stringify
          simpleLibraries := by
  intro other
  refine (series_independent simpleLibraries (counterEntry "t" "c") fun labels => ?_).2
  by_cases h : OrderedMap.empty = labels
  · subst h
    decide
  · simp only [payloadsOf, Keyed.project, List.filter_cons, List.filter_nil, h, decide_false,
      Bool.false_eq_true, if_false]
    split <;> rfl

end MetricFamily

end MqttExporter
