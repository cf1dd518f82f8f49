import Mathlib.Data.Set.List
import MqttExporter.Base.Loop
import MqttExporter.Metric

/-!
# Metric families

One configured entry: its settings, and the series it has, by label set.
`newSample` creates a series on its first sample, `routine` removes the series
that have had none for longer than `maxAge`.
-/

namespace MqttExporter

open Loop

/-- A null `metric` is what `_metrics[labels]` inserts, until one is built. -/
structure MetricItem where
  metric : Option IMetric
  timestamp : Int
  deriving DecidableEq

structure MetricFamily where
  config : Configuration
  metrics : OrderedMap LabelSet MetricItem
  deriving DecidableEq

namespace MetricFamily

/-! ## Settings -/

def getBaseName (f : MetricFamily) : Str := f.config.openMetric.name

def getVariables (f : MetricFamily) : List Variable := f.config.vars

def getHelp (f : MetricFamily) : Str := f.config.openMetric.help

def getUnit (f : MetricFamily) : Str := f.config.openMetric.unit

def getFullname (f : MetricFamily) : Str :=
  if f.getUnit = [] then f.getBaseName else f.getBaseName ++ "_".toList ++ f.getUnit

theorem getFullname_congr {f g : MetricFamily} (h : f.config = g.config) :
    f.getFullname = g.getFullname := by
  unfold getFullname getUnit getBaseName
  rw [h]

/-- The name of `MetricType::standardType`. -/
def getStandardType (f : MetricFamily) : Str :=
  match f.config.openMetric.type with
  | .counter => "counter".toList
  | .gauge => "gauge".toList
  | .histogram => "histogram".toList
  | .summary => "summary".toList
  | .matchGauge => "gauge".toList

/-- The configured labels that `p` accepts, as a map. -/
def selectLabels (p : Label → Bool) (labels : List Label) : LabelSet :=
  OrderedMap.ofList ((labels.filter p).map fun label => (label.key, label.value))

def getConstantLabels (f : MetricFamily) : LabelSet :=
  selectLabels (fun label => !label.value.contains '$') f.config.openMetric.labels

def getVariableLabels (f : MetricFamily) : LabelSet :=
  selectLabels (fun label => label.value.contains '$') f.config.openMetric.labels

def parsePayload (lib : Libraries) (f : MetricFamily) (payload : Str) : Except Error Str := do
  let payload ←
    if f.config.openMetric.payloadJsonPath ≠ [] then
      lib.jsonAt payload f.config.openMetric.payloadJsonPath
    else pure payload
  if f.config.openMetric.payloadRegex ≠ [] then
    let regex ← lib.regex f.config.openMetric.payloadRegex
    let found ← lib.regexMatch regex payload
    return found.getD payload
  else return payload

/-- `IMetricFamily::create`. -/
def create (config : Configuration) : Except Error MetricFamily :=
  match config.openMetric.type with
  | .counter | .gauge | .histogram | .matchGauge => .ok ⟨config, .empty⟩
  | .summary => .error (.runtime "Unknown metric type")

theorem create_ok {config : Configuration} {f : MetricFamily} (h : create config = .ok f) :
    f = ⟨config, .empty⟩ := by
  unfold create at h
  split at h <;> cases h <;> rfl

/-! ## Samples -/

/-- Write the item that the reference `_metrics[labels]` names. -/
def setItem (labels : LabelSet) (item : MetricItem) : EStateM Error MetricFamily Unit :=
  modify fun f => { f with metrics := f.metrics.set labels item }

/-- `now` is what `Clock::now()` returns in this call. -/
def newSample (lib : Libraries) (now : Int) (payload : Str) (labels : LabelSet) :
    EStateM Error MetricFamily Unit := do
  let f ← get
  let item := (f.metrics.find? labels).getD ⟨none, 0⟩
  setItem labels item
  let metric ←
    match item.metric with
    | some metric => pure metric
    | none => raise (IMetric.create lib f.config.openMetric labels)
  setItem labels ⟨some metric, now⟩
  let sampled ← raise (metric.newSample lib payload)
  setItem labels ⟨some sampled, now⟩

/-- The loop erases an expired item and goes on with the one after it. -/
def routine (now : Int) (f : MetricFamily) : MetricFamily :=
  { f with metrics := f.metrics.eraseIf fun _ item => now - item.timestamp > f.config.maxAge }

/-- The metric that the item under `labels` holds, if there is one. -/
def current (f : MetricFamily) (labels : LabelSet) : Option IMetric :=
  (f.metrics.find? labels).bind MetricItem.metric

/-- The metric that a call samples: the one of the series, or a new one. -/
def target (lib : Libraries) (f : MetricFamily) (labels : LabelSet) : Except Error IMetric :=
  match f.current labels with
  | some m => .ok m
  | none => IMetric.create lib f.config.openMetric labels

/-- The three ways a call ends: no metric could be built, the sample raised, or
it is stored. -/
theorem newSample_eq (lib : Libraries) (now : Int) (payload : Str) (labels : LabelSet)
    (f : MetricFamily) :
    newSample lib now payload labels f =
      match f.target lib labels with
      | .error e => .error e
          { f with metrics := f.metrics.set labels ((f.metrics.find? labels).getD ⟨none, 0⟩) }
      | .ok m =>
        match m.newSample lib payload with
        | .error e => .error e { f with metrics := f.metrics.set labels ⟨some m, now⟩ }
        | .ok m' => .ok () { f with metrics := f.metrics.set labels ⟨some m', now⟩ } := by
  have hset : ∀ item (g : MetricFamily), setItem labels item g =
      .ok () { g with metrics := g.metrics.set labels item } := fun _ _ => rfl
  have hpure : ∀ (m : IMetric) (g : MetricFamily),
      (pure m : EStateM Error MetricFamily IMetric) g = .ok m g := fun _ _ => rfl
  have hcur : f.current labels = ((f.metrics.find? labels).getD ⟨none, 0⟩).metric := by
    unfold current
    cases f.metrics.find? labels <;> rfl
  unfold newSample target
  rw [hcur]
  simp only [bind_apply, get_apply, hset]
  cases ((f.metrics.find? labels).getD ⟨none, 0⟩).metric with
  | some m =>
    simp only [bind_apply, hpure, hset, OrderedMap.set_set]
    cases m.newSample lib payload with
    | error e => simp only [raise_error]
    | ok m' => simp only [raise_ok, OrderedMap.set_set]
  | none =>
    cases IMetric.create lib f.config.openMetric labels with
    | error e => simp only [bind_apply, raise_error]
    | ok m =>
      simp only [bind_apply, raise_ok, hset, OrderedMap.set_set]
      cases m.newSample lib payload with
      | error e => simp only [raise_error]
      | ok m' => simp only [raise_ok, OrderedMap.set_set]

/-- A finished call stores a sampled metric under its label set and changes
nothing else. -/
theorem newSample_ok {lib : Libraries} {now : Int} {payload : Str} {labels : LabelSet}
    {f f' : MetricFamily} (h : newSample lib now payload labels f = .ok () f') :
    ∃ m m', f.target lib labels = .ok m ∧ m.newSample lib payload = .ok m' ∧
      f' = { f with metrics := f.metrics.set labels ⟨some m', now⟩ } := by
  rw [newSample_eq] at h
  cases ht : f.target lib labels with
  | error e => simp only [ht] at h; cases h
  | ok m =>
    cases hm : m.newSample lib payload with
    | error e => simp only [ht, hm] at h; cases h
    | ok m' => simp only [ht, hm] at h; cases h; exact ⟨m, m', rfl, hm, rfl⟩

theorem config_newSample {lib : Libraries} {now : Int} {payload : Str} {labels : LabelSet}
    {f f' : MetricFamily} (h : newSample lib now payload labels f = .ok () f') :
    f'.config = f.config := by
  obtain ⟨m, m', ht, hm, rfl⟩ := newSample_ok h
  rfl

theorem find?_routine (now : Int) (f : MetricFamily) (labels : LabelSet) :
    (f.routine now).metrics.find? labels =
      (f.metrics.find? labels).filter fun item => now - item.timestamp ≤ f.config.maxAge := by
  rw [routine, OrderedMap.find?_eraseIf]
  congr 1
  funext item
  by_cases h : now - item.timestamp ≤ f.config.maxAge
  · simp [h]
  · simp [h]
    omega

/-! ## Series keep their labels -/

/-- Every stored item holds a metric that belongs to the label set it is under. -/
def Consistent (lib : Libraries) (f : MetricFamily) : Prop :=
  ∀ labels item, f.metrics.find? labels = some item →
    ∃ m, item.metric = some m ∧ m.BelongsTo lib labels

theorem consistent_empty (lib : Libraries) (config : Configuration) :
    Consistent lib ⟨config, .empty⟩ := by
  intro labels item h
  cases h

/-- The metric that a call samples is the one that is there, or a new one. -/
theorem forall_target {lib : Libraries} {f : MetricFamily} {labels : LabelSet} {Q : IMetric → Prop}
    (hf : ∀ item m, f.metrics.find? labels = some item → item.metric = some m → Q m)
    (created : ∀ m, IMetric.create lib f.config.openMetric labels = .ok m → Q m) {m : IMetric}
    (h : f.target lib labels = .ok m) : Q m := by
  unfold target at h
  cases hc : f.current labels with
  | none =>
    rw [hc] at h
    exact created m h
  | some m₀ =>
    rw [hc] at h
    cases h
    obtain ⟨item, hi, hm⟩ := Option.bind_eq_some_iff.mp hc
    exact hf item m hi hm

theorem newSample_consistent {lib : Libraries} {now : Int} {payload : Str} {labels : LabelSet}
    {f f' : MetricFamily} (hf : f.Consistent lib)
    (h : newSample lib now payload labels f = .ok () f') : f'.Consistent lib := by
  obtain ⟨m, m', ht, hm, rfl⟩ := newSample_ok h
  have hold : m.BelongsTo lib labels := by
    apply forall_target _ (fun _ => IMetric.belongsTo_create) ht
    intro item m₀ hi hm₀
    obtain ⟨m₁, hm₁, hb⟩ := hf labels item hi
    rw [hm₁] at hm₀
    cases hm₀
    exact hb
  intro q item hq
  exact OrderedMap.forall_set ⟨m', rfl, IMetric.belongsTo_newSample hold hm⟩ hf q item hq

theorem routine_consistent {lib : Libraries} {f : MetricFamily} (hf : f.Consistent lib)
    (now : Int) : (f.routine now).Consistent lib := by
  intro q item hq
  rw [find?_routine] at hq
  exact hf q item (Option.filter_eq_some_iff.mp hq).1

/-- The series that a call samples is there afterwards, and so are the others. -/
theorem current_newSample {lib : Libraries} {now : Int} {payload : Str} {labels : LabelSet}
    {f f' : MetricFamily} (h : newSample lib now payload labels f = .ok () f') (q : LabelSet)
    (hq : q = labels ∨ (f.current q).isSome) : (f'.current q).isSome := by
  obtain ⟨m, m', -, -, rfl⟩ := newSample_ok h
  rw [current, OrderedMap.find?_set]
  split
  · rfl
  · rename_i hne
    exact hq.resolve_left fun he => hne he.symm

/-! ## When a call raises -/

/-- A family of a supported type, whose metrics count matches of the configured
pattern, a valid one. -/
structure WellTyped (lib : Libraries) (f : MetricFamily) : Prop where
  supported : f.config.openMetric.type ≠ .summary
  patterns : ∀ labels m, f.current labels = some m → m.pattern = f.config.openMetric.pattern ∧
    ∀ r, f.config.openMetric.pattern = some r → lib.regexValid r = true

theorem create_wellTyped {config : Configuration} {f : MetricFamily} (h : create config = .ok f)
    (lib : Libraries) : f.WellTyped lib := by
  obtain rfl := create_ok h
  constructor
  · intro hs
    have htype : config.openMetric.type = .summary := hs
    rw [create, htype] at h
    cases h
  · intro labels m hm
    cases hm

/-- The metric that a call samples is of the configured type, or the configured
pattern is invalid. -/
theorem WellTyped.target {lib : Libraries} {f : MetricFamily} (hf : f.WellTyped lib)
    (labels : LabelSet) :
    (∃ m, f.target lib labels = .ok m ∧ m.pattern = f.config.openMetric.pattern ∧
      ∀ r, f.config.openMetric.pattern = some r → lib.regexValid r = true) ∨
    ∃ e, f.target lib labels = .error e ∧
      ∀ payload, trial lib f.config.openMetric.pattern payload = .error e := by
  unfold MetricFamily.target
  cases hc : f.current labels with
  | some m => exact Or.inl ⟨m, rfl, hf.patterns labels m hc⟩
  | none => exact IMetric.create_pattern hf.supported labels

/-- A call raises what the configured pattern alone makes it raise. -/
theorem WellTyped.newSample_trial {lib : Libraries} {f : MetricFamily} (hf : f.WellTyped lib)
    (now : Int) (payload : Str) (labels : LabelSet) :
    (∃ f', newSample lib now payload labels f = .ok () f' ∧
      trial lib f.config.openMetric.pattern payload = .ok ()) ∨
    ∃ e f', newSample lib now payload labels f = .error e f' ∧
      trial lib f.config.openMetric.pattern payload = .error e := by
  have heq := newSample_eq lib now payload labels f
  rcases hf.target labels with ⟨m, htarget, hpattern, hvalid⟩ | ⟨e, htarget, htrial⟩
  · have htrial := IMetric.newSample_trial (fun r hr => hvalid r (hpattern ▸ hr)) payload
    rw [← hpattern, ← htrial]
    cases hm : m.newSample lib payload with
    | ok m' =>
      simp only [htarget, hm] at heq
      exact Or.inl ⟨_, heq, rfl⟩
    | error e =>
      simp only [htarget, hm] at heq
      exact Or.inr ⟨e, _, heq, rfl⟩
  · simp only [htarget] at heq
    exact Or.inr ⟨e, _, heq, htrial payload⟩

theorem WellTyped.target_ok {lib : Libraries} {f : MetricFamily} (hf : f.WellTyped lib)
    {labels : LabelSet} {m : IMetric} (h : f.target lib labels = .ok m) :
    m.pattern = f.config.openMetric.pattern ∧
      ∀ r, f.config.openMetric.pattern = some r → lib.regexValid r = true := by
  rcases hf.target labels with ⟨m', hm', hpattern⟩ | ⟨e, he, -⟩
  · rw [h] at hm'
    cases hm'
    exact hpattern
  · rw [h] at he
    cases he

theorem WellTyped.set {lib : Libraries} {f : MetricFamily} (hf : f.WellTyped lib)
    {labels : LabelSet} {item : MetricItem} (hitem : ∀ m, item.metric = some m →
      m.pattern = f.config.openMetric.pattern ∧
        ∀ r, f.config.openMetric.pattern = some r → lib.regexValid r = true) :
    WellTyped lib { f with metrics := f.metrics.set labels item } := by
  refine ⟨hf.supported, fun q m hq => ?_⟩
  simp only [current, OrderedMap.find?_set] at hq
  split at hq
  · exact hitem m hq
  · exact hf.patterns q m hq

theorem newSample_wellTyped {lib : Libraries} {now : Int} {payload : Str} {labels : LabelSet}
    {f f' : MetricFamily} (hf : f.WellTyped lib)
    (h : newSample lib now payload labels f = .ok () f') : f'.WellTyped lib := by
  obtain ⟨m, m', ht, hm, rfl⟩ := newSample_ok h
  obtain ⟨hpattern, hvalid⟩ := hf.target_ok ht
  apply hf.set
  intro m₀ hm₀
  cases hm₀
  exact ⟨(IMetric.pattern_newSample hm).trans hpattern, hvalid⟩

theorem routine_wellTyped {lib : Libraries} {f : MetricFamily} (hf : f.WellTyped lib)
    (now : Int) : (f.routine now).WellTyped lib := by
  refine ⟨hf.supported, fun q m hq => ?_⟩
  obtain ⟨item, hitem, hm⟩ := Option.bind_eq_some_iff.mp hq
  rw [find?_routine] at hitem
  have hold := (Option.filter_eq_some_iff.mp hitem).1
  exact hf.patterns q m (Option.bind_eq_some_iff.mpr ⟨item, hold, hm⟩)

/-! ## Exposition -/

/-- The metrics in key order, null ones included. -/
def begin (f : MetricFamily) : List (Option IMetric) := f.metrics.entries.map fun e => e.2.metric

def header (f : MetricFamily) : Str :=
  "# TYPE ".toList ++ f.getFullname ++ " ".toList ++ f.getStandardType ++ "\n".toList ++
    (if f.getUnit = [] then []
      else "# UNIT ".toList ++ f.getFullname ++ " ".toList ++ f.getUnit ++ "\n".toList) ++
    "# HELP ".toList ++ f.getFullname ++ " ".toList ++ f.getHelp ++ "\n".toList

/-- The lines of one metric; more than one is followed by an empty line. -/
def metricText (points : List IPoint) : Str :=
  points.flatMap (fun p => p.stringify ++ "\n".toList) ++
    if points.length > 1 then "\n".toList else []

/-- The metrics that the loop visits; `none` where a null metric is dereferenced. -/
def visited (f : MetricFamily) : Option (List IMetric) := f.begin.mapM id

/-- All points of a family, as `stringify` comes to them. -/
def points (lib : Libraries) (f : MetricFamily) : Option (List IPoint) :=
  f.visited.map fun metrics => metrics.flatMap fun m => m.points lib f.getFullname

/-- The part after the header. -/
def samples (lib : Libraries) (f : MetricFamily) : Option Str :=
  f.visited.map fun metrics => metrics.flatMap fun m => metricText (m.points lib f.getFullname)

def stringify (lib : Libraries) (f : MetricFamily) : Option Str :=
  (f.samples lib).map fun samples => f.header ++ samples ++ "\n".toList

theorem visited_eq_some {f : MetricFamily} {ms : List IMetric} :
    f.visited = some ms ↔ f.begin = ms.map some := by
  rw [visited]
  generalize f.begin = xs
  induction xs generalizing ms with
  | nil => cases ms <;> simp
  | cons x xs ih =>
    rw [List.mapM_cons]
    cases x with
    | none => cases ms <;> simp
    | some m =>
      cases ms with
      | nil => cases xs.mapM id <;> simp
      | cons m' ms => simp [Option.bind_eq_some_iff, ih, and_comm]

theorem mem_visited {f : MetricFamily} {ms : List IMetric} (h : f.visited = some ms)
    {m : IMetric} (hm : m ∈ ms) :
    ∃ labels item, f.metrics.find? labels = some item ∧ item.metric = some m := by
  have hb : some m ∈ f.begin := visited_eq_some.mp h ▸ List.mem_map_of_mem hm
  obtain ⟨e, he, hem⟩ := List.mem_map.mp hb
  exact ⟨e.1, e.2, f.metrics.mem_entries_iff.mp he, hem⟩

/-- Without null metrics the text is defined. -/
theorem visited_defined {lib : Libraries} {f : MetricFamily} (hf : f.Consistent lib) :
    ∃ ms, f.visited = some ms := by
  have hall : ∀ x ∈ f.begin, ∃ m, some m = x := by
    intro x hx
    obtain ⟨e, he, rfl⟩ := List.mem_map.mp hx
    obtain ⟨m, hm, -⟩ := hf e.1 e.2 (f.metrics.mem_entries_iff.mp he)
    exact ⟨m, hm.symm⟩
  obtain ⟨ms, hms⟩ : f.begin ∈ Set.range (List.map some) := (Set.range_list_map some).symm ▸ hall
  exact ⟨ms, visited_eq_some.mpr hms.symm⟩

theorem stringify_defined {lib : Libraries} {f : MetricFamily} (hf : f.Consistent lib) :
    ∃ text, f.stringify lib = some text := by
  obtain ⟨ms, hms⟩ := visited_defined hf
  exact ⟨_, by rw [stringify, samples, hms]; rfl⟩

end MetricFamily

end MqttExporter
