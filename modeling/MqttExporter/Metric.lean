import MqttExporter.Configuration

/-!
# Metrics and their points

The metric classes, each with the points it exposes. A point's value that the
constructor leaves uninitialised is `none` until a sample sets it.
-/

namespace MqttExporter

/-- `to_string(const LabelSet&)`. -/
def LabelSet.toString (labels : LabelSet) : Str :=
  if labels.entries = [] then []
  else
    let out := '{' :: labels.entries.flatMap fun (key, value) =>
      key ++ "=\"".toList ++ value ++ "\",".toList
    out.dropLast ++ ['}']

/-- A point as a scrape reads it: `getFullname()`, `labelSet()` and `value()`. -/
structure IPoint where
  fullname : Str
  labelSet : LabelSet
  value : Double
  deriving DecidableEq

def IPoint.stringify (p : IPoint) : Str :=
  p.fullname ++ p.labelSet.toString ++ " ".toList ++ p.value.text

theorem IPoint.stringify_eq (p : IPoint) :
    p.stringify = (p.fullname ++ p.labelSet.toString) ++ ' ' :: p.value.text := by
  simp [IPoint.stringify]

/-! ## Counter -/

structure Counter where
  labelset : LabelSet
  value : Double
  deriving DecidableEq

def Counter.create (labelset : LabelSet) : Counter := ⟨labelset, Double.ofInt 0⟩

def Counter.newSample (c : Counter) (_payload : Str) : Counter := { c with value := c.value.succ }

/-- `fullname` is that of the family. -/
def Counter.points (fullname : Str) (c : Counter) : List IPoint :=
  [⟨fullname ++ "_total".toList, c.labelset, c.value⟩]

/-! ## Gauge -/

/-- `std::from_chars` extracts a number. -/
def hasNumber (payload : Str) : Bool := (Double.fromChars payload).isSome

structure Gauge where
  labelset : LabelSet
  value : Option Double
  deriving DecidableEq

def Gauge.create (labelset : LabelSet) : Gauge := ⟨labelset, none⟩

/-- A payload without a number leaves the value as it is. -/
def Gauge.newSample (g : Gauge) (payload : Str) : Gauge :=
  { g with value := (Double.fromChars payload).or g.value }

def Gauge.points (lib : Libraries) (fullname : Str) (g : Gauge) : List IPoint :=
  [⟨fullname, g.labelset, g.value.getD lib.uninitialised⟩]

/-! ## Histogram -/

structure Bucket where
  value : Double
  le : Double
  labelSet : LabelSet
  deriving DecidableEq

structure Histogram where
  labelset : LabelSet
  /-- The value of the `Counter::Point`. -/
  count : Double
  /-- The value of the `Gauge::Point`. -/
  sum : Option Double
  buckets : List Bucket
  deriving DecidableEq

def leText (le : Double) : Str := if le = .infinite false then "+Inf".toList else le.toFixed

/-- `Histogram::Point::Point`; `insert` keeps a `le` that is there already. -/
def Bucket.create (labelset : LabelSet) (le : Double) : Bucket :=
  ⟨Double.ofInt 0, le, labelset.emplace "le".toList (leText le)⟩

def Histogram.create (labelset : LabelSet) (bounds : List Double) : Histogram :=
  let buckets := (bounds ++ [Double.infinite false]).map (Bucket.create labelset)
  ⟨labelset, Double.ofInt 0, none, buckets.mergeSort fun a b => !a.le.lt b.le⟩

/-- The loop over the buckets, which stops at the first one below the sample. -/
def Histogram.observe (sample : Double) : List Bucket → List Bucket
  | [] => []
  | b :: bs =>
    if sample.le b.le then { b with value := b.value.succ } :: observe sample bs else b :: bs

def Histogram.newSample (h : Histogram) (payload : Str) : Histogram :=
  let sample := (Double.fromChars payload).getD (Double.ofInt 0)
  { h with buckets := observe sample h.buckets }

def Histogram.points (lib : Libraries) (fullname : Str) (h : Histogram) : List IPoint :=
  h.buckets.map (fun b => ⟨fullname ++ "_bucket".toList, b.labelSet, b.value⟩) ++
    [⟨fullname ++ "_total".toList, h.labelset, h.count⟩,
     ⟨fullname, h.labelset, h.sum.getD lib.uninitialised⟩]

/-! ## MatchGauge -/

structure MatchGauge where
  labelset : LabelSet
  value : Option Double
  matchRegex : Str
  deriving DecidableEq

def MatchGauge.create (lib : Libraries) (labelset : LabelSet) (matchRegex : Str) :
    Except Error MatchGauge := do
  let regex ← lib.regex matchRegex
  return ⟨labelset, none, regex⟩

def MatchGauge.newSample (lib : Libraries) (g : MatchGauge) (payload : Str) :
    Except Error MatchGauge := do
  let matchCount ← lib.regexCount g.matchRegex payload
  return { g with value := some (Double.ofInt matchCount) }

def MatchGauge.points (lib : Libraries) (fullname : Str) (g : MatchGauge) : List IPoint :=
  [⟨fullname, g.labelset, g.value.getD lib.uninitialised⟩]

/-! ## The classes together -/

inductive IMetric where
  | counter (m : Counter)
  | gauge (m : Gauge)
  | histogram (m : Histogram)
  | matchGauge (m : MatchGauge)
  deriving DecidableEq

namespace IMetric

def labelSet : IMetric → LabelSet
  | .counter m => m.labelset
  | .gauge m => m.labelset
  | .histogram m => m.labelset
  | .matchGauge m => m.labelset

/-- `std::make_shared<MetricType>(this, labels)`. The class is fixed when the
family is created; only a family of a supported type exists. -/
def create (lib : Libraries) (config : OpenMetric) (labels : LabelSet) : Except Error IMetric :=
  match config.type with
  | .counter => .ok (.counter (Counter.create labels))
  | .gauge => .ok (.gauge (Gauge.create labels))
  | .histogram => .ok (.histogram (Histogram.create labels config.buckets))
  | .matchGauge => (MatchGauge.create lib labels config.matchRegex).map .matchGauge
  | .summary => .error (.runtime "Unknown metric type")

def newSample (lib : Libraries) (m : IMetric) (payload : Str) : Except Error IMetric :=
  match m with
  | .counter m => .ok (.counter (m.newSample payload))
  | .gauge m => .ok (.gauge (m.newSample payload))
  | .histogram m => .ok (.histogram (m.newSample payload))
  | .matchGauge m => (m.newSample lib payload).map .matchGauge

def points (lib : Libraries) (fullname : Str) : IMetric → List IPoint
  | .counter m => m.points fullname
  | .gauge m => m.points lib fullname
  | .histogram m => m.points lib fullname
  | .matchGauge m => m.points lib fullname

/-- What the points are called: names and label sets, without the values. -/
def series (lib : Libraries) (fullname : Str) (m : IMetric) : List (Str × LabelSet) :=
  (m.points lib fullname).map fun p => (p.fullname, p.labelSet)

/-! A sample changes values only, never the labels. -/

theorem matchGauge_newSample_ok {lib : Libraries} {g : MatchGauge} {m' : IMetric} {payload : Str}
    (h : newSample lib (.matchGauge g) payload = .ok m') :
    ∃ value, m' = .matchGauge { g with value := some value } := by
  cases hc : lib.regexCount g.matchRegex payload with
  | error e =>
    simp only [newSample, MatchGauge.newSample, hc] at h
    cases h
  | ok n =>
    simp only [newSample, MatchGauge.newSample, hc] at h
    cases h
    exact ⟨_, rfl⟩

theorem matchGauge_create_ok {lib : Libraries} {labels : LabelSet} {r : Str} {m : IMetric}
    (h : (MatchGauge.create lib labels r).map IMetric.matchGauge = .ok m) :
    m = .matchGauge ⟨labels, none, r⟩ := by
  cases hr : lib.regexValid r with
  | false =>
    simp only [MatchGauge.create, Libraries.regex, hr, Bool.false_eq_true, if_false] at h
    cases h
  | true =>
    simp only [MatchGauge.create, Libraries.regex, hr, if_true] at h
    cases h
    rfl

theorem labelSet_create {lib : Libraries} {config : OpenMetric} {labels : LabelSet} {m : IMetric}
    (h : create lib config labels = .ok m) : m.labelSet = labels := by
  unfold create at h
  split at h
  · cases h; rfl
  · cases h; rfl
  · cases h; rfl
  · obtain rfl := matchGauge_create_ok h
    rfl
  · cases h

theorem labelSet_newSample {lib : Libraries} {m m' : IMetric} {payload : Str}
    (h : m.newSample lib payload = .ok m') : m'.labelSet = m.labelSet := by
  cases m with
  | counter m => cases h; rfl
  | gauge m => cases h; rfl
  | histogram m => cases h; rfl
  | matchGauge m =>
    obtain ⟨value, rfl⟩ := matchGauge_newSample_ok h
    rfl

theorem observe_labels (sample : Double) (bs : List Bucket) :
    (Histogram.observe sample bs).map Bucket.labelSet = bs.map Bucket.labelSet := by
  induction bs with
  | nil => rfl
  | cons b bs ih =>
    unfold Histogram.observe
    split
    · rw [List.map_cons, List.map_cons, ih]
    · rfl

theorem series_newSample {lib : Libraries} {m m' : IMetric} {payload : Str}
    (h : m.newSample lib payload = .ok m') (fullname : Str) :
    m'.series lib fullname = m.series lib fullname := by
  cases m with
  | counter m => cases h; rfl
  | gauge m => cases h; rfl
  | histogram m =>
    cases h
    have hb := congrArg (List.map fun labels => (fullname ++ "_bucket".toList, labels))
      (observe_labels ((Double.fromChars payload).getD (Double.ofInt 0)) m.buckets)
    rw [List.map_map, List.map_map] at hb
    simp only [series, points, Histogram.points, Histogram.newSample, List.map_append, List.map_map]
    exact congrArg (· ++ _) hb
  | matchGauge m =>
    obtain ⟨value, rfl⟩ := matchGauge_newSample_ok h
    rfl

/-- The names a point can have under a family, and its labels: those of the
metric, or those with a bound added. -/
def IsSeries (fullname : Str) (labels : LabelSet) (s : Str × LabelSet) : Prop :=
  (∃ suffix ∈ ["".toList, "_total".toList, "_bucket".toList], s.1 = fullname ++ suffix) ∧
    (s.2 = labels ∨ ∃ le, s.2 = labels.emplace "le".toList (leText le))

theorem isSeries_plain (fullname : Str) (labels : LabelSet) :
    IsSeries fullname labels (fullname, labels) :=
  ⟨⟨[], by simp, (List.append_nil fullname).symm⟩, Or.inl rfl⟩

theorem isSeries_create {lib : Libraries} {config : OpenMetric} {labels : LabelSet} {m : IMetric}
    (h : create lib config labels = .ok m) (fullname : Str) :
    ∀ s ∈ m.series lib fullname, IsSeries fullname labels s := by
  have htotal : IsSeries fullname labels (fullname ++ "_total".toList, labels) :=
    ⟨⟨"_total".toList, by simp, rfl⟩, Or.inl rfl⟩
  unfold create at h
  split at h
  · cases h
    simpa [series, points, Counter.points, Counter.create] using htotal
  · cases h
    simpa [series, points, Gauge.points, Gauge.create] using isSeries_plain fullname labels
  · cases h
    intro s hs
    simp only [series, points, Histogram.points, List.map_append, List.map_map, List.mem_append,
      List.map_cons, List.map_nil] at hs
    rcases hs with hb | hs
    · obtain ⟨b, hmem, rfl⟩ := List.mem_map.mp hb
      obtain ⟨le, -, rfl⟩ := List.mem_map.mp (List.mem_mergeSort.mp hmem)
      exact ⟨⟨"_bucket".toList, by simp, rfl⟩, Or.inr ⟨le, rfl⟩⟩
    · rcases List.mem_cons.mp hs with rfl | hs
      · exact htotal
      · cases List.mem_singleton.mp hs
        exact isSeries_plain fullname labels
  · obtain rfl := matchGauge_create_ok h
    simpa [series, points, MatchGauge.points] using isSeries_plain fullname labels
  · cases h

/-- The metric and its points carry a label set. -/
def BelongsTo (lib : Libraries) (labels : LabelSet) (m : IMetric) : Prop :=
  m.labelSet = labels ∧ ∀ fullname, ∀ s ∈ m.series lib fullname, IsSeries fullname labels s

theorem belongsTo_create {lib : Libraries} {config : OpenMetric} {labels : LabelSet} {m : IMetric}
    (h : create lib config labels = .ok m) : m.BelongsTo lib labels :=
  ⟨labelSet_create h, isSeries_create h⟩

theorem belongsTo_newSample {lib : Libraries} {labels : LabelSet} {m m' : IMetric} {payload : Str}
    (hm : m.BelongsTo lib labels) (h : m.newSample lib payload = .ok m') :
    m'.BelongsTo lib labels := by
  refine ⟨(labelSet_newSample h).trans hm.1, fun fullname s hs => ?_⟩
  rw [series_newSample h] at hs
  exact hm.2 fullname s hs

/-! Only the pattern of a `MatchGauge` can make a sample raise. -/

/-- The pattern that a metric counts the matches of. -/
def pattern : IMetric → Option Str
  | .matchGauge m => some m.matchRegex
  | .counter _ | .gauge _ | .histogram _ => none

theorem pattern_newSample {lib : Libraries} {m m' : IMetric} {payload : Str}
    (h : m.newSample lib payload = .ok m') : m'.pattern = m.pattern := by
  cases m with
  | counter m => cases h; rfl
  | gauge m => cases h; rfl
  | histogram m => cases h; rfl
  | matchGauge m =>
    obtain ⟨value, rfl⟩ := matchGauge_newSample_ok h
    rfl

end IMetric

def OpenMetric.pattern (config : OpenMetric) : Option Str :=
  if config.type = .matchGauge then some config.matchRegex else none

/-- Whether sampling a payload raises. -/
def trial (lib : Libraries) (pattern : Option Str) (payload : Str) : Except Error Unit :=
  match pattern with
  | none => .ok ()
  | some pattern => do
    let regex ← lib.regex pattern
    let _ ← lib.regexCount regex payload
    return ()

namespace IMetric

theorem newSample_trial {lib : Libraries} {m : IMetric}
    (hm : ∀ r, m.pattern = some r → lib.regexValid r = true) (payload : Str) :
    (m.newSample lib payload).map (fun _ => ()) = trial lib m.pattern payload := by
  cases m with
  | counter m => rfl
  | gauge m => rfl
  | histogram m => rfl
  | matchGauge m =>
    have hregex : lib.regex m.matchRegex = .ok m.matchRegex := if_pos (hm m.matchRegex rfl)
    have htrial : trial lib (some m.matchRegex) payload =
        (lib.regexCount m.matchRegex payload).map fun _ => () := by
      rw [trial, hregex]
      change (lib.regexCount m.matchRegex payload >>= fun _ => Except.ok ()) = _
      cases lib.regexCount m.matchRegex payload <;> rfl
    rw [pattern, htrial, newSample, MatchGauge.newSample]
    cases lib.regexCount m.matchRegex payload <;> rfl

/-- A metric of a supported type is built, unless its pattern is invalid. -/
theorem create_pattern {lib : Libraries} {config : OpenMetric} (hc : config.type ≠ .summary)
    (labels : LabelSet) :
    (∃ m, create lib config labels = .ok m ∧ m.pattern = config.pattern ∧
      ∀ r, config.pattern = some r → lib.regexValid r = true) ∨
    ∃ e, create lib config labels = .error e ∧
      ∀ payload, trial lib config.pattern payload = .error e := by
  unfold create OpenMetric.pattern
  cases ht : config.type with
  | counter => exact Or.inl ⟨_, rfl, rfl, by simp⟩
  | gauge => exact Or.inl ⟨_, rfl, rfl, by simp⟩
  | histogram => exact Or.inl ⟨_, rfl, rfl, by simp⟩
  | summary => exact absurd ht hc
  | matchGauge =>
    cases hr : lib.regexValid config.matchRegex with
    | true =>
      refine Or.inl ⟨.matchGauge ⟨labels, none, config.matchRegex⟩, ?_, rfl, ?_⟩
      · simp only [MatchGauge.create, Libraries.regex, hr, if_true]
        rfl
      · intro r h
        cases h
        exact hr
    | false =>
      have hregex : lib.regex config.matchRegex = .error .regex := by
        rw [Libraries.regex, hr]
        rfl
      refine Or.inr ⟨.regex, ?_, fun payload => ?_⟩
      · rw [MatchGauge.create, hregex]
        rfl
      · rw [if_pos rfl, trial, hregex]
        rfl

end IMetric

end MqttExporter
