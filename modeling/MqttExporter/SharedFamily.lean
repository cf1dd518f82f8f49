import MqttExporter.Base.References
import MqttExporter.FamilyRun

/-!
# A family and its metric objects

The map of a family holds its metrics by `std::shared_ptr`. An object is referred
to by its number: the objects made before it. `newSample` finds or makes the
object, and then writes its points one by one.

* `writes_spec`: what a reader may find in an object that is being sampled;
* `locate_spec`: the first part of `newSample`, read at the level of values.
-/

namespace MqttExporter

open Loop References

/-! ## The writes of a sample -/

/-- The buckets after each increment of the loop. -/
def Histogram.increments (sample : Double) : List Bucket → List (List Bucket)
  | [] => []
  | b :: bs =>
    if sample.le b.le then
      ({ b with value := b.value.succ } :: bs) ::
        (increments sample bs).map ({ b with value := b.value.succ } :: ·)
    else []

def Histogram.writes (h : Histogram) (payload : Str) : List Histogram :=
  let sample := (Double.fromChars payload).getD (Double.ofInt 0)
  (increments sample h.buckets).map fun buckets => { h with buckets := buckets }

namespace IMetric

/-- What `newSample` makes of an object, after each of its writes to a point. -/
def writes (lib : Libraries) (m : IMetric) (payload : Str) : Except Error (List IMetric) :=
  match m with
  | .counter m => .ok [.counter (m.newSample payload)]
  | .gauge m => .ok (if hasNumber payload then [.gauge (m.newSample payload)] else [])
  | .histogram m => .ok ((m.writes payload).map .histogram)
  | .matchGauge m => (m.newSample lib payload).map fun m => [.matchGauge m]

/-- Every point of `w` is as it is in `m` or as it is in `m'`. -/
def Between (lib : Libraries) (fullname : Str) (m m' w : IMetric) : Prop :=
  ∀ i : ℕ, (w.points lib fullname)[i]? = (m.points lib fullname)[i]? ∨
    (w.points lib fullname)[i]? = (m'.points lib fullname)[i]?

theorem between_left (lib : Libraries) (fullname : Str) (m m' : IMetric) :
    Between lib fullname m m' m := fun _ => Or.inl rfl

theorem between_right (lib : Libraries) (fullname : Str) (m m' : IMetric) :
    Between lib fullname m m' m' := fun _ => Or.inr rfl

end IMetric

namespace Histogram

theorem increments_last (sample : Double) (bs : List Bucket) :
    (bs :: increments sample bs).getLast (List.cons_ne_nil _ _) = observe sample bs := by
  induction bs with
  | nil => rfl
  | cons b bs ih =>
    by_cases hle : sample.le b.le
    · simp only [increments, observe, hle, if_true]
      rw [List.getLast_cons (List.cons_ne_nil _ _), ← ih]
      have hmap := List.getLast_map (f := ({ b with value := b.value.succ } :: ·))
        (l := bs :: increments sample bs) (by simp)
      rw [← hmap]
      rfl
    · simp only [increments, observe, hle, if_false, Bool.false_eq_true]
      rfl

/-- The increments go from the front: each bucket is as before or as after. -/
theorem increments_between {sample : Double} {bs w : List Bucket}
    (h : w ∈ increments sample bs) (i : ℕ) : w[i]? = bs[i]? ∨ w[i]? = (observe sample bs)[i]? := by
  induction bs generalizing w i with
  | nil => cases h
  | cons b bs ih =>
    by_cases hle : sample.le b.le
    · simp only [increments, hle, if_true] at h
      simp only [observe, hle, if_true]
      rcases List.mem_cons.mp h with rfl | h
      · cases i with
        | zero => exact Or.inr rfl
        | succ i => exact Or.inl rfl
      · obtain ⟨w', hw', rfl⟩ := List.mem_map.mp h
        cases i with
        | zero => exact Or.inr rfl
        | succ i => simpa using ih hw' i
    · simp only [increments, hle] at h
      cases h

theorem length_observe (sample : Double) (bs : List Bucket) :
    (observe sample bs).length = bs.length := by
  have h := congrArg List.length (IMetric.observe_labels sample bs)
  simpa using h

theorem length_increments {sample : Double} {bs w : List Bucket}
    (h : w ∈ increments sample bs) : w.length = bs.length := by
  induction bs generalizing w with
  | nil => cases h
  | cons b bs ih =>
    by_cases hle : sample.le b.le
    · simp only [increments, hle, if_true] at h
      rcases List.mem_cons.mp h with rfl | h
      · rfl
      · obtain ⟨w', hw', rfl⟩ := List.mem_map.mp h
        rw [List.length_cons, List.length_cons, ih hw']
    · simp only [increments, hle] at h
      cases h

theorem points_between (lib : Libraries) (fullname : Str) {h w : Histogram} {payload : Str}
    (hw : w ∈ h.writes payload) :
    IMetric.Between lib fullname (.histogram h) (.histogram (h.newSample payload))
      (.histogram w) := by
  obtain ⟨buckets, hbuckets, rfl⟩ := List.mem_map.mp hw
  intro i
  have hlen := length_increments hbuckets
  have hobserve := length_observe ((Double.fromChars payload).getD (Double.ofInt 0)) h.buckets
  simp only [IMetric.points, points, newSample, List.getElem?_append, List.length_map,
    List.getElem?_map, hlen, hobserve]
  by_cases hi : i < h.buckets.length
  · simp only [hi, if_true]
    rcases increments_between hbuckets i with heq | heq
    · exact Or.inl (by rw [heq])
    · exact Or.inr (by rw [heq])
  · simp only [hi, if_false, true_or]

end Histogram

/-- A sample raises or writes; a reader in between finds each point as it was
before or as it will be after the sample. -/
theorem IMetric.writes_spec (lib : Libraries) (m : IMetric) (payload : Str) :
    (∃ e, m.writes lib payload = .error e ∧ m.newSample lib payload = .error e) ∨
    ∃ ws m', m.writes lib payload = .ok ws ∧ m.newSample lib payload = .ok m' ∧
      (m :: ws).getLast (List.cons_ne_nil _ _) = m' ∧
      ∀ w ∈ ws, ∀ fullname, Between lib fullname m m' w := by
  cases m with
  | counter m =>
    refine Or.inr ⟨_, _, rfl, rfl, rfl, fun w hw fullname => ?_⟩
    cases List.mem_singleton.mp hw
    exact between_right lib fullname _ _
  | gauge m =>
    right
    cases hn : Double.fromChars payload with
    | none =>
      refine ⟨[], _, ?_, rfl, ?_, fun w hw => absurd hw List.not_mem_nil⟩
      · simp [writes, hasNumber, hn]
      · simp [Gauge.newSample, hn]
    | some value =>
      refine ⟨[.gauge (m.newSample payload)], _, ?_, rfl, rfl, fun w hw fullname => ?_⟩
      · simp [writes, hasNumber, hn]
      · cases List.mem_singleton.mp hw
        exact between_right lib fullname _ _
  | histogram m =>
    refine Or.inr ⟨_, _, rfl, rfl, ?_, fun w hw fullname => ?_⟩
    · have hlast := Histogram.increments_last
        ((Double.fromChars payload).getD (Double.ofInt 0)) m.buckets
      have hmap := List.getLast_map
        (f := fun buckets => IMetric.histogram { m with buckets := buckets })
        (l := m.buckets :: Histogram.increments
          ((Double.fromChars payload).getD (Double.ofInt 0)) m.buckets) (by simp)
      rw [hlast] at hmap
      simp only [Histogram.writes, List.map_map]
      exact hmap
    · obtain ⟨w', hw', rfl⟩ := List.mem_map.mp hw
      exact Histogram.points_between lib fullname hw'
  | matchGauge m =>
    cases hs : m.newSample lib payload with
    | error e => exact Or.inl ⟨e, by simp only [writes, hs]; rfl, by simp only [newSample, hs]; rfl⟩
    | ok m' =>
      refine Or.inr ⟨[.matchGauge m'], .matchGauge m', by simp only [writes, hs]; rfl,
        by simp only [newSample, hs]; rfl, rfl, fun w hw fullname => ?_⟩
      cases List.mem_singleton.mp hw
      exact between_right lib fullname _ _

/-! ## The family -/

structure SharedItem where
  metric : Option ℕ
  timestamp : Int
  deriving DecidableEq

/-- `objects` lists the metric objects ever made. -/
structure SharedFamily where
  config : Configuration
  metrics : OrderedMap LabelSet SharedItem
  objects : List IMetric
  deriving DecidableEq

namespace SharedFamily

def setItem (labels : LabelSet) (item : SharedItem) : EStateM Error SharedFamily Unit :=
  modify fun f => { f with metrics := f.metrics.set labels item }

/-- `std::make_shared<MetricType>`. -/
def allocate (m : IMetric) : EStateM Error SharedFamily ℕ := fun f =>
  .ok f.objects.length { f with objects := f.objects ++ [m] }

/-- `newSample` up to the sample itself: the object to be sampled. -/
def locate (lib : Libraries) (now : Int) (labels : LabelSet) : EStateM Error SharedFamily ℕ := do
  let f ← get
  let item := (f.metrics.find? labels).getD ⟨none, 0⟩
  setItem labels item
  let metric ←
    match item.metric with
    | some metric => pure metric
    | none => do
      let metric ← raise (IMetric.create lib f.config.openMetric labels)
      let pointer ← allocate metric
      setItem labels ⟨some pointer, 0⟩
      pure pointer
  setItem labels ⟨some metric, now⟩
  return metric

def routine (now : Int) (f : SharedFamily) : SharedFamily :=
  { f with metrics := f.metrics.eraseIf fun _ item => now - item.timestamp > f.config.maxAge }

/-- The pointers that `begin()` copies. -/
def begin (f : SharedFamily) : List (Option ℕ) := f.metrics.entries.map fun e => e.2.metric

/-- A write to a point of an object. -/
def assign (f : SharedFamily) (pointer : ℕ) (m : IMetric) : SharedFamily :=
  { f with objects := f.objects.set pointer m }

/-! ## At the level of values -/

def store (f : SharedFamily) : Store LabelSet IMetric :=
  ⟨fun labels => (f.metrics.find? labels).bind SharedItem.metric, f.objects⟩

def valueOf (objects : List IMetric) (item : SharedItem) : MetricItem :=
  ⟨item.metric.bind (objects[·]?), item.timestamp⟩

/-- The family with its objects in place of the pointers to them. -/
def value (f : SharedFamily) : MetricFamily :=
  ⟨f.config, f.metrics.mapValues fun _ item => valueOf f.objects item⟩

theorem find?_value (f : SharedFamily) (labels : LabelSet) :
    f.value.metrics.find? labels = (f.metrics.find? labels).map (valueOf f.objects) :=
  f.metrics.find?_mapValues _ labels

theorem current_value (f : SharedFamily) (labels : LabelSet) :
    f.value.current labels = f.store.view labels := by
  simp only [MetricFamily.current, find?_value, Store.view, store]
  cases f.metrics.find? labels with
  | none => rfl
  | some item => rfl

theorem refs_of_find? {f : SharedFamily} {labels : LabelSet} {pointer : ℕ} {t : Int}
    (h : f.metrics.find? labels = some ⟨some pointer, t⟩) : f.store.refs labels = some pointer := by
  simp only [store, h]
  rfl

/-- An item that is written holds the object that it refers to. -/
theorem value_set {f : SharedFamily} {objects : List IMetric} (labels : LabelSet)
    (item : SharedItem)
    (hkeep : ∀ q pointer, q ≠ labels → f.store.refs q = some pointer →
      objects[pointer]? = f.objects[pointer]?) :
    (⟨f.config, f.metrics.set labels item, objects⟩ : SharedFamily).value =
      { f.value with metrics := f.value.metrics.set labels (valueOf objects item) } := by
  have hmetrics : (f.metrics.set labels item).mapValues (fun _ x => valueOf objects x) =
      f.value.metrics.set labels (valueOf objects item) := by
    apply OrderedMap.ext_find
    intro q
    rw [OrderedMap.find?_mapValues]
    by_cases hq : labels = q
    · subst hq
      rw [OrderedMap.find?_set_self, OrderedMap.find?_set_self, Option.map_some]
    · rw [OrderedMap.find?_set_ne _ _ hq, OrderedMap.find?_set_ne _ _ hq, find?_value]
      cases hitem : f.metrics.find? q with
      | none => rfl
      | some x =>
        obtain ⟨metric, t⟩ := x
        cases metric with
        | none => rfl
        | some pointer =>
          have hsame := hkeep q pointer (Ne.symm hq) (refs_of_find? hitem)
          simp only [Option.map_some, valueOf, Option.bind_some, hsame]
  rw [value, hmetrics]
  rfl

/-- A write to an object is a write to the one item that refers to it. -/
theorem value_assign {f : SharedFamily} (hf : f.store.Owned) {labels : LabelSet} {pointer : ℕ}
    {t : Int} (h : f.metrics.find? labels = some ⟨some pointer, t⟩) (m : IMetric) :
    (f.assign pointer m).value =
      { f.value with metrics := f.value.metrics.set labels ⟨some m, t⟩ } := by
  have hrefs := refs_of_find? h
  have hbound : pointer < f.objects.length := hf.bound labels pointer hrefs
  have hset := @value_set f (f.objects.set pointer m) labels ⟨some pointer, t⟩ ?_
  · rw [OrderedMap.set_of_find? h] at hset
    rw [assign, hset]
    simp [valueOf, List.getElem?_set_self hbound]
  · intro q p hq hp
    have hne : pointer ≠ p := by
      rintro rfl
      exact hq (hf.apart q labels pointer hp hrefs)
    exact List.getElem?_set_ne hne

/-! ## What a call finds -/

theorem locate_eq (lib : Libraries) (now : Int) (labels : LabelSet) (f : SharedFamily) :
    locate lib now labels f =
      match f.store.refs labels with
      | some pointer => .ok pointer { f with metrics := f.metrics.set labels ⟨some pointer, now⟩ }
      | none =>
        match IMetric.create lib f.config.openMetric labels with
        | .error e => .error e
            { f with metrics := f.metrics.set labels ((f.metrics.find? labels).getD ⟨none, 0⟩) }
        | .ok m => .ok f.objects.length
            { f with
              metrics := f.metrics.set labels ⟨some f.objects.length, now⟩
              objects := f.objects ++ [m] } := by
  have hset : ∀ item (g : SharedFamily), setItem labels item g =
      .ok () { g with metrics := g.metrics.set labels item } := fun _ _ => rfl
  have hpure : ∀ (pointer : ℕ) (g : SharedFamily),
      (pure pointer : EStateM Error SharedFamily ℕ) g = .ok pointer g := fun _ _ => rfl
  have hrefs : f.store.refs labels = ((f.metrics.find? labels).getD ⟨none, 0⟩).metric := by
    simp only [store]
    cases f.metrics.find? labels <;> rfl
  unfold locate
  rw [hrefs]
  simp only [bind_apply, get_apply, hset]
  cases ((f.metrics.find? labels).getD ⟨none, 0⟩).metric with
  | some pointer => simp only [bind_apply, hpure, hset, OrderedMap.set_set]
  | none =>
    cases IMetric.create lib f.config.openMetric labels with
    | error e => simp only [bind_apply, raise_error]
    | ok m => simp only [bind_apply, raise_ok, allocate, hset, hpure, OrderedMap.set_set]

/-- Where the references of a family with one item written go. -/
theorem refs_set (f : SharedFamily) (labels q : LabelSet) (item : SharedItem)
    (objects : List IMetric) :
    (⟨f.config, f.metrics.set labels item, objects⟩ : SharedFamily).store.refs q =
      if labels = q then item.metric else f.store.refs q := by
  simp only [store, OrderedMap.find?_set]
  split
  · rfl
  · rfl

/-- An item that goes on with its object or drops it is written. -/
theorem step_set {f : SharedFamily} (hf : f.store.Owned) {labels : LabelSet} {item : SharedItem}
    (hitem : item.metric = f.store.refs labels) :
    References.Step f.store
      (⟨f.config, f.metrics.set labels item, f.objects⟩ : SharedFamily).store := by
  have hrefs : ∀ q,
      (⟨f.config, f.metrics.set labels item, f.objects⟩ : SharedFamily).store.refs q =
        f.store.refs q := by
    intro q
    rw [refs_set]
    split
    · rename_i hq
      rw [hitem, hq]
    · rfl
  refine ⟨le_refl _, ?_, ?_, ?_, fun _ _ _ => rfl⟩
  · intro q a hq _
    rwa [hrefs] at hq
  · intro q a hq
    rw [hrefs] at hq
    exact hf.bound q a hq
  · intro q r a hq hr _
    rw [hrefs] at hq hr
    exact hf.apart q r a hq hr

/-- An item is given a new object. -/
theorem step_allocate {f : SharedFamily} (hf : f.store.Owned) (labels : LabelSet) (t : Int)
    (m : IMetric) :
    References.Step f.store (⟨f.config, f.metrics.set labels ⟨some f.objects.length, t⟩,
      f.objects ++ [m]⟩ : SharedFamily).store := by
  have hlen : f.store.objects.length = f.objects.length := rfl
  have hold : ∀ q a, (⟨f.config, f.metrics.set labels ⟨some f.objects.length, t⟩,
      f.objects ++ [m]⟩ : SharedFamily).store.refs q = some a →
      (labels = q ∧ a = f.objects.length) ∨ f.store.refs q = some a := by
    intro q a hq
    rw [refs_set] at hq
    split at hq
    · rename_i hlabels
      cases hq
      exact Or.inl ⟨hlabels, rfl⟩
    · exact Or.inr hq
  refine ⟨?_, ?_, ?_, ?_, ?_⟩
  · simp [store]
  · intro q a hq ha
    rcases hold q a hq with ⟨-, rfl⟩ | hq
    · omega
    · exact hq
  · intro q a hq
    simp only [store, List.length_append, List.length_singleton]
    rcases hold q a hq with ⟨-, rfl⟩ | hq
    · omega
    · have hbound := hf.bound q a hq
      omega
  · intro q r a hq hr ha
    rcases hold q a hq with ⟨hq, -⟩ | hq
    · rcases hold r a hr with ⟨hr, -⟩ | hr
      · exact hq.symm.trans hr
      · have hbound := hf.bound r a hr
        omega
    · have hbound := hf.bound q a hq
      omega
  · intro a ha _
    exact List.getElem?_append_left ha

/-- A write goes to an object that some item holds. -/
theorem step_assign {f : SharedFamily} (hf : f.store.Owned) {labels : LabelSet} {pointer : ℕ}
    (h : f.store.refs labels = some pointer) (m : IMetric) :
    References.Step f.store (f.assign pointer m).store := by
  have hlen : (f.assign pointer m).store.objects.length = f.store.objects.length :=
    List.length_set
  refine ⟨hlen.ge, fun q a hq _ => hq, fun q a hq => ?_, fun q r a hq hr _ => ?_, ?_⟩
  · rw [hlen]
    exact hf.bound q a hq
  · exact hf.apart q r a hq hr
  · intro a _ hd
    have hne : pointer ≠ a := by
      rintro rfl
      exact hd labels h
    exact List.getElem?_set_ne hne

/-- A pass drops references and writes nothing. -/
theorem refs_routine {f : SharedFamily} {now : Int} {labels : LabelSet} {pointer : ℕ}
    (h : (f.routine now).store.refs labels = some pointer) :
    f.store.refs labels = some pointer := by
  obtain ⟨item, hitem, hmetric⟩ := Option.bind_eq_some_iff.mp h
  rw [routine, OrderedMap.find?_eraseIf] at hitem
  exact Option.bind_eq_some_iff.mpr ⟨item, (Option.filter_eq_some_iff.mp hitem).1, hmetric⟩

theorem step_routine {f : SharedFamily} (hf : f.store.Owned) (now : Int) :
    References.Step f.store (f.routine now).store where
  grows := le_refl _
  held _ _ hq _ := refs_routine hq
  bound _ _ hq := hf.bound _ _ (refs_routine hq)
  fresh _ _ _ hq hr _ := hf.apart _ _ _ (refs_routine hq) (refs_routine hr)
  frozen _ _ _ := rfl

theorem value_routine (f : SharedFamily) (now : Int) :
    (f.routine now).value = f.value.routine now := by
  have hmetrics : (f.routine now).value.metrics = (f.value.routine now).metrics := by
    apply OrderedMap.ext_find
    intro q
    rw [find?_value, routine, OrderedMap.find?_eraseIf, MetricFamily.routine,
      OrderedMap.find?_eraseIf, find?_value]
    cases f.metrics.find? q with
    | none => rfl
    | some item =>
      have hconfig : f.value.config = f.config := rfl
      have htime : (valueOf f.objects item).timestamp = item.timestamp := rfl
      simp only [Option.map_some, Option.filter_some, hconfig, htime]
      split <;> rfl
  change (⟨f.config, (f.routine now).value.metrics⟩ : MetricFamily) = _
  rw [hmetrics]
  rfl

/-- A call finds the object of the series or makes one, or the constructor raises. -/
theorem locate_spec (lib : Libraries) (now : Int) (labels : LabelSet) {f : SharedFamily}
    (hf : f.store.Owned) :
    (∃ e f', locate lib now labels f = .error e f' ∧ f.value.target lib labels = .error e ∧
      References.Step f.store f'.store ∧
      f'.value = { f.value with
        metrics := f.value.metrics.set labels ((f.value.metrics.find? labels).getD ⟨none, 0⟩) }) ∨
    ∃ pointer m f', locate lib now labels f = .ok pointer f' ∧ f.value.target lib labels = .ok m ∧
      References.Step f.store f'.store ∧
      f'.metrics.find? labels = some ⟨some pointer, now⟩ ∧ f'.objects[pointer]? = some m ∧
      f'.value = { f.value with metrics := f.value.metrics.set labels ⟨some m, now⟩ } := by
  rw [locate_eq, MetricFamily.target, current_value]
  cases hrefs : f.store.refs labels with
  | some pointer =>
    right
    have hbound : pointer < f.objects.length := hf.bound labels pointer hrefs
    have hget : f.objects[pointer]? = some f.objects[pointer] := List.getElem?_eq_getElem hbound
    have hview : f.store.view labels = some f.objects[pointer] := by
      rw [Store.view, hrefs]
      exact hget
    refine ⟨pointer, f.objects[pointer], _, rfl, by rw [hview], step_set hf hrefs.symm,
      OrderedMap.find?_set_self _ _ _, hget, ?_⟩
    rw [value_set labels _ fun _ _ _ _ => rfl]
    simp only [valueOf, Option.bind_some, hget]
  | none =>
    have hview : f.store.view labels = none := by
      rw [Store.view, hrefs]
      rfl
    rw [hview]
    cases hc : IMetric.create lib f.config.openMetric labels with
    | error e =>
      left
      have hitem : ((f.metrics.find? labels).getD ⟨none, 0⟩).metric = f.store.refs labels := by
        simp only [store]
        cases f.metrics.find? labels <;> rfl
      refine ⟨e, _, rfl, hc, step_set hf hitem, ?_⟩
      rw [value_set labels _ fun _ _ _ _ => rfl, find?_value]
      cases f.metrics.find? labels <;> rfl
    | ok m =>
      right
      have hget : (f.objects ++ [m])[f.objects.length]? = some m := by simp
      refine ⟨f.objects.length, m, _, rfl, hc, step_allocate hf labels now m,
        OrderedMap.find?_set_self _ _ _, hget, ?_⟩
      rw [value_set labels _ fun q p _ hp => List.getElem?_append_left (hf.bound q p hp)]
      simp only [valueOf, Option.bind_some, hget]

end SharedFamily

end MqttExporter
