import Mathlib.Data.List.Forall2
import MqttExporter.ConcurrentScrape

/-!
# Counts seen by one scrape after another

Who scrapes an exporter takes a count that falls for a restart. Between two
passes the counts of counters and of buckets fall only through an eviction, also
when the passes overlap with samples.

* `ascends_newSample`: what a sample does to the counts of a metric;
* `counts_ascend`: two passes, one begun after what the other had printed.
-/

namespace MqttExporter

open Loop Transition

/-! ## Later states of a metric -/

namespace IMetric

/-- The buckets of a later state: the same, with greater counts. -/
def BucketsAscend : List Bucket → List Bucket → Prop :=
  List.Forall₂ fun b b' => ∃ value, b' = { b with value := value } ∧ b.value.Rises value

/-- A later state of the same metric. Only counts are compared. -/
inductive Ascends : IMetric → IMetric → Prop where
  | counter (m : Counter) (value : Double) :
      m.value.Rises value → Ascends (.counter m) (.counter { m with value := value })
  | histogram (m : Histogram) (buckets : List Bucket) :
      BucketsAscend m.buckets buckets →
      Ascends (.histogram m) (.histogram { m with buckets := buckets })
  | gauge (m m' : Gauge) : Ascends (.gauge m) (.gauge m')
  | matchGauge (m m' : MatchGauge) : Ascends (.matchGauge m) (.matchGauge m')

theorem bucketsAscend_refl (bs : List Bucket) : BucketsAscend bs bs :=
  List.forall₂_same.mpr fun b _ => ⟨b.value, rfl, b.value.rises_refl⟩

theorem BucketsAscend.trans {bs bs' bs'' : List Bucket} (h : BucketsAscend bs bs')
    (h' : BucketsAscend bs' bs'') : BucketsAscend bs bs'' := by
  induction h generalizing bs'' with
  | nil => exact h'
  | cons hb _ ih =>
    cases h' with
    | cons hb' hrest =>
      obtain ⟨value, rfl, hrises⟩ := hb
      obtain ⟨value', rfl, hrises'⟩ := hb'
      exact .cons ⟨value', rfl, hrises.trans hrises'⟩ (ih hrest)

theorem ascends_refl (m : IMetric) : Ascends m m := by
  cases m with
  | counter m => exact .counter m m.value m.value.rises_refl
  | gauge m => exact .gauge m m
  | histogram m => exact .histogram m m.buckets (bucketsAscend_refl m.buckets)
  | matchGauge m => exact .matchGauge m m

theorem Ascends.trans {a b c : IMetric} (hab : Ascends a b) (hbc : Ascends b c) : Ascends a c := by
  cases hab with
  | counter m value h =>
    cases hbc with
    | counter _ value' h' => exact .counter m value' (h.trans h')
  | histogram m buckets h =>
    cases hbc with
    | histogram _ buckets' h' => exact .histogram m buckets' (h.trans h')
  | gauge m m' =>
    cases hbc with
    | gauge _ m'' => exact .gauge m m''
  | matchGauge m m' =>
    cases hbc with
    | matchGauge _ m'' => exact .matchGauge m m''

theorem bucketsAscend_observe (sample : Double) (bs : List Bucket) :
    BucketsAscend bs (Histogram.observe sample bs) := by
  induction bs with
  | nil => exact .nil
  | cons b bs ih =>
    unfold Histogram.observe
    split
    · exact .cons ⟨b.value.succ, rfl, b.value.rises_succ⟩ ih
    · exact bucketsAscend_refl (b :: bs)

theorem ascends_newSample {lib : Libraries} {m m' : IMetric} {payload : Str}
    (h : m.newSample lib payload = .ok m') : Ascends m m' := by
  cases m with
  | counter m =>
    cases h
    exact .counter m _ m.value.rises_succ
  | gauge m =>
    cases h
    exact .gauge m _
  | histogram m =>
    cases h
    exact .histogram m _ (bucketsAscend_observe _ m.buckets)
  | matchGauge m =>
    obtain ⟨value, rfl⟩ := matchGauge_newSample_ok h
    exact .matchGauge m _

/-- A counter or a histogram whose counts were counted up from zero. -/
def Counting : IMetric → Prop
  | .counter m => m.value.IsCount
  | .histogram m => ∀ b ∈ m.buckets, b.value.IsCount
  | .gauge _ | .matchGauge _ => False

theorem counting_create {lib : Libraries} {config : OpenMetric} {labels : LabelSet} {m : IMetric}
    (hc : config.type = .counter ∨ config.type = .histogram)
    (h : create lib config labels = .ok m) : Counting m := by
  unfold create at h
  rcases hc with ht | ht
  · simp only [ht] at h
    cases h
    exact ⟨0, rfl⟩
  · simp only [ht] at h
    cases h
    intro b hb
    simp only [Histogram.create, List.mem_mergeSort] at hb
    obtain ⟨le, -, rfl⟩ := List.mem_map.mp hb
    exact ⟨0, rfl⟩

theorem counting_observe {sample : Double} {bs : List Bucket}
    (h : ∀ b ∈ bs, b.value.IsCount) : ∀ b ∈ Histogram.observe sample bs, b.value.IsCount := by
  induction bs with
  | nil => exact h
  | cons b bs ih =>
    unfold Histogram.observe
    split
    · intro x hx
      rcases List.mem_cons.mp hx with rfl | hx
      · exact (h b List.mem_cons_self).succ
      · exact ih (fun y hy => h y (List.mem_cons_of_mem b hy)) x hx
    · exact h

theorem counting_newSample {lib : Libraries} {m m' : IMetric} {payload : Str}
    (hm : Counting m) (h : m.newSample lib payload = .ok m') : Counting m' := by
  cases m with
  | counter m =>
    cases h
    exact Double.IsCount.succ hm
  | histogram m =>
    cases h
    exact counting_observe hm
  | gauge m => exact absurd hm id
  | matchGauge m => exact absurd hm id

/-- No point of a later state shows less than the same point did. -/
theorem Ascends.point {lib : Libraries} {m m' : IMetric} (hm : Counting m) (h : Ascends m m')
    (fullname : Str) {i : ℕ} {a b : IPoint} (ha : (m.points lib fullname)[i]? = some a)
    (hb : (m'.points lib fullname)[i]? = some b) :
    a.fullname = b.fullname ∧ a.labelSet = b.labelSet ∧
      (a.value = b.value ∨ a.value.le b.value = true) := by
  cases h with
  | counter m value hrises =>
    cases i with
    | succ i => simp [points, Counter.points] at ha
    | zero =>
      cases ha
      cases hb
      exact ⟨rfl, rfl, Or.inr (Double.IsCount.le_of_rises hm hrises)⟩
  | histogram m buckets hbuckets =>
    have hlen := hbuckets.length_eq
    simp only [points, Histogram.points, List.getElem?_append, List.length_map, ← hlen] at ha hb
    by_cases hi : i < m.buckets.length
    · simp only [hi, if_true, List.getElem?_map, Option.map_eq_some_iff] at ha hb
      obtain ⟨x, hx, rfl⟩ := ha
      obtain ⟨y, hy, rfl⟩ := hb
      obtain ⟨hbound, rfl⟩ := List.getElem?_eq_some_iff.mp hx
      obtain ⟨hbound', rfl⟩ := List.getElem?_eq_some_iff.mp hy
      obtain ⟨value, heq, hrises⟩ := hbuckets.get hbound hbound'
      simp only [List.get_eq_getElem] at heq hrises
      rw [heq]
      refine ⟨rfl, rfl, Or.inr ?_⟩
      exact Double.IsCount.le_of_rises (hm _ (List.getElem_mem hbound)) hrises
    · simp only [hi, if_false] at ha hb
      rw [ha] at hb
      cases hb
      exact ⟨rfl, rfl, Or.inl rfl⟩
  | gauge m m' => exact absurd hm id
  | matchGauge m m' => exact absurd hm id

end IMetric

/-! ## Two passes -/

namespace Concurrent

variable {lib : Libraries} {config : Configuration} {events : List FamilyEvent}
  {labels : LabelSet}

theorem counting_run (hc : config.openMetric.type = .counter ∨ config.openMetric.type = .histogram)
    (events : List FamilyEvent) {m : IMetric}
    (hm : (familyAfter lib config events).current labels = some m) : m.Counting := by
  obtain ⟨item, hfind, hitem⟩ := Option.bind_eq_some_iff.mp hm
  refine (MetricFamily.run_induction (I := fun f => f.config = config ∧ ∀ labels item m,
    f.metrics.find? labels = some item → item.metric = some m → m.Counting) ?_ ⟨rfl, ?_⟩).2
    labels item m hfind hitem
  · rintro e - f ⟨hconfig, hf⟩
    refine ⟨(MetricFamily.config_apply lib f e).trans hconfig, ?_⟩
    apply MetricFamily.apply_metrics hf
    · intro q _ x hx
      rw [hconfig] at hx
      exact IMetric.counting_create hc hx
    · intro q _ x x' payload hx hsample
      exact IMetric.counting_newSample hx hsample
  · intro q x m hfind
    cases hfind

/-- What was shown since an earlier moment was there before what is shown since a
later one. -/
theorem shown_ascends {first first' last : ℕ} {m m' : IMetric}
    (hkept : HeldFrom lib config events first first' labels)
    (hm : Shown lib config (events.take last) first labels m) (hlast : last ≤ first')
    (hm' : Shown lib config events first' labels m') : m.Ascends m' := by
  obtain ⟨n, hfirst, hn, -, hcurrent⟩ := hm
  obtain ⟨n', hfirst', hn', hheld', hcurrent'⟩ := hm'
  rw [List.length_take] at hn
  have hbefore : familyAt lib config (events.take last) n = familyAt lib config events n := by
    rw [familyAt, List.take_take, min_eq_left (by omega), familyAt]
  rw [hbefore] at hcurrent
  have hheld : HeldFrom lib config events first n' labels := by
    intro j hj hj'
    by_cases hbegun : j ≤ first'
    · exact hkept j hj hbegun
    · exact hheld' j (by omega) hj'
  exact heldFrom_keeps (R := IMetric.Ascends) IMetric.ascends_refl (fun _ _ _ h => h.trans)
    (fun _ _ _ h => IMetric.ascends_newSample h) hn' hheld hfirst (by omega) (le_refl _) hcurrent
    hcurrent'

/-- A pass that begins after another has printed a count prints no smaller one,
unless the series was evicted since the other began. -/
theorem counts_ascend (lib : Libraries) (config : Configuration)
    (hc : config.openMetric.type = .counter ∨ config.openMetric.type = .histogram)
    (actions later : List Action) (s s' : Concurrent)
    (h : run (step lib) (start config) actions = some s) (hlater : run (step lib) s later = some s')
    (p q : Pass) (hp : p ∈ s.passes) (hq : q ∈ s'.passes) (hbegun : s.history.length ≤ q.start)
    (labels : LabelSet) (printed printed' : List IPoint) (hprinted : Printed p labels printed)
    (hprinted' : Printed q labels printed')
    (hkept : HeldFrom lib config s'.history p.start q.start labels) (i : ℕ) (a b : IPoint)
    (ha : printed[i]? = some a) (hb : printed'[i]? = some b) :
    a.fullname = b.fullname ∧ a.labelSet = b.labelSet ∧
      (a.value = b.value ∨ a.value.le b.value = true) := by
  have h' : run (step lib) (start config) (actions ++ later) = some s' :=
    run_append.mpr ⟨s, h, hlater⟩
  have hhistory : s.history = s'.history.take s.history.length := by
    rw [history_run h', List.filterMap_append, ← history_run h, List.take_left]
  obtain ⟨m, hm, hma⟩ := ((follows_run h).2 p hp).printed labels printed hprinted i a ha
  obtain ⟨m', hm', hmb⟩ := ((follows_run h').2 q hq).printed labels printed' hprinted' i b hb
  rw [hhistory] at hm
  have hascends := shown_ascends hkept hm hbegun hm'
  have hcounting : m.Counting := by
    obtain ⟨n, -, -, -, hcurrent⟩ := hm
    exact counting_run hc _ hcurrent
  exact hascends.point hcounting _ hma hmb

/-- A counter is scraped, sampled and scraped again. -/
theorem counts_ascend_two : ∃ s s', ∃ n : ℕ → Double,
    run (step simpleLibraries) (start (counterEntry "t" "c"))
      [.sample 0 [] .empty, .write, .write, .begin, .read 0, .read 0] = some s ∧
    run (step simpleLibraries) s
      [.sample 5 [] .empty, .write, .write, .begin, .read 1, .read 1] = some s' ∧
    s'.passes = [⟨1, [], some (.empty, 0, [⟨"c_total".toList, .empty, n 1⟩]), []⟩,
      ⟨2, [], some (.empty, 0, [⟨"c_total".toList, .empty, n 2⟩]), []⟩] ∧
    (n 1 = n 2 ∨ (n 1).le (n 2) = true) := by
  refine ⟨_, _, fun k => Double.succ^[k] (Double.ofInt 0), rfl, rfl, rfl, ?_⟩
  refine (counts_ascend simpleLibraries (counterEntry "t" "c") (Or.inl rfl)
    [.sample 0 [] .empty, .write, .write, .begin, .read 0, .read 0]
    [.sample 5 [] .empty, .write, .write, .begin, .read 1, .read 1] _ _ rfl rfl
    ⟨1, [], some (.empty, 0, [⟨"c_total".toList, .empty, Double.succ^[1] (Double.ofInt 0)⟩]), []⟩
    ⟨2, [], some (.empty, 0, [⟨"c_total".toList, .empty, Double.succ^[2] (Double.ofInt 0)⟩]), []⟩
    List.mem_cons_self (List.mem_cons_of_mem _ List.mem_cons_self) (Nat.le_succ 1) .empty _ _
    (Or.inr ⟨0, rfl⟩) (Or.inr ⟨0, rfl⟩) ?_ 0 _ _ rfl rfl).2.2
  intro n hn hn'
  have hcases : n = 1 ∨ n = 2 := by
    change 1 ≤ n at hn
    change n ≤ 2 at hn'
    omega
  rcases hcases with rfl | rfl <;> exact fun hnone => by cases hnone

end Concurrent

end MqttExporter
