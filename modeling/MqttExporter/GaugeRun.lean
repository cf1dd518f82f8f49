import MqttExporter.CounterRun
import MqttExporter.Series

/-!
# Runs of a gauge family

A gauge takes the number of each payload that has one and ignores the others, but
the first value of its point is whatever the memory holds.

* `held_since`: what a run leaves under a label set is made by the payloads that
  came since the last pass that removed it, for every class of metric;
* `gauge_run_iff`: when a gauge shows received numbers only.
-/

namespace MqttExporter

open Loop

/-- The payload, if the event samples the label set. -/
def FamilyEvent.payload? (labels : LabelSet) : FamilyEvent → Option Str
  | .sample _ payload q => if q = labels then some payload else none
  | .routine _ => none

/-- The payloads for the label set. -/
def received (labels : LabelSet) (events : List FamilyEvent) : List Str :=
  events.filterMap (FamilyEvent.payload? labels)

/-- The numbers that `std::from_chars` extracts from them. -/
def numbers (labels : LabelSet) (events : List FamilyEvent) : List Double :=
  (received labels events).filterMap Double.fromChars

theorem received_snoc (labels : LabelSet) (events : List FamilyEvent) (e : FamilyEvent) :
    received labels (events ++ [e]) = received labels events ++ (e.payload? labels).toList := by
  rw [received, List.filterMap_append]
  cases h : e.payload? labels <;> simp [received, h]

namespace MetricFamily

/-! ## Since the last eviction -/

theorem held_routine (lib : Libraries) {f : MetricFamily} {labels : LabelSet} {now : Int}
    (h : ¬ Evicts f labels (.routine now)) :
    (f.apply lib (.routine now)).held labels = f.held labels := by
  have hfind := find?_routine now f labels
  unfold held
  rw [apply, hfind]
  cases hitem : f.metrics.find? labels with
  | none => rfl
  | some item =>
    rw [hitem] at hfind
    by_cases hkeep : (some item).filter (fun item => now - item.timestamp ≤ f.config.maxAge) = none
    · exact absurd ⟨by rw [hitem]; rfl, hfind.trans hkeep⟩ h
    · obtain ⟨item', hitem'⟩ := Option.ne_none_iff_exists'.mp hkeep
      rw [hitem', ← (Option.filter_eq_some_iff.mp hitem').1]

/-- What is under a label set is what its payloads since the last eviction make
of nothing. -/
theorem held_since (lib : Libraries) (config : Configuration) (labels : LabelSet)
    (events : List FamilyEvent) :
    ∃ since, SinceEviction lib config labels since events ∧
      (run lib ⟨config, .empty⟩ events).held labels = (received labels since).foldl
        (fun cell payload => afterSample lib config.openMetric labels payload cell) none := by
  induction events using List.reverseRecOn with
  | nil => exact ⟨[], sinceEviction_nil lib config labels, rfl⟩
  | append_singleton events e ih =>
    obtain ⟨since, hsince, hheld⟩ := ih
    by_cases he : Evicts (run lib ⟨config, .empty⟩ events) labels e
    · refine ⟨[], sinceEviction_evicted he, ?_⟩
      cases e with
      | sample t payload q => exact absurd he id
      | routine now =>
        rw [run_snoc, held, apply, he.2]
        rfl
    · refine ⟨since ++ [e], sinceEviction_snoc he hsince, ?_⟩
      rw [run_snoc, received_snoc, List.foldl_append, ← hheld]
      cases e with
      | routine now => exact held_routine lib he
      | sample t payload q =>
        by_cases hq : q = labels
        · subst hq
          rw [held_sample, config_run]
          simp [FamilyEvent.payload?]
        · unfold held
          rw [find?_apply_of_ne lib _ t payload hq]
          simp [FamilyEvent.payload?, hq]

/-! ## The value of a gauge -/

theorem afterSample_first (lib : Libraries) {config : OpenMetric} (hc : config.type = .gauge)
    (labels : LabelSet) (payload : Str) :
    afterSample lib config labels payload none =
      some (some (.gauge ⟨labels, Double.fromChars payload⟩)) := by
  have hcreate : IMetric.create lib config labels = .ok (.gauge (Gauge.create labels)) := by
    rw [IMetric.create, hc]
  simp only [afterSample, Option.join_none, hcreate, IMetric.newSample, Gauge.newSample,
    Gauge.create, Option.or_none]

theorem afterSample_next (lib : Libraries) (config : OpenMetric) (labels : LabelSet)
    (payload : Str) (value : Option Double) :
    afterSample lib config labels payload (some (some (.gauge ⟨labels, value⟩))) =
      some (some (.gauge ⟨labels, (Double.fromChars payload).or value⟩)) := rfl

/-- The value is the last number among the payloads. -/
theorem foldl_gauge (lib : Libraries) {config : OpenMetric} (hc : config.type = .gauge)
    (labels : LabelSet) (payloads : List Str) :
    payloads.foldl (fun cell payload => afterSample lib config labels payload cell) none =
      if payloads = [] then none
      else some (some (.gauge ⟨labels, (payloads.filterMap Double.fromChars).getLast?⟩)) := by
  induction payloads using List.reverseRecOn with
  | nil => rfl
  | append_singleton payloads payload ih =>
    have hlast : ((payloads ++ [payload]).filterMap Double.fromChars).getLast? =
        (Double.fromChars payload).or (payloads.filterMap Double.fromChars).getLast? := by
      rw [List.filterMap_append, List.getLast?_append]
      cases hp : Double.fromChars payload <;> simp [hp]
    rw [List.foldl_append, ih, List.foldl_cons, List.foldl_nil, hlast]
    by_cases hnil : payloads = []
    · subst hnil
      simp [afterSample_first lib hc]
    · simp [hnil, afterSample_next]

theorem gauge_since (lib : Libraries) {config : Configuration}
    (hc : config.openMetric.type = .gauge) (labels : LabelSet) (events : List FamilyEvent) :
    ∃ since, SinceEviction lib config labels since events ∧
      (run lib ⟨config, .empty⟩ events).held labels =
        if received labels since = [] then none
        else some (some (.gauge ⟨labels, (numbers labels since).getLast?⟩)) := by
  obtain ⟨since, hsince, hheld⟩ := held_since lib config labels events
  exact ⟨since, hsince, hheld.trans (foldl_gauge lib hc labels _)⟩

/-! ## What is exposed -/

end MetricFamily

/-- The value of a gauge's point; `none` is memory that was never written to. -/
def IMetric.gaugeValue : IMetric → Option (Option Double)
  | .gauge g => some g.value
  | .counter _ | .histogram _ | .matchGauge _ => none

namespace MetricFamily

/-- The value exposed for a label set, if there is a series. -/
def exposed (f : MetricFamily) (labels : LabelSet) : Option (Option Double) :=
  (f.current labels).bind IMetric.gaugeValue

theorem exposed_absent {f : MetricFamily} {labels : LabelSet}
    (h : f.metrics.find? labels = none) : f.exposed labels = none := by
  rw [exposed, current, h]
  rfl

/-- Every stored item is a gauge, with the value that is exposed for it. -/
theorem gauge_item (lib : Libraries) {config : Configuration}
    (hc : config.openMetric.type = .gauge) {labels : LabelSet} {events : List FamilyEvent}
    {item : MetricItem} (h : (run lib ⟨config, .empty⟩ events).metrics.find? labels = some item) :
    ∃ value, item.metric = some (.gauge ⟨labels, value⟩) ∧
      (run lib ⟨config, .empty⟩ events).exposed labels = some value := by
  obtain ⟨since, -, hheld⟩ := gauge_since lib hc labels events
  have hcell : (run lib ⟨config, .empty⟩ events).held labels = some item.metric := by
    rw [held, h, Option.map_some]
  rw [hcell] at hheld
  split at hheld
  · cases hheld
  · have hmetric := Option.some.inj hheld
    refine ⟨_, hmetric, ?_⟩
    rw [exposed, current, h, Option.bind_some, hmetric]
    rfl

/-- The points of a scrape are the exposed values, with what the memory holds for
those never written. -/
theorem points_gauge (lib : Libraries) {config : Configuration}
    (hc : config.openMetric.type = .gauge) (events : List FamilyEvent) :
    ∃ points, (run lib ⟨config, .empty⟩ events).points lib = some points ∧
      ∀ p, p ∈ points ↔ ∃ labels value,
        (run lib ⟨config, .empty⟩ events).exposed labels = some value ∧
          p = ⟨(run lib ⟨config, .empty⟩ events).getFullname, labels,
            value.getD lib.uninitialised⟩ := by
  have hconsistent : (run lib ⟨config, .empty⟩ events).Consistent lib := by
    intro labels item hitem
    obtain ⟨value, hmetric, -⟩ := gauge_item lib hc hitem
    have hnamed : (run lib ⟨config, .empty⟩ events).Named lib fun _ => True :=
      run_named fun _ _ _ _ => trivial
    exact ⟨_, hmetric, (hnamed labels item _ hitem hmetric).2⟩
  obtain ⟨ms, hms⟩ := visited_defined hconsistent
  refine ⟨_, by rw [points, hms, Option.map_some], fun p => ?_⟩
  rw [List.mem_flatMap]
  constructor
  · rintro ⟨m, hm, hp⟩
    obtain ⟨labels, item, hitem, hmetric⟩ := mem_visited hms hm
    obtain ⟨value, hgauge, hvalue⟩ := gauge_item lib hc hitem
    rw [hmetric] at hgauge
    cases hgauge
    exact ⟨labels, value, hvalue, List.mem_singleton.mp hp⟩
  · rintro ⟨labels, value, hvalue, rfl⟩
    obtain ⟨m, hcurrent, hm⟩ := Option.bind_eq_some_iff.mp hvalue
    obtain ⟨item, hitem, hmetric⟩ := Option.bind_eq_some_iff.mp hcurrent
    obtain ⟨value', hgauge, -⟩ := gauge_item lib hc hitem
    rw [hmetric] at hgauge
    cases hgauge
    cases hm
    have hbegin : some (IMetric.gauge ⟨labels, value'⟩) ∈ ms.map some := by
      rw [← visited_eq_some.mp hms]
      exact List.mem_map.mpr ⟨(labels, item), OrderedMap.mem_entries_iff _ |>.mpr hitem, hmetric⟩
    exact ⟨_, by simpa using hbegin, List.mem_singleton_self _⟩

/-- Every value exposed is the last number that the label set received since its
series was created. -/
def ShowsReceived (lib : Libraries) (config : Configuration) (events : List FamilyEvent) : Prop :=
  ∀ labels value, (run lib ⟨config, .empty⟩ events).exposed labels = some value →
    ∃ since x, SinceEviction lib config labels since events ∧ value = some x ∧
      (numbers labels since).getLast? = some x

theorem showsReceived_iff (lib : Libraries) {config : Configuration}
    (hc : config.openMetric.type = .gauge) (events : List FamilyEvent) :
    ShowsReceived lib config events ↔
      ∀ labels, (run lib ⟨config, .empty⟩ events).exposed labels ≠ some none := by
  constructor
  · intro h labels hnone
    obtain ⟨since, x, -, hvalue, -⟩ := h labels none hnone
    cases hvalue
  · intro h labels value hvalue
    obtain ⟨since, hsince, hheld⟩ := gauge_since lib hc labels events
    have hcur : (run lib ⟨config, .empty⟩ events).exposed labels =
        ((run lib ⟨config, .empty⟩ events).held labels).join.bind IMetric.gaugeValue := by
      rw [held_join]
      rfl
    rw [hheld] at hcur
    split at hcur
    · rw [hvalue] at hcur
      cases hcur
    · have hlast : value = (numbers labels since).getLast? := by
        rw [hvalue] at hcur
        exact Option.some.inj hcur
      cases hx : value with
      | none => exact absurd (hx ▸ hvalue) (h labels)
      | some x => exact ⟨since, x, hsince, rfl, hlast.symm.trans hx⟩

/-! ## One event -/

theorem exposed_routine {f : MetricFamily} {now : Int} {labels : LabelSet} {value : Option Double}
    (h : (f.routine now).exposed labels = some value) : f.exposed labels = some value := by
  obtain ⟨m, hcurrent, hm⟩ := Option.bind_eq_some_iff.mp h
  obtain ⟨item, hitem, hmetric⟩ := Option.bind_eq_some_iff.mp hcurrent
  rw [find?_routine] at hitem
  have hbefore := (Option.filter_eq_some_iff.mp hitem).1
  rw [exposed, current, hbefore, Option.bind_some, hmetric]
  exact hm

theorem exposed_of_ne (lib : Libraries) (f : MetricFamily) {labels q : LabelSet} (t : Int)
    (payload : Str) (hne : q ≠ labels) :
    (f.apply lib (.sample t payload q)).exposed labels = f.exposed labels := by
  rw [exposed, exposed, current, current, find?_apply_of_ne lib f t payload hne]

/-- A sample without a number keeps the value, in a new series the one that was
never written. -/
theorem exposed_sample (lib : Libraries) {config : Configuration}
    (hc : config.openMetric.type = .gauge) (events : List FamilyEvent) (t : Int) (payload : Str)
    (labels : LabelSet) :
    (run lib ⟨config, .empty⟩ (events ++ [.sample t payload labels])).exposed labels =
      some ((Double.fromChars payload).or
        ((run lib ⟨config, .empty⟩ events).exposed labels).join) := by
  have hafter := held_sample lib (run lib ⟨config, .empty⟩ events) t payload labels
  rw [config_run] at hafter
  rw [run_snoc, exposed, ← held_join, hafter]
  cases hfind : (run lib ⟨config, .empty⟩ events).metrics.find? labels with
  | none =>
    have hheld : (run lib ⟨config, .empty⟩ events).held labels = none := by
      rw [held, hfind, Option.map_none]
    rw [hheld, exposed_absent hfind, afterSample_first lib hc, Option.join_none, Option.or_none]
    rfl
  | some item =>
    obtain ⟨value, hmetric, hexposed⟩ := gauge_item lib hc hfind
    have hheld : (run lib ⟨config, .empty⟩ events).held labels =
        some (some (.gauge ⟨labels, value⟩)) := by
      rw [held, hfind, Option.map_some, hmetric]
    rw [hheld, hexposed, afterSample_next]
    rfl

/-- A sample that finds no series has a number. -/
def StartsWithNumber (lib : Libraries) (config : Configuration) (before : List FamilyEvent) :
    FamilyEvent → Prop
  | .sample _ payload labels =>
    (run lib ⟨config, .empty⟩ before).metrics.find? labels = none → hasNumber payload = true
  | .routine _ => True

theorem shows_snoc (lib : Libraries) {config : Configuration}
    (hc : config.openMetric.type = .gauge) {events : List FamilyEvent} (e : FamilyEvent)
    (h : ∀ labels, (run lib ⟨config, .empty⟩ events).exposed labels ≠ some none) :
    (∀ labels, (run lib ⟨config, .empty⟩ (events ++ [e])).exposed labels ≠ some none) ↔
      StartsWithNumber lib config events e := by
  cases e with
  | routine now =>
    refine iff_of_true (fun labels hnone => ?_) trivial
    rw [run_snoc] at hnone
    exact h labels (exposed_routine hnone)
  | sample t payload q =>
    have hown := exposed_sample lib hc events t payload q
    have hvalid : (Double.fromChars payload = none) ↔ ¬ hasNumber payload = true := by
      simp [hasNumber]
    constructor
    · intro hafter hfind
      rw [exposed_absent hfind, Option.join_none, Option.or_none] at hown
      by_contra hinvalid
      exact hafter q (by rw [hown, hvalid.mpr hinvalid])
    · intro hstarts labels hnone
      by_cases hq : q = labels
      · subst hq
        rw [hown, Option.some.injEq, Option.or_eq_none_iff] at hnone
        obtain ⟨hchars, hjoin⟩ := hnone
        cases hfind : (run lib ⟨config, .empty⟩ events).metrics.find? q with
        | none => exact hvalid.mp hchars (hstarts hfind)
        | some item =>
          obtain ⟨value, -, hexposed⟩ := gauge_item lib hc hfind
          rw [hexposed, Option.join_some] at hjoin
          exact h q (hjoin ▸ hexposed)
      · rw [run_snoc, exposed_of_ne lib _ t payload hq] at hnone
        exact h labels hnone

/-! ## The whole run -/

/-- Received numbers are shown after every event of a run exactly if every series
starts with one. -/
theorem gauge_run_iff (lib : Libraries) {config : Configuration}
    (hc : config.openMetric.type = .gauge) (events : List FamilyEvent) :
    (∀ past, past <+: events → ShowsReceived lib config past) ↔
      Transition.Throughout (StartsWithNumber lib config) events := by
  induction events using List.reverseRecOn with
  | nil =>
    refine iff_of_true (fun past hpast => ?_) (Transition.throughout_nil _)
    rw [List.prefix_nil.mp hpast, showsReceived_iff lib hc]
    intro labels hnone
    cases hnone
  | append_singleton events e ih =>
    rw [Transition.throughout_snoc, ← ih]
    constructor
    · intro h
      have hbefore : ∀ past, past <+: events → ShowsReceived lib config past :=
        fun past hpast => h past (hpast.trans (List.prefix_append events [e]))
      have hshows := (showsReceived_iff lib hc events).mp (hbefore events (List.prefix_refl events))
      have hafter := (showsReceived_iff lib hc _).mp (h _ (List.prefix_refl (events ++ [e])))
      exact ⟨hbefore, (shows_snoc lib hc e hshows).mp hafter⟩
    · rintro ⟨hbefore, hstarts⟩ past hpast
      have hshows := (showsReceived_iff lib hc events).mp (hbefore events (List.prefix_refl events))
      rcases List.prefix_concat_iff.mp hpast with rfl | hpast
      · exact (showsReceived_iff lib hc _).mpr ((shows_snoc lib hc e hshows).mpr hstarts)
      · exact hbefore past hpast

/-- A gauge entry like `counterEntry`. -/
def gaugeEntry : Configuration :=
  ⟨"t".toList, ⟨"g".toList, .gauge, [], [], [], [], [], [], []⟩, [], 86400⟩

/-- The second payload has no number, and the value stays. -/
theorem gauge_run_number : ShowsReceived simpleLibraries gaugeEntry
    [.sample 0 (Double.showInt 7) .empty, .sample 1 "ON".toList .empty] := by
  have hfirst : StartsWithNumber simpleLibraries gaugeEntry []
      (.sample 0 (Double.showInt 7) .empty) := by
    intro _
    rw [hasNumber, Double.fromChars_showInt (by norm_num)]
    rfl
  have hsecond : StartsWithNumber simpleLibraries gaugeEntry
      [.sample 0 (Double.showInt 7) .empty] (.sample 1 "ON".toList .empty) := by
    intro hnone
    cases hnone
  have hall : Transition.Throughout (StartsWithNumber simpleLibraries gaugeEntry)
      ([] ++ [.sample 0 (Double.showInt 7) .empty] ++ [.sample 1 "ON".toList .empty]) :=
    Transition.throughout_snoc.mpr
      ⟨Transition.throughout_snoc.mpr ⟨Transition.throughout_nil _, hfirst⟩, hsecond⟩
  exact (gauge_run_iff simpleLibraries rfl _).mpr hall _ (List.prefix_refl _)

/-- The first sample has no number, and the point shows the memory. -/
theorem gauge_shows_memory : ¬ ShowsReceived simpleLibraries gaugeEntry
    [.sample 0 "ON".toList .empty] := by
  rw [showsReceived_iff simpleLibraries rfl]
  intro h
  have hchars : Double.fromChars "ON".toList = none := by decide
  have hexposed := @exposed_sample simpleLibraries gaugeEntry rfl [] 0 "ON".toList .empty
  rw [hchars] at hexposed
  exact h .empty hexposed

end MetricFamily

end MqttExporter
