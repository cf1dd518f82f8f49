import MqttExporter.CounterRun

/-!
# How long a series stays

A series is removed by the first pass that finds its last sample older than
`maxAge`. Between passes it stays, however old it is, so what a family holds is
bounded by `maxAge` and by the time between two passes.

* `stamped_run`: a label set has an item exactly if no pass came too long after
  its last sample, for a family of any type;
* `expiry_window`: the same, in clock readings alone.
-/

namespace MqttExporter

open Loop

def FamilyEvent.time : FamilyEvent → Int
  | .sample now _ _ => now
  | .routine now => now

namespace MetricFamily

/-- The constructor of the metrics never raises. -/
def Buildable (lib : Libraries) (config : Configuration) : Prop :=
  ∀ labels, ∃ m, IMetric.create lib config.openMetric labels = .ok m

theorem buildable_of_pattern {lib : Libraries} {config : Configuration}
    (hs : config.openMetric.type ≠ .summary)
    (hp : ∀ r, config.openMetric.pattern = some r → lib.regexValid r = true) :
    Buildable lib config := by
  intro labels
  rcases IMetric.create_pattern hs labels with ⟨m, hm, -⟩ | ⟨e, -, htrial⟩
  · exact ⟨m, hm⟩
  · -- only an invalid pattern raises for every payload
    cases hpattern : config.openMetric.pattern with
    | none =>
      have hnone := htrial []
      rw [hpattern] at hnone
      cases hnone
    | some r =>
      unfold IMetric.create
      have hregex : lib.regex config.openMetric.matchRegex =
          .ok config.openMetric.matchRegex := by
        have hmatch : config.openMetric.matchRegex = r := by
          unfold OpenMetric.pattern at hpattern
          split at hpattern <;> cases hpattern
          rfl
        exact if_pos (hmatch ▸ hp r hpattern)
      cases htype : config.openMetric.type with
      | counter => exact ⟨_, rfl⟩
      | gauge => exact ⟨_, rfl⟩
      | histogram => exact ⟨_, rfl⟩
      | summary => exact absurd htype hs
      | matchGauge =>
        simp only [MatchGauge.create, hregex]
        exact ⟨_, rfl⟩

section

variable {lib : Libraries} {config : Configuration} {labels : LabelSet}
  {events : List FamilyEvent}

/-- However a sample ends, its item is stamped with its time. -/
theorem stamped_sample (hb : Buildable lib config) {f : MetricFamily} (hf : f.config = config)
    (t : Int) (payload : Str) (labels : LabelSet) :
    ∃ m, f.apply lib (.sample t payload labels) =
      { f with metrics := f.metrics.set labels ⟨some m, t⟩ } := by
  obtain ⟨m, hm⟩ : ∃ m, f.target lib labels = .ok m := by
    unfold target
    cases f.current labels with
    | some m => exact ⟨m, rfl⟩
    | none =>
      obtain ⟨m, hm⟩ := hb labels
      rw [← hf] at hm
      exact ⟨m, hm⟩
  rw [apply, newSample_eq, hm]
  cases hs : m.newSample lib payload with
  | error e => exact ⟨m, by simp only [hs, final]⟩
  | ok m' => exact ⟨m', by simp only [hs, final]⟩

/-- An item is under the label set exactly as long as it is fresh. -/
def Stamped (lib : Libraries) (config : Configuration) (labels : LabelSet)
    (events : List FamilyEvent) : Prop :=
  ∀ t, (∃ m, (run lib ⟨config, .empty⟩ events).metrics.find? labels = some ⟨m, t⟩) ↔
    Fresh config labels t events

theorem stamped_kept (hs : Stamped lib config labels events) {e : FamilyEvent}
    (he : e.sampled ≠ some labels)
    (hfind : ∀ item, (run lib ⟨config, .empty⟩ (events ++ [e])).metrics.find? labels = some item ↔
      (run lib ⟨config, .empty⟩ events).metrics.find? labels = some item ∧
        ∀ r, e = .routine r → ¬ config.maxAge < r - item.timestamp) :
    Stamped lib config labels (events ++ [e]) := by
  intro t
  rw [fresh_snoc he, ← hs t]
  constructor
  · rintro ⟨m, hm⟩
    obtain ⟨hold, hpass⟩ := (hfind _).mp hm
    exact ⟨⟨m, hold⟩, hpass⟩
  · rintro ⟨⟨m, hold⟩, hpass⟩
    exact ⟨m, (hfind _).mpr ⟨hold, hpass⟩⟩

theorem stamped_run (hb : Buildable lib config) (labels : LabelSet) (events : List FamilyEvent) :
    Stamped lib config labels events := by
  induction events using List.reverseRecOn with
  | nil =>
    intro t
    constructor
    · rintro ⟨m, hm⟩
      cases hm
    · rintro ⟨rest, ⟨before, payload, heq, -⟩, -⟩
      simp at heq
  | append_singleton events e ih =>
    cases e with
    | sample t payload q =>
      have hconfig : (run lib ⟨config, .empty⟩ events).config = config := config_run lib _ _
      obtain ⟨m, happly⟩ := stamped_sample hb hconfig t payload q
      by_cases hq : q = labels
      · subst hq
        have hfind : (run lib ⟨config, .empty⟩ (events ++ [.sample t payload q])).metrics.find? q =
            some ⟨some m, t⟩ := by
          rw [run_snoc, happly, OrderedMap.find?_set_self]
        have hfresh := fresh_sample config q t payload events
        intro t'
        constructor
        · rintro ⟨m', hm'⟩
          rw [hfind] at hm'
          cases hm'
          exact hfresh
        · intro hfresh'
          rw [fresh_unique hfresh' hfresh]
          exact ⟨some m, hfind⟩
      · apply stamped_kept ih (by simpa [FamilyEvent.sampled] using hq)
        intro item
        rw [run_snoc, find?_apply_of_ne lib _ t payload hq]
        simp
    | routine now =>
      apply stamped_kept ih (by simp [FamilyEvent.sampled])
      intro item
      rw [run_snoc, apply, find?_routine, Option.filter_eq_some_iff, config_run]
      simp [not_lt]

/-! ## The clock -/

/-- The label set of a sample that came no earlier than `since`. -/
def FamilyEvent.sampledSince (since : Int) : FamilyEvent → Option LabelSet
  | .sample t _ labels => if since ≤ t then some labels else none
  | .routine _ => none

theorem mem_sampledSince {since : Int} {labels : LabelSet} {events : List FamilyEvent} :
    labels ∈ events.filterMap (FamilyEvent.sampledSince since) ↔
      ∃ t payload, FamilyEvent.sample t payload labels ∈ events ∧ since ≤ t := by
  simp only [List.mem_filterMap]
  constructor
  · rintro ⟨e, he, hlabels⟩
    cases e with
    | routine r => cases hlabels
    | sample t payload q =>
      rw [FamilyEvent.sampledSince] at hlabels
      split at hlabels
      · next hsince =>
        cases hlabels
        exact ⟨t, payload, he, hsince⟩
      · cases hlabels
  · rintro ⟨t, payload, he, hsince⟩
    exact ⟨_, he, if_pos hsince⟩

/-- The clock does not go back. -/
abbrev Chronological (events : List FamilyEvent) : Prop :=
  events.Pairwise fun a b => a.time ≤ b.time

/-- A fresh item's sample, or a pass after it, is as recent as the last pass. -/
theorem fresh_recent {now period t r : Int} (hclock : Chronological events)
    (hpass : .routine r ∈ events) (hrecent : now - r ≤ period)
    (hfresh : Fresh config labels t events) :
    ∃ payload, .sample t payload labels ∈ events ∧ now - t ≤ max config.maxAge 0 + period := by
  obtain ⟨rest, ⟨before, payload, rfl, -⟩, hpasses⟩ := hfresh
  refine ⟨payload, by simp, ?_⟩
  have hmax := le_max_left config.maxAge 0
  have hzero := le_max_right config.maxAge 0
  rcases List.mem_append.mp hpass with hbefore | hlater
  · -- the pass came first, so the sample is the younger of the two
    have htime : r ≤ t := (List.pairwise_append.mp hclock).2.2 _ hbefore
      (.sample t payload labels) (by simp)
    omega
  · have hage : ¬ config.maxAge < r - t := hpasses r (by simpa using hlater)
    omega

theorem lastSample_exists {e : FamilyEvent} (he : e.sampled = some labels) (h : e ∈ events) :
    ∃ t rest, LastSample labels t rest events := by
  induction events using List.reverseRecOn with
  | nil => cases h
  | append_singleton events x ih =>
    by_cases hx : x.sampled = some labels
    · cases x with
      | routine r => cases hx
      | sample t payload q =>
        cases hx
        exact ⟨t, [], lastSample_sample labels t payload events⟩
    · rcases List.mem_append.mp h with hold | hnew
      · obtain ⟨t, rest, hlast⟩ := ih hold
        exact ⟨t, rest ++ [x], lastSample_snoc hx hlast⟩
      · rw [← List.mem_singleton.mp hnew] at hx
        exact absurd he hx

/-- The last sample of a label set is no older than any other. -/
theorem lastSample_recent {t : Int} {payload : Str} (hclock : Chronological events)
    (h : .sample t payload labels ∈ events) :
    ∃ t' rest, LastSample labels t' rest events ∧ t ≤ t' := by
  obtain ⟨t', rest, hlast⟩ := lastSample_exists rfl h
  refine ⟨t', rest, hlast, ?_⟩
  obtain ⟨before, payload', rfl, hrest⟩ := hlast
  rcases List.mem_append.mp h with hbefore | hlater
  · exact (List.pairwise_append.mp hclock).2.2 _ hbefore (.sample t' payload' labels) (by simp)
  · rcases List.mem_cons.mp hlater with heq | hafter
    · cases heq
      exact le_refl _
    · exact absurd rfl (hrest _ hafter)

end

/-- While the clock does not go back, what a family holds is what was sampled in
the last `maxAge`, and at most what was sampled in the time of one pass more. -/
theorem expiry_window {lib : Libraries} {config : Configuration} {events : List FamilyEvent}
    {now period r : Int} (hb : Buildable lib config) (hclock : Chronological events)
    (hnow : ∀ e ∈ events, e.time ≤ now) (hpass : .routine r ∈ events) (hr : now - r ≤ period) :
    let series := (run lib ⟨config, .empty⟩ events).metrics
    (∀ labels t payload, .sample t payload labels ∈ events → now - t ≤ config.maxAge →
      ∃ item, series.find? labels = some item ∧ t ≤ item.timestamp) ∧
    (∀ labels item, series.find? labels = some item →
      now - item.timestamp ≤ max config.maxAge 0 + period ∧
      ∃ payload, .sample item.timestamp payload labels ∈ events) ∧
    series.keys.length ≤ (events.filterMap
      (FamilyEvent.sampledSince (now - (max config.maxAge 0 + period)))).dedup.length := by
  intro series
  have hheld : ∀ labels item, series.find? labels = some item →
      ∃ payload, .sample item.timestamp payload labels ∈ events ∧
        now - item.timestamp ≤ max config.maxAge 0 + period := by
    intro labels item hitem
    exact fresh_recent hclock hpass hr ((stamped_run hb labels events item.timestamp).mp
      ⟨item.metric, hitem⟩)
  refine ⟨fun labels t payload hsample hage => ?_, fun labels item hitem => ?_, ?_⟩
  · obtain ⟨t', rest, hlast, hle⟩ := lastSample_recent hclock hsample
    have hfresh : Fresh config labels t' events := by
      refine ⟨rest, hlast, fun q hq => ?_⟩
      obtain ⟨before, payload', rfl, -⟩ := hlast
      have := hnow (.routine q) (by simp [hq])
      simp only [FamilyEvent.time] at this
      omega
    obtain ⟨m, hitem⟩ := (stamped_run hb labels events t').mpr hfresh
    exact ⟨⟨m, t'⟩, hitem, hle⟩
  · obtain ⟨payload, hsample, hage⟩ := hheld labels item hitem
    exact ⟨hage, payload, hsample⟩
  · apply (List.subperm_of_subset series.keys_nodup ?_).length_le
    intro labels hlabels
    obtain ⟨item, hitem⟩ := (series.mem_keys_iff).mp hlabels
    obtain ⟨payload, hsample, hage⟩ := hheld labels item hitem
    rw [List.mem_dedup, mem_sampledSince]
    exact ⟨item.timestamp, payload, hsample, by omega⟩

theorem expiry_window_pass :
    ((run simpleLibraries ⟨counterEntry "t" "c", .empty⟩
      [.sample 0 [] .empty, .sample 50000 [] .empty, .routine 90000]).metrics.find?
        .empty).isSome := by
  have hb : Buildable simpleLibraries (counterEntry "t" "c") :=
    buildable_of_pattern (by decide) (fun r hr => by cases hr)
  have hclock : Chronological [.sample 0 [] .empty, .sample 50000 [] .empty, .routine 90000] := by
    simp [Chronological, FamilyEvent.time]
  have hnow : ∀ e ∈ [.sample 0 [] .empty, .sample 50000 [] .empty, .routine 90000],
      FamilyEvent.time e ≤ 90000 := by
    simp [FamilyEvent.time]
  have hr : (90000 : Int) - 90000 ≤ 60 := by decide
  obtain ⟨hrecent, -, -⟩ := expiry_window hb hclock hnow (by simp) hr
  obtain ⟨item, hitem, -⟩ := hrecent .empty 50000 [] (by simp) (by decide)
  rw [hitem]
  rfl

end MetricFamily

end MqttExporter
