import MqttExporter.Expiry
import MqttExporter.Reading

/-!
# Counters from the broker to the response

* `held_young`, `since_young`: while no pass came more than `maxAge` after a
  sample, every sampled label set is held and nothing is evicted;
* `Timed`: the times of the events are readings of the clock so far;
* `counter_delivered`: what is read of a counter lies between the samples before
  the request and those that the delivered messages call for.
-/

namespace MqttExporter

open Transition

namespace MetricFamily

/-- No pass came more than `maxAge` after a sample. -/
def Young (config : Configuration) (events : List FamilyEvent) : Prop :=
  ∀ t payload labels r, .sample t payload labels ∈ events → .routine r ∈ events →
    r - t ≤ config.maxAge

section

variable {lib : Libraries} {config : Configuration} {labels : LabelSet}
  {since events : List FamilyEvent}

theorem Young.subset {es : List FamilyEvent} (h : Young config events) (hes : es ⊆ events) :
    Young config es :=
  fun t payload labels r ht hr => h t payload labels r (hes ht) (hes hr)

/-- A held item was sampled when its time stamp says. -/
theorem sampled_held (hc : config.openMetric.type = .counter) {item : MetricItem}
    (hitem : (run lib ⟨config, .empty⟩ events).metrics.find? labels = some item) :
    ∃ payload, .sample item.timestamp payload labels ∈ events := by
  have htracks : Tracks lib config labels events := tracks_run hc events
  obtain ⟨rest, ⟨before, payload, rfl, -⟩, -⟩ := htracks.present item hitem
  exact ⟨payload, by simp⟩

theorem not_evicts_young (hc : config.openMetric.type = .counter) {e : FamilyEvent}
    (h : Young config (events ++ [e])) :
    ¬ Evicts (run lib ⟨config, .empty⟩ events) labels e := by
  cases e with
  | sample t payload q => exact id
  | routine now =>
    rintro ⟨hsome, hnone⟩
    obtain ⟨item, hitem⟩ := Option.isSome_iff_exists.mp hsome
    obtain ⟨payload, hsample⟩ := sampled_held hc hitem
    have hage : now - item.timestamp ≤ config.maxAge :=
      h _ payload labels now (List.mem_append_left _ hsample) (by simp)
    rw [find?_routine, hitem, config_run] at hnone
    simp only [Option.filter_some, decide_eq_true hage, if_true] at hnone
    cases hnone

theorem since_young (hc : config.openMetric.type = .counter) (h : Young config events)
    (hsince : SinceEviction lib config labels since events) : since = events := by
  obtain ⟨before, rfl, rfl | ⟨earlier, e, rfl, hevicts⟩, -⟩ := hsince
  · rfl
  · exact absurd hevicts (not_evicts_young hc (h.subset (List.subset_append_left _ _)))

theorem held_young (hc : config.openMetric.type = .counter) (h : Young config events) :
    (∃ item, (run lib ⟨config, .empty⟩ events).metrics.find? labels = some item) ↔
      0 < samplesOf labels events := by
  rw [samplesOf, List.countP_pos_iff]
  constructor
  · rintro ⟨item, hitem⟩
    obtain ⟨payload, hsample⟩ := sampled_held hc hitem
    exact ⟨_, hsample, by simp [FamilyEvent.sampled]⟩
  · rintro ⟨e, he, hsampled⟩
    obtain ⟨t, rest, hlast⟩ := lastSample_exists (of_decide_eq_true hsampled) he
    have hfresh : Fresh config labels t events := by
      refine ⟨rest, hlast, fun r hr => ?_⟩
      obtain ⟨before, payload, rfl, -⟩ := hlast
      have hage := h t payload labels r (by simp) (by simp [hr])
      omega
    have htracks : Tracks lib config labels events := tracks_run hc events
    rw [← Option.isSome_iff_exists, Option.isSome_iff_ne_none]
    exact fun hnone => htracks.absent hnone t hfresh

end

end MetricFamily

namespace Exporter

open MetricFamily (samplesOf Young)

variable {lib : Libraries} {e e' : Exporter} {app : App}

/-! ## The clock -/

/-- The events of the families are at times that the clock has shown. -/
def Timed (lib : Libraries) (e : Exporter) : Prop :=
  ∀ key f, e.families.find? key = some f → ∀ event ∈ f.history,
    ∃ i < e.ticks, event.time = lib.clock i

theorem Timed.effect (ht : Timed lib e) (h : Effect lib e e') : Timed lib e' := by
  have hold : ∀ key f, e.families.find? key = some f → ∀ event ∈ f.history,
      ∃ i < e'.ticks, event.time = lib.clock i := by
    intro key f hf event hevent
    obtain ⟨i, hi, htime⟩ := ht key f hf event hevent
    exact ⟨i, hi.trans_le (ticks_effect h), htime⟩
  refine histories_effect h (P := fun _ es => ∀ event ∈ es, ∃ i < e'.ticks,
    event.time = lib.clock i) hold (fun key f f' payload labels hf _ _ hticks => ?_)
    fun key f hf hticks => ?_
  all_goals
    refine List.forall_mem_append.mpr ⟨hold key f hf, fun event hevent => ?_⟩
    cases List.mem_singleton.mp hevent
    exact ⟨e.ticks, by omega, rfl⟩

theorem Reachable.timed {metrics : List Configuration} (h : Reachable lib metrics app e) :
    Timed lib e := by
  obtain ⟨-, actions, hrun⟩ := h
  refine run_invariant (fun _ _ _ ht hstep => ht.effect (step_effect hstep)) ?_ hrun
  intro key f hf event hevent
  rw [start, OrderedMap.find?_mapValues] at hf
  obtain ⟨metric, -, rfl⟩ := Option.map_eq_some_iff.mp hf
  cases hevent

/-- While the clock has gone no further than `maxAge`, no event comes late. -/
theorem Timed.young (ht : Timed lib e) {key : Str} {f : Concurrent}
    (hf : e.families.find? key = some f) {config : Configuration}
    (hclock : ∀ i j, i < e.ticks → j < e.ticks → lib.clock j - lib.clock i ≤ config.maxAge) :
    Young config f.history := by
  intro t payload labels r hsample hpass
  obtain ⟨i, hi, rfl⟩ := ht key f hf _ hsample
  obtain ⟨j, hj, rfl⟩ := ht key f hf _ hpass
  exact hclock i j hi hj

/-! ## The counts -/

/-- How many of the samples are of the label set. -/
def samplesWith (labels : LabelSet) (samples : List (Str × LabelSet)) : ℕ :=
  samples.countP fun s => s.2 = labels

theorem samplesWith_samplesIn (labels : LabelSet) (events : List FamilyEvent) :
    samplesWith labels (samplesIn events) = samplesOf labels events := by
  induction events with
  | nil => rfl
  | cons event events ih =>
    cases event with
    | sample t payload q =>
      simp only [samplesWith, samplesIn, samplesOf, List.filterMap_cons, List.countP_cons,
        FamilyEvent.sampled, Option.some.injEq] at ih ⊢
      rw [ih]
    | routine r =>
      simp only [samplesWith, samplesIn, samplesOf, List.filterMap_cons, List.countP_cons,
        FamilyEvent.sampled] at ih ⊢
      simp [ih]

theorem samplesOf_take_mono (labels : LabelSet) (events : List FamilyEvent) {m n : ℕ}
    (h : m ≤ n) : samplesOf labels (events.take m) ≤ samplesOf labels (events.take n) :=
  (List.take_sublist_take_left h).countP_le

/-- There is one point for each series, and its count lies between how often two
lists have the label set. -/
structure Tallied (config : Configuration) (before called : List (Str × LabelSet))
    (points : List IPoint) : Prop where
  nodup : (points.map IPoint.labelSet).Nodup
  complete : ∀ labels, 0 < samplesWith labels before → labels ∈ points.map IPoint.labelSet
  counts : ∀ p ∈ points, ∃ n, 0 < n ∧ samplesWith p.labelSet before ≤ n ∧
    n ≤ samplesWith p.labelSet called ∧
    p = ⟨MetricFamily.getFullname ⟨config, .empty⟩ ++ "_total".toList, p.labelSet,
      Double.ofInt (min n (2 ^ 53) : ℕ)⟩

theorem Tallied.append {config : Configuration} {before called : List (Str × LabelSet)}
    {points : List IPoint} (h : Tallied config before called points)
    (more : List (Str × LabelSet)) : Tallied config before (called ++ more) points := by
  refine ⟨h.nodup, h.complete, fun p hp => ?_⟩
  obtain ⟨n, hpos, hlow, hhigh, heq⟩ := h.counts p hp
  refine ⟨n, hpos, hlow, hhigh.trans ?_, heq⟩
  rw [samplesWith, samplesWith, List.countP_append]
  omega

theorem labelSets_done {done : List (LabelSet × List IPoint)}
    (h : ∀ d ∈ done, ∃ point : IPoint, d.2 = [point] ∧ point.labelSet = d.1) :
    (done.flatMap Prod.snd).map IPoint.labelSet = done.map Prod.fst := by
  induction done with
  | nil => rfl
  | cons d done ih =>
    obtain ⟨point, hprinted, hlabels⟩ := h d List.mem_cons_self
    have hothers := ih fun x hx => h x (List.mem_cons_of_mem d hx)
    rw [List.flatMap_cons, hprinted, List.map_append, hothers, List.map_cons, List.map_cons,
      hlabels]
    rfl

/-- A pass over a counter from which nothing was evicted. -/
theorem tallied_pass {config : Configuration} (hc : config.openMetric.type = .counter)
    {events : List FamilyEvent} {p : Pass} (hregular : Concurrent.Regular lib config events p)
    (hfinished : Concurrent.Finished p) (hyoung : Young config events) {first : ℕ}
    (hbegun : first ≤ p.start) :
    Tallied config (samplesIn (events.take first)) (samplesIn events) (passPoints p) := by
  have hkeys : p.done.map Prod.fst =
      (MetricFamily.run lib ⟨config, .empty⟩ (events.take p.start)).metrics.keys := by
    have hall := hregular.keys
    rw [Concurrent.passKeys, hfinished.1, hfinished.2] at hall
    simpa [Concurrent.familyAt, Concurrent.familyAfter] using hall
  have hlabels : (passPoints p).map IPoint.labelSet = p.done.map Prod.fst := by
    apply labelSets_done
    rintro ⟨labels, printed⟩ hdone
    obtain ⟨n, since, -, -, -, rfl⟩ := counter_printed hc hregular hdone
    exact ⟨_, rfl, rfl⟩
  have hheld : ∀ labels, labels ∈ p.done.map Prod.fst ↔
      0 < samplesOf labels (events.take p.start) := by
    intro labels
    rw [hkeys, OrderedMap.mem_keys_iff]
    exact MetricFamily.held_young hc (hyoung.subset (List.take_subset _ _))
  refine ⟨?_, fun labels hlow => ?_, fun point hpoint => ?_⟩
  · rw [hlabels, hkeys]
    exact OrderedMap.keys_nodup _
  · rw [hlabels, hheld]
    rw [samplesWith_samplesIn] at hlow
    exact hlow.trans_le (samplesOf_take_mono labels events hbegun)
  · obtain ⟨⟨labels, printed⟩, hdone, hmem⟩ := List.mem_flatMap.mp hpoint
    obtain ⟨n, since, hstart, hn, hsince, rfl⟩ := counter_printed hc hregular hdone
    cases List.mem_singleton.mp hmem
    cases MetricFamily.since_young hc (hyoung.subset (List.take_subset _ _)) hsince
    have hpos := (hheld labels).mp (List.mem_map_of_mem hdone)
    have hgrown := samplesOf_take_mono labels events hstart
    refine ⟨_, hpos.trans_le hgrown, ?_, ?_, rfl⟩
    · rw [samplesWith_samplesIn]
      exact samplesOf_take_mono labels events (hbegun.trans hstart)
    · rw [samplesWith_samplesIn]
      exact (List.take_sublist _ _).countP_le

/-- What `deviceEntry` takes from a message on the topic `a`. -/
def deviceLabels : LabelSet := .ofList [("device".toList, "a".toList)]

/-- The message of `oneReply` calls for one sample. -/
theorem OneReply.called {app : App} {e : Exporter} {r : Reply} {body : Str}
    (h : OneReply app e r body) :
    (e.delivered.flatMap fun m => samplesFor simpleLibraries app m "#".toList
      (App.plan simpleLibraries m app)) = [([], deviceLabels)] := by
  have happ : Loop.final (App.register [deviceEntry] .initial) = app := by
    rw [h.reachable.1]
    rfl
  rw [h.delivered, List.flatMap_singleton, ← happ]
  decide +kernel

/-- It was made before the request came. -/
theorem OneReply.before {app : App} {e : Exporter} {r : Reply} {body : Str}
    (h : OneReply app e r body) {f : Concurrent} (hf : e.families.find? "#".toList = some f)
    {first : ℕ} (hfirst : r.since.find? "#".toList = some first) :
    samplesIn (f.history.take first) = [([], deviceLabels)] := by
  have hlen : ("#".toList, f.history.length) ∈ [("#".toList, 1)] := by
    rw [← h.lengths]
    exact List.mem_map_of_mem (e.families.mem_entries_iff.mpr hf)
  have hmem := r.since.mem_entries_iff.mpr hfirst
  rw [h.since] at hmem
  have hhistory : f.history.length = first := by
    rw [(Prod.mk.inj (List.mem_singleton.mp hlen)).2,
      (Prod.mk.inj (List.mem_singleton.mp hmem)).2]
  have hsamples := h.reachable.ledger.samples "#".toList f hf
  rw [pending, h.idle, List.append_nil, h.called] at hsamples
  rw [← hhistory, List.take_length, hsamples]

end Exporter

end MqttExporter
