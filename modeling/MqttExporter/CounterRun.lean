import MqttExporter.Base.History
import MqttExporter.FamilyRun

/-!
# Runs of a counter family

What a whole run leaves under one label set, read off the history of that label
set alone: it is there as long as no pass came too long after its last sample,
and it counts the samples since the last pass that removed it.
-/

namespace MqttExporter

open Loop

namespace MetricFamily

/-! ## The history of a label set -/

/-- The last sample of the label set was at `t`, and `rest` came after it. -/
def LastSample (labels : LabelSet) (t : Int) (rest events : List FamilyEvent) : Prop :=
  ∃ before payload, events = before ++ .sample t payload labels :: rest ∧
    ∀ e ∈ rest, e.sampled ≠ some labels

/-- The pass removes what is under the label set. -/
def Evicts (f : MetricFamily) (labels : LabelSet) : FamilyEvent → Prop
  | .sample _ _ _ => False
  | .routine now => (f.metrics.find? labels).isSome ∧ (f.routine now).metrics.find? labels = none

/-- What came after the last pass that removed the label set; all of the run
when there was none. -/
def SinceEviction (lib : Libraries) (config : Configuration) (labels : LabelSet)
    (since events : List FamilyEvent) : Prop :=
  ∃ before, events = before ++ since ∧
    (before = [] ∨ ∃ earlier e, before = earlier ++ [e] ∧
      Evicts (run lib ⟨config, .empty⟩ earlier) labels e) ∧
    ∀ a e b, since = a ++ e :: b → ¬ Evicts (run lib ⟨config, .empty⟩ (before ++ a)) labels e

def samplesOf (labels : LabelSet) (events : List FamilyEvent) : ℕ :=
  events.countP fun e => e.sampled = some labels

theorem lastSample_sample (labels : LabelSet) (t : Int) (payload : Str)
    (events : List FamilyEvent) :
    LastSample labels t [] (events ++ [.sample t payload labels]) :=
  ⟨events, payload, rfl, by simp⟩

theorem lastSample_snoc {labels : LabelSet} {t : Int} {rest events : List FamilyEvent}
    {e : FamilyEvent} (he : e.sampled ≠ some labels) (h : LastSample labels t rest events) :
    LastSample labels t (rest ++ [e]) (events ++ [e]) := by
  obtain ⟨before, payload, rfl, hrest⟩ := h
  refine ⟨before, payload, by simp, fun x hx => ?_⟩
  rcases List.mem_append.mp hx with hx | hx
  · exact hrest x hx
  · rwa [List.mem_singleton.mp hx]

/-- The last event is the last sample, or there is one before it. -/
theorem lastSample_inv {labels : LabelSet} {t : Int} {rest events : List FamilyEvent}
    {e : FamilyEvent} (h : LastSample labels t rest (events ++ [e])) :
    (∃ payload, e = .sample t payload labels ∧ rest = []) ∨
      ∃ rest', rest = rest' ++ [e] ∧ e.sampled ≠ some labels ∧
        LastSample labels t rest' events := by
  obtain ⟨before, payload, heq, hrest⟩ := h
  rcases Transition.split_snoc.mp heq with ⟨-, rfl, rfl⟩ | ⟨rest', rfl, rfl⟩
  · exact Or.inl ⟨payload, rfl, rfl⟩
  · exact Or.inr ⟨rest', rfl, hrest e (by simp), before, payload, rfl,
      fun y hy => hrest y (List.mem_append_left _ hy)⟩

theorem lastSample_unique {labels : LabelSet} {t t' : Int} {rest rest' events : List FamilyEvent}
    (h : LastSample labels t rest events) (h' : LastSample labels t' rest' events) :
    t = t' ∧ rest = rest' := by
  induction events using List.reverseRecOn generalizing rest rest' with
  | nil =>
    obtain ⟨before, payload, heq, -⟩ := h
    simp at heq
  | append_singleton events e ih =>
    rcases lastSample_inv h with ⟨payload, rfl, rfl⟩ | ⟨r, rfl, he, hr⟩
    · rcases lastSample_inv h' with ⟨payload', heq, rfl⟩ | ⟨r', -, he', -⟩
      · cases heq
        exact ⟨rfl, rfl⟩
      · exact absurd rfl he'
    · rcases lastSample_inv h' with ⟨payload', rfl, -⟩ | ⟨r', rfl, -, hr'⟩
      · exact absurd rfl he
      · obtain ⟨ht, hrest⟩ := ih hr hr'
        exact ⟨ht, by rw [hrest]⟩

section

variable {lib : Libraries} {config : Configuration} {labels : LabelSet}
  {since events : List FamilyEvent} {e : FamilyEvent}

theorem sinceEviction_nil (lib : Libraries) (config : Configuration) (labels : LabelSet) :
    SinceEviction lib config labels [] [] :=
  ⟨[], rfl, Or.inl rfl, fun a e b heq => by simp at heq⟩

theorem sinceEviction_snoc (he : ¬ Evicts (run lib ⟨config, .empty⟩ events) labels e)
    (h : SinceEviction lib config labels since events) :
    SinceEviction lib config labels (since ++ [e]) (events ++ [e]) := by
  obtain ⟨before, rfl, hstart, hnone⟩ := h
  refine ⟨before, by simp, hstart, fun a x b heq => ?_⟩
  rcases Transition.split_snoc.mp heq with ⟨rfl, rfl, -⟩ | ⟨b', rfl, -⟩
  · exact he
  · exact hnone a x b' rfl

theorem sinceEviction_evicted (he : Evicts (run lib ⟨config, .empty⟩ events) labels e) :
    SinceEviction lib config labels [] (events ++ [e]) :=
  ⟨events ++ [e], by simp, Or.inr ⟨events, e, rfl, he⟩, fun a x b heq => by simp at heq⟩

theorem samplesOf_snoc : samplesOf labels (since ++ [e]) =
    samplesOf labels since + if e.sampled = some labels then 1 else 0 := by
  simp [samplesOf, List.countP_append, List.countP_singleton]

end

/-! ## One event -/

def counterAt (labels : LabelSet) (n : ℕ) : IMetric :=
  .counter ⟨labels, Double.ofInt (min n (2 ^ 53) : ℕ)⟩

/-- The item under the label set holds the count `n`; without an item that is 0. -/
def Counts (f : MetricFamily) (labels : LabelSet) (n : ℕ) : Prop :=
  (f.metrics.find? labels = none ∧ n = 0) ∨
    ∃ t, f.metrics.find? labels = some ⟨some (counterAt labels n), t⟩

theorem target_counter (lib : Libraries) {f : MetricFamily} {labels : LabelSet} {n : ℕ}
    (hc : f.config.openMetric.type = .counter) (hf : f.Counts labels n) :
    f.target lib labels = .ok (counterAt labels n) := by
  unfold target current
  rcases hf with ⟨hnone, rfl⟩ | ⟨t, hsome⟩
  · rw [hnone]
    simp only [Option.bind_none, IMetric.create, hc]
    rfl
  · rw [hsome]
    rfl

theorem apply_sample (lib : Libraries) {f : MetricFamily} {labels : LabelSet} {n : ℕ}
    (hc : f.config.openMetric.type = .counter) (hf : f.Counts labels n) (t : Int) (payload : Str) :
    f.apply lib (.sample t payload labels) =
      { f with metrics := f.metrics.set labels ⟨some (counterAt labels (n + 1)), t⟩ } := by
  have hsample : (counterAt labels n).newSample lib payload = .ok (counterAt labels (n + 1)) := by
    simp only [counterAt, IMetric.newSample, Counter.newSample, Double.succ_count]
  rw [apply, newSample_eq, target_counter lib hc hf]
  simp only [hsample, final]

/-- An event that does not sample the label set writes nothing under it. -/
theorem find?_apply_of_ne (lib : Libraries) (f : MetricFamily) {labels q : LabelSet} (t : Int)
    (payload : Str) (hne : q ≠ labels) :
    (f.apply lib (.sample t payload q)).metrics.find? labels = f.metrics.find? labels := by
  obtain ⟨item, hset, -⟩ := final_newSample lib t payload q f
  rw [apply, hset, OrderedMap.find?_set_ne _ _ hne]

/-! ## The whole run -/

/-- No pass after the last sample came too long after it. -/
def Fresh (config : Configuration) (labels : LabelSet) (t : Int) (events : List FamilyEvent) :
    Prop :=
  ∃ rest, LastSample labels t rest events ∧
    ∀ r, FamilyEvent.routine r ∈ rest → ¬ config.maxAge < r - t

/-- What a run leaves under a label set. -/
structure Tracks (lib : Libraries) (config : Configuration) (labels : LabelSet)
    (events : List FamilyEvent) : Prop where
  absent : (run lib ⟨config, .empty⟩ events).metrics.find? labels = none →
    ∀ t, ¬ Fresh config labels t events
  present : ∀ item, (run lib ⟨config, .empty⟩ events).metrics.find? labels = some item →
    Fresh config labels item.timestamp events
  counted : ∃ since, SinceEviction lib config labels since events ∧
    (run lib ⟨config, .empty⟩ events).Counts labels (samplesOf labels since)

theorem fresh_sample (config : Configuration) (labels : LabelSet) (t : Int) (payload : Str)
    (events : List FamilyEvent) :
    Fresh config labels t (events ++ [.sample t payload labels]) :=
  ⟨[], lastSample_sample labels t payload events, fun _ h => by cases h⟩

theorem fresh_snoc {config : Configuration} {labels : LabelSet} {t : Int}
    {events : List FamilyEvent} {e : FamilyEvent} (he : e.sampled ≠ some labels) :
    Fresh config labels t (events ++ [e]) ↔
      Fresh config labels t events ∧ ∀ r, e = .routine r → ¬ config.maxAge < r - t := by
  constructor
  · rintro ⟨rest, hlast, hpasses⟩
    rcases lastSample_inv hlast with ⟨payload, rfl, -⟩ | ⟨rest', rfl, -, hlast'⟩
    · exact absurd rfl he
    · refine ⟨⟨rest', hlast', fun r hr => hpasses r (List.mem_append_left _ hr)⟩, fun r hr => ?_⟩
      exact hpasses r (hr ▸ List.mem_append_right _ (List.mem_singleton_self _))
  · rintro ⟨⟨rest, hlast, hpasses⟩, hpass⟩
    refine ⟨rest ++ [e], lastSample_snoc he hlast, fun r hr => ?_⟩
    rcases List.mem_append.mp hr with hr | hr
    · exact hpasses r hr
    · exact hpass r (List.mem_singleton.mp hr).symm

theorem fresh_unique {config : Configuration} {labels : LabelSet} {t t' : Int}
    {events : List FamilyEvent} (h : Fresh config labels t events)
    (h' : Fresh config labels t' events) : t = t' := by
  obtain ⟨rest, hlast, -⟩ := h
  obtain ⟨rest', hlast', -⟩ := h'
  exact (lastSample_unique hlast hlast').1

section

variable {lib : Libraries} {config : Configuration} {labels : LabelSet}
  {events : List FamilyEvent}

theorem tracks_sample (hc : config.openMetric.type = .counter)
    (h : Tracks lib config labels events) (t : Int) (payload : Str) :
    Tracks lib config labels (events ++ [.sample t payload labels]) := by
  obtain ⟨since, hsince, hcount⟩ := h.counted
  have hconfig : (run lib ⟨config, .empty⟩ events).config.openMetric.type = .counter := by
    rw [config_run]
    exact hc
  have happly := apply_sample lib hconfig hcount t payload
  have hfind : (run lib ⟨config, .empty⟩ (events ++ [.sample t payload labels])).metrics.find?
      labels = some ⟨some (counterAt labels (samplesOf labels since + 1)), t⟩ := by
    rw [run_snoc, happly, OrderedMap.find?_set_self]
  refine ⟨fun hnone => ?_, fun item hitem => ?_, ?_⟩
  · rw [hfind] at hnone
    cases hnone
  · rw [hfind] at hitem
    cases hitem
    exact fresh_sample config labels t payload events
  · refine ⟨since ++ [.sample t payload labels], sinceEviction_snoc id hsince, Or.inr ⟨t, ?_⟩⟩
    rw [hfind, samplesOf_snoc]
    simp [FamilyEvent.sampled]

/-- An event that leaves the item as it was, and came soon enough. -/
theorem tracks_kept {e : FamilyEvent} (he : e.sampled ≠ some labels)
    (hfind : (run lib ⟨config, .empty⟩ (events ++ [e])).metrics.find? labels =
      (run lib ⟨config, .empty⟩ events).metrics.find? labels)
    (hevict : ¬ Evicts (run lib ⟨config, .empty⟩ events) labels e)
    (hpass : ∀ item, (run lib ⟨config, .empty⟩ events).metrics.find? labels = some item →
      ∀ r, e = .routine r → ¬ config.maxAge < r - item.timestamp)
    (h : Tracks lib config labels events) : Tracks lib config labels (events ++ [e]) := by
  refine ⟨fun hnone t ht => ?_, fun item hitem => ?_, ?_⟩
  · exact h.absent (hfind ▸ hnone) t ((fresh_snoc he).mp ht).1
  · rw [hfind] at hitem
    exact (fresh_snoc he).mpr ⟨h.present item hitem, hpass item hitem⟩
  · obtain ⟨since, hsince, hcount⟩ := h.counted
    refine ⟨since ++ [e], sinceEviction_snoc hevict hsince, ?_⟩
    rw [samplesOf_snoc, if_neg he]
    unfold Counts
    rw [hfind]
    exact hcount

theorem tracks_evicted {now : Int} {item : MetricItem}
    (hitem : (run lib ⟨config, .empty⟩ events).metrics.find? labels = some item)
    (hlate : config.maxAge < now - item.timestamp) (h : Tracks lib config labels events) :
    Tracks lib config labels (events ++ [.routine now]) := by
  have hfind : ((run lib ⟨config, .empty⟩ events).routine now).metrics.find? labels = none := by
    rw [find?_routine, hitem, config_run]
    simp
    omega
  have hrun :
      (run lib ⟨config, .empty⟩ (events ++ [.routine now])).metrics.find? labels = none := by
    rw [run_snoc]
    exact hfind
  refine ⟨fun _ t ht => ?_, fun item' hitem' => ?_, [], ?_, Or.inl ⟨hrun, rfl⟩⟩
  · obtain ⟨hold, hpass⟩ := (fresh_snoc (by simp [FamilyEvent.sampled])).mp ht
    rw [fresh_unique hold (h.present item hitem)] at hpass
    exact hpass now rfl hlate
  · rw [hrun] at hitem'
    cases hitem'
  · exact sinceEviction_evicted ⟨by rw [hitem]; rfl, hfind⟩

/-- A pass removes the item or leaves it. -/
theorem tracks_routine (h : Tracks lib config labels events) (now : Int) :
    Tracks lib config labels (events ++ [.routine now]) := by
  cases hfind : (run lib ⟨config, .empty⟩ events).metrics.find? labels with
  | none =>
    refine tracks_kept (by simp [FamilyEvent.sampled]) ?_ ?_ (fun item hitem => ?_) h
    · rw [run_snoc, apply, find?_routine, hfind]
      rfl
    · rintro ⟨hsome, -⟩
      rw [hfind] at hsome
      cases hsome
    · rw [hfind] at hitem
      cases hitem
  | some item =>
    by_cases hlate : config.maxAge < now - item.timestamp
    · exact tracks_evicted hfind hlate h
    · have hkeep : ((run lib ⟨config, .empty⟩ events).routine now).metrics.find? labels =
          some item := by
        rw [find?_routine, hfind, config_run]
        simp
        omega
      refine tracks_kept (by simp [FamilyEvent.sampled]) ?_ ?_ (fun item' hitem' r hr => ?_) h
      · rw [run_snoc, apply, hkeep, hfind]
      · rintro ⟨-, hnone⟩
        rw [hkeep] at hnone
        cases hnone
      · rw [hfind] at hitem'
        cases hitem'
        cases hr
        exact hlate

theorem tracks_run (hc : config.openMetric.type = .counter) (events : List FamilyEvent) :
    Tracks lib config labels events := by
  induction events using List.reverseRecOn with
  | nil =>
    refine ⟨fun _ t ht => ?_, fun item hitem => (by cases hitem),
      ⟨[], sinceEviction_nil lib config labels, Or.inl ⟨rfl, rfl⟩⟩⟩
    obtain ⟨rest, ⟨before, payload, heq, -⟩, -⟩ := ht
    simp at heq
  | append_singleton events e ih =>
    cases e with
    | sample t payload q =>
      by_cases hq : q = labels
      · subst hq
        exact tracks_sample hc ih t payload
      · refine tracks_kept (by simpa [FamilyEvent.sampled] using hq) ?_ id (fun _ _ r hr => ?_) ih
        · rw [run_snoc, find?_apply_of_ne lib _ t payload hq]
        · cases hr
    | routine now => exact tracks_routine ih now

end

/-- After any run a label set has an item exactly if no pass came too long after
its last sample, and then the item counts its samples since it last was evicted. -/
theorem counter_run (lib : Libraries) {config : Configuration} (labels : LabelSet)
    (events : List FamilyEvent) (hc : config.openMetric.type = .counter) :
    (((run lib ⟨config, .empty⟩ events).metrics.find? labels).isSome ↔
      ∃ t rest, LastSample labels t rest events ∧
        ∀ r, FamilyEvent.routine r ∈ rest → ¬ config.maxAge < r - t) ∧
    ∀ item, (run lib ⟨config, .empty⟩ events).metrics.find? labels = some item →
      ∃ since, SinceEviction lib config labels since events ∧
        item.metric = some (.counter
          ⟨labels, Double.ofInt (min (samplesOf labels since) (2 ^ 53) : ℕ)⟩) := by
  have htracks : Tracks lib config labels events := tracks_run hc events
  refine ⟨⟨fun hsome => ?_, fun ⟨t, hfresh⟩ => ?_⟩, fun item hitem => ?_⟩
  · obtain ⟨item, hitem⟩ := Option.isSome_iff_exists.mp hsome
    exact ⟨item.timestamp, htracks.present item hitem⟩
  · by_contra hnone
    exact htracks.absent (by simpa using hnone) t hfresh
  · obtain ⟨since, hsince, ⟨hnone, -⟩ | ⟨t, hcount⟩⟩ := htracks.counted
    · rw [hnone] at hitem
      cases hitem
    · rw [hcount] at hitem
      cases hitem
      exact ⟨since, hsince, rfl⟩

theorem counter_run_again : ((run simpleLibraries ⟨counterEntry "t" "c", .empty⟩
    [.sample 0 [] .empty, .routine 90000, .sample 90001 [] .empty, .routine 5]).metrics.find?
      .empty).isSome := by
  have hlast : LastSample .empty 90001 [.routine 5]
      [.sample 0 [] .empty, .routine 90000, .sample 90001 [] .empty, .routine 5] :=
    ⟨[.sample 0 [] .empty, .routine 90000], [], rfl, by simp [FamilyEvent.sampled]⟩
  refine (counter_run simpleLibraries .empty _ rfl).1.mpr ⟨90001, _, hlast, fun r hr => ?_⟩
  cases List.mem_singleton.mp hr
  decide

end MetricFamily

end MqttExporter
