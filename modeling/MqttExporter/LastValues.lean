import MqttExporter.GaugeRun
import MqttExporter.Replies

/-!
# The values in a response

A `Gauge` takes the number of a payload, a `MatchGauge` the number of matches in
it. To a reader of the responses both are registers that messages write.

* `gauge_current`: what a run leaves in a gauge of either class;
* `Taken`: the samples that a `MatchGauge` could not take ended the program;
* `reply_values`: every line of a gauge shows the last value of some moment between
  the request and its answer.
-/

namespace MqttExporter

open Transition

/-- The value that a gauge takes from a payload. -/
def OpenMetric.reading (lib : Libraries) (config : OpenMetric) (payload : Str) : Option Double :=
  match config.type with
  | .gauge => Double.fromChars payload
  | .matchGauge =>
    (lib.regexCount config.matchRegex payload).toOption.map fun n => Double.ofInt n
  | .counter | .histogram | .summary => none

def OpenMetric.IsGauge (config : OpenMetric) : Prop :=
  config.type = .gauge ∨ config.type = .matchGauge

/-- The gauge of the type with a value. -/
def OpenMetric.gaugeWith (config : OpenMetric) (labels : LabelSet) (value : Option Double) :
    IMetric :=
  if config.type = .matchGauge then .matchGauge ⟨labels, value, config.matchRegex⟩
  else .gauge ⟨labels, value⟩

theorem points_gaugeWith (lib : Libraries) (config : OpenMetric) (labels : LabelSet)
    (value : Option Double) (fullname : Str) :
    (config.gaugeWith labels value).points lib fullname =
      [⟨fullname, labels, value.getD lib.uninitialised⟩] := by
  unfold OpenMetric.gaugeWith
  split <;> rfl

namespace MetricFamily

variable {lib : Libraries}

/-! ## Runs of a gauge -/

/-- A gauge of either class writes what it takes, and otherwise stays as it is. -/
theorem afterSample_gauge {config : OpenMetric} (hc : config.IsGauge) (labels : LabelSet)
    (payload : Str) (value : Option Double) :
    afterSample lib config labels payload (some (some (config.gaugeWith labels value))) =
      some (some (config.gaugeWith labels ((config.reading lib payload).or value))) := by
  rcases hc with htype | htype
  · simp only [OpenMetric.gaugeWith, OpenMetric.reading, htype]
    rfl
  · simp only [OpenMetric.gaugeWith, OpenMetric.reading, htype, if_true]
    cases hcount : lib.regexCount config.matchRegex payload with
    | error e =>
      simp only [afterSample, Option.join_some, IMetric.newSample, MatchGauge.newSample, hcount]
      rfl
    | ok n =>
      simp only [afterSample, Option.join_some, IMetric.newSample, MatchGauge.newSample, hcount]
      rfl

theorem create_gauge (lib : Libraries) {config : OpenMetric} (hc : config.IsGauge)
    (labels : LabelSet) :
    IMetric.create lib config labels = .ok (config.gaugeWith labels none) ∨
      ∃ e, IMetric.create lib config labels = .error e := by
  rcases hc with htype | htype
  · left
    simp [IMetric.create, OpenMetric.gaugeWith, htype, Gauge.create]
  · cases hcreate : IMetric.create lib config labels with
    | error e => exact Or.inr ⟨e, rfl⟩
    | ok m =>
      rw [IMetric.create, htype] at hcreate
      obtain rfl := IMetric.matchGauge_create_ok hcreate
      left
      rw [OpenMetric.gaugeWith, if_pos htype]

/-- The value is the last that was taken. -/
theorem foldl_created {config : OpenMetric} (hc : config.IsGauge) {labels : LabelSet}
    (hcreate : IMetric.create lib config labels = .ok (config.gaugeWith labels none))
    (payloads : List Str) :
    payloads.foldl (fun cell payload => afterSample lib config labels payload cell) none =
      if payloads = [] then none
      else some (some
        (config.gaugeWith labels (payloads.filterMap (config.reading lib)).getLast?)) := by
  have hfirst : ∀ payload, afterSample lib config labels payload none =
      afterSample lib config labels payload (some (some (config.gaugeWith labels none))) := by
    intro payload
    unfold afterSample
    rw [Option.join_none, hcreate]
    rfl
  induction payloads using List.reverseRecOn with
  | nil => rfl
  | append_singleton payloads payload ih =>
    have hlast : ((payloads ++ [payload]).filterMap (config.reading lib)).getLast? =
        (config.reading lib payload).or (payloads.filterMap (config.reading lib)).getLast? := by
      rw [List.filterMap_append, List.getLast?_append]
      cases hp : config.reading lib payload <;> simp [hp]
    rw [List.foldl_append, ih, List.foldl_cons, List.foldl_nil, hlast]
    by_cases hnil : payloads = []
    · subst hnil
      simp [hfirst, afterSample_gauge hc]
    · simp [hnil, afterSample_gauge hc]

/-- A pattern that is not valid is not valid later either. -/
theorem foldl_failed {config : OpenMetric} {labels : LabelSet} {e : Error}
    (hcreate : IMetric.create lib config labels = .error e) (payloads : List Str) :
    (payloads.foldl (fun cell payload => afterSample lib config labels payload cell)
      none).join = none := by
  induction payloads using List.reverseRecOn with
  | nil => rfl
  | append_singleton payloads payload ih =>
    rw [List.foldl_append, List.foldl_cons, List.foldl_nil, afterSample, ih, hcreate]
    rfl

/-- What a run leaves in a gauge: the last value that it has taken since the last
eviction. -/
theorem gauge_current {config : Configuration} (hc : config.openMetric.IsGauge)
    {labels : LabelSet} {events : List FamilyEvent} {m : IMetric}
    (hm : (run lib ⟨config, .empty⟩ events).current labels = some m) :
    ∃ since, SinceEviction lib config labels since events ∧ received labels since ≠ [] ∧
      m = config.openMetric.gaugeWith labels
        ((received labels since).filterMap (config.openMetric.reading lib)).getLast? := by
  obtain ⟨since, hsince, hheld⟩ := held_since lib config labels events
  refine ⟨since, hsince, ?_⟩
  rw [← held_join, hheld] at hm
  rcases create_gauge lib hc labels with hcreate | ⟨e, hcreate⟩
  · rw [foldl_created hc hcreate] at hm
    split at hm
    · cases hm
    · rename_i hne
      cases hm
      exact ⟨hne, rfl⟩
  · rw [foldl_failed hcreate] at hm
    cases hm

end MetricFamily

/-- A sample that a `MatchGauge` does not raise on has a number of matches. -/
theorem Concurrent.taken_sample {lib : Libraries} {config : Configuration} {s s' : Concurrent}
    (hs : Sound lib config s) (hc : config.openMetric.type = .matchGauge) {now : Int}
    {payload : Str} {labels : LabelSet}
    (hstep : step lib s (.sample now payload labels) = some s') (hbusy : s'.call ≠ none) :
    (config.openMetric.reading lib payload).isSome := by
  cases step_effect hstep with
  | sample _ _ _ _ hidle hsample =>
    obtain ⟨s₁, hs₁, -, -, hhistory, ⟨hnone, -⟩ | ⟨pointer, ws, m, m', -, hsampling⟩⟩ :=
      newSample_spec hs hidle now payload labels
    all_goals
      rw [hs₁] at hsample
      cases hsample
    · exact absurd hnone hbusy
    · obtain ⟨t, payload', heq, htarget, hnew, -⟩ := hsampling.history
      rw [hhistory] at heq
      cases List.append_cancel_left heq
      obtain ⟨value, rfl⟩ : ∃ value, m = config.openMetric.gaugeWith labels value := by
        unfold MetricFamily.target at htarget
        split at htarget
        · rename_i x hcurrent
          cases htarget
          obtain ⟨since, -, -, rfl⟩ := MetricFamily.gauge_current (Or.inr hc) hcurrent
          exact ⟨_, rfl⟩
        · rw [familyAfter, MetricFamily.config_run] at htarget
          rcases MetricFamily.create_gauge lib (Or.inr hc) labels with hcreate | ⟨e, hcreate⟩
          · rw [hcreate] at htarget
            cases htarget
            exact ⟨none, rfl⟩
          · rw [hcreate] at htarget
            cases htarget
      rw [OpenMetric.gaugeWith, if_pos hc, IMetric.newSample, MatchGauge.newSample] at hnew
      rw [OpenMetric.reading, hc]
      cases hcount : lib.regexCount config.openMetric.matchRegex payload with
      | error e =>
        simp only [hcount] at hnew
        cases hnew
      | ok n => rfl

namespace Exporter

variable {lib : Libraries} {e e' : Exporter} {app : App}

/-! ## What a `MatchGauge` has taken -/

/-- Every sample of a `MatchGauge` was taken: one that raises ends the program. -/
def Taken (lib : Libraries) (app : App) (key : Str) (events : List FamilyEvent) : Prop :=
  ∀ config, app.configs.find? key = some config → config.openMetric.type = .matchGauge →
    ∀ labels, ∀ payload ∈ received labels events, (config.openMetric.reading lib payload).isSome

theorem taken_effect (hp : Parts lib app e) (h : Effect lib e e')
    (ht : ∀ key f, e.families.find? key = some f → Taken lib app key f.history) :
    ∀ key f, e'.families.find? key = some f → Taken lib app key f.history := by
  refine histories_effect h ht (fun key f f' payload labels hf hstep hbusy _ => ?_)
    fun key f hf _ => ?_
  · intro config hc htype q p hreceived
    rw [received_snoc, List.mem_append] at hreceived
    rcases hreceived with hold | hnew
    · exact ht key f hf config hc htype q p hold
    · have hconfig := hp.find hf
      rw [hc] at hconfig
      cases hconfig
      obtain ⟨actions, hrun⟩ := hp.run key f hf
      rw [FamilyEvent.payload?] at hnew
      split at hnew
      · cases List.mem_singleton.mp hnew
        exact Concurrent.taken_sample (Concurrent.sound_run hrun) htype hstep hbusy
      · cases hnew
  · intro config hc htype q p hreceived
    rw [received_snoc] at hreceived
    exact ht key f hf config hc htype q p (by simpa [FamilyEvent.payload?] using hreceived)

theorem Reachable.taken {metrics : List Configuration} (h : Reachable lib metrics app e) :
    ∀ key f, e.families.find? key = some f → Taken lib app key f.history := by
  obtain ⟨-, actions, hrun⟩ := h
  refine (run_invariant (I := fun e => Parts lib app e ∧
    ∀ key f, e.families.find? key = some f → Taken lib app key f.history) ?_
    ⟨parts_start lib app, fun key f hf => ?_⟩ hrun).2
  · rintro e a e' ⟨hp, ht⟩ hstep
    exact ⟨hp.effect (step_effect hstep), taken_effect hp (step_effect hstep) ht⟩
  · rw [start, OrderedMap.find?_mapValues] at hf
    obtain ⟨metric, -, rfl⟩ := Option.map_eq_some_iff.mp hf
    intro config _ _ labels payload hreceived
    cases hreceived

/-! ## The values -/

theorem received_since {labels : LabelSet} {config : Configuration}
    {since events : List FamilyEvent} {n : ℕ}
    (h : MetricFamily.SinceEviction lib config labels since (events.take n)) :
    received labels since ⊆ received labels events := by
  obtain ⟨before, heq, -⟩ := h
  refine (List.Sublist.filterMap _ ?_).subset
  exact ((List.suffix_append before since).sublist.trans (heq ▸ List.Sublist.refl _)).trans
    (List.take_sublist n events)

theorem received_sampled {labels : LabelSet} {events : List FamilyEvent} {payload : Str}
    (h : payload ∈ received labels events) : payload ∈ (samplesIn events).map Prod.fst := by
  obtain ⟨event, hevent, hpayload⟩ := List.mem_filterMap.mp h
  cases event with
  | sample t p q =>
    rw [FamilyEvent.payload?] at hpayload
    split at hpayload <;> cases hpayload
    have hsample : (payload, q) ∈ samplesIn events := List.mem_filterMap.mpr ⟨_, hevent, rfl⟩
    exact List.mem_map.mpr ⟨_, hsample, rfl⟩
  | routine now => cases hpayload

/-- When every payload has a value, the last value is that of the last payload. -/
theorem last_reading {reading : Str → Option Double} {payloads : List Str} (hne : payloads ≠ [])
    (h : ∀ payload ∈ payloads, (reading payload).isSome) :
    ∃ payload x, payloads.getLast? = some payload ∧ reading payload = some x ∧
      (payloads.filterMap reading).getLast? = some x := by
  obtain ⟨init, payload, rfl⟩ := List.eq_nil_or_concat payloads |>.resolve_left hne
  obtain ⟨x, hx⟩ := Option.isSome_iff_exists.mp (h payload (by simp))
  exact ⟨payload, x, by simp, hx, by simp [hx]⟩

/-- A line of a gauge shows the last value that its series had taken, since its last
eviction, at a moment between the request and the answer. For a `MatchGauge` that
is the number of matches in the last payload; a `Gauge` that has had no number yet
shows what the memory holds. -/
theorem reply_values (lib : Libraries) (metrics : List Configuration) (app : App) (e : Exporter)
    (h : Reachable lib metrics app e) (r : Reply) (hr : r ∈ e.replies) (body : Str)
    (hanswered : Answered r body) (key text : Str) (hblock : (key, text) ∈ r.blocks)
    (config : Configuration) (hc : app.configs.find? key = some config)
    (htype : config.openMetric.IsGauge) :
    body = response r ∧ ∃ f first p, Block lib e r key text config f first p ∧
      ∀ labels printed, (labels, printed) ∈ p.done → ∃ n since value,
        p.start ≤ n ∧ n ≤ f.history.length ∧
        MetricFamily.SinceEviction lib config labels since (f.history.take n) ∧
        received labels since ≠ [] ∧
        value = ((received labels since).filterMap (config.openMetric.reading lib)).getLast? ∧
        (config.openMetric.type = .matchGauge → ∃ payload x,
          (received labels since).getLast? = some payload ∧
          config.openMetric.reading lib payload = some x ∧ value = some x) ∧
        printed = [⟨MetricFamily.getFullname ⟨config, .empty⟩, labels,
          value.getD lib.uninitialised⟩] := by
  obtain ⟨hbody, -, hblocks⟩ := h.blocks_spec hr hanswered
  obtain ⟨config', f, first, p, hconfig, hb⟩ := hblocks key text hblock
  rw [hc] at hconfig
  cases hconfig
  refine ⟨hbody, f, first, p, hb, fun labels printed hdone => ?_⟩
  obtain ⟨n, m, hstart, hn, hm, rfl⟩ := one_printed hb.regular hdone fun n m hm => by
    obtain ⟨since, -, -, rfl⟩ := MetricFamily.gauge_current htype hm
    rw [points_gaugeWith, List.length_singleton]
  obtain ⟨since, hsince, hne, rfl⟩ := MetricFamily.gauge_current htype hm
  refine ⟨n, since, _, hstart, hn, hsince, hne, rfl, fun hmatch => ?_, points_gaugeWith ..⟩
  exact last_reading hne fun payload hpayload =>
    h.taken key f hb.family config hc hmatch labels payload (received_since hsince hpayload)

def matchEntry : Configuration :=
  ⟨"a".toList, ⟨"one".toList, .matchGauge, [], [], [], [], [], [], "x".toList⟩, [], 86400⟩

/-- A payload with two matches is sampled, and then requested: the line shows a two. -/
theorem reply_values_two : ∃ e r f first p text labels,
    Block simpleLibraries e r "a".toList text matchEntry f first p ∧
    (labels, [(⟨"one".toList, labels, Double.ofInt 2⟩ : IPoint)]) ∈ p.done := by
  let app := Loop.final (App.register [matchEntry] .initial)
  let actions : List Action :=
    [.deliver ⟨"a".toList, "xyx".toList⟩, .handle, .handle, .handle, .handle, .handle, .handle,
      .handle, .handle, .get, .serve 0, .serve 0, .serve 0, .serve 0, .serve 0, .serve 0, .serve 0,
      .serve 0]
  have hend : (run (step simpleLibraries) (start app) actions).map (fun e =>
      e.replies.map fun r => (r.written.isSome, r.alone, r.blocks.map Prod.fst)) =
        some [(true, true, ["a".toList])] := by
    decide +kernel
  have hpasses : (run (step simpleLibraries) (start app) actions).map (fun e =>
      e.families.entries.all fun x => x.2.passes.all fun p => !p.done.isEmpty) = some true := by
    decide +kernel
  have hpayloads : (run (step simpleLibraries) (start app) actions).map (fun e =>
      e.families.entries.all fun x => (samplesIn x.2.history).map Prod.fst = ["xyx".toList]) =
        some true := by
    decide +kernel
  obtain ⟨e, hrun, hreplies⟩ := Option.map_eq_some_iff.mp hend
  rw [hrun] at hpasses hpayloads
  obtain ⟨r, hr, hreply⟩ := List.map_eq_singleton_iff.mp hreplies
  simp only [Prod.mk.injEq, Option.isSome_iff_exists] at hreply
  obtain ⟨⟨body, hbody⟩, halone, hkeys⟩ := hreply
  obtain ⟨b, hb, hkey⟩ := List.map_eq_singleton_iff.mp hkeys
  have hblock : ("a".toList, b.2) ∈ r.blocks := by
    rw [hb, ← hkey]
    exact List.mem_singleton_self b
  obtain ⟨-, f, first, p, hspec, hvalues⟩ := reply_values simpleLibraries [matchEntry] app e
    ⟨rfl, actions, hrun⟩ r (hr ▸ List.mem_singleton_self r) body ⟨hbody, halone⟩ "a".toList b.2
    hblock matchEntry rfl (Or.inr rfl)
  have hentry := e.families.mem_entries_iff.mpr hspec.family
  have hprinted := List.all_eq_true.mp (List.all_eq_true.mp (Option.some.inj hpasses) _ hentry) p
    hspec.pass
  obtain ⟨⟨labels, printed⟩, hdone⟩ := List.exists_mem_of_ne_nil p.done (by simpa using hprinted)
  obtain ⟨n, since, value, -, -, hsince, -, -, hmatch, rfl⟩ := hvalues labels printed hdone
  obtain ⟨payload, x, hlast, hx, rfl⟩ := hmatch rfl
  obtain rfl : payload = "xyx".toList := by
    have hall := of_decide_eq_true (List.all_eq_true.mp (Option.some.inj hpayloads) _ hentry)
    have hmem := received_sampled (received_since hsince (List.mem_of_getLast? hlast))
    rw [hall] at hmem
    exact List.mem_singleton.mp hmem
  cases hx
  exact ⟨e, r, f, first, p, b.2, labels, hspec, hdone⟩

end Exporter

end MqttExporter
