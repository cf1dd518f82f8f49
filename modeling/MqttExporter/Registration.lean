import MqttExporter.Log

/-!
# Registered families over whole runs

The constructor's loop subscribes, connects and inserts entry by entry; messages
and routine passes come after it.

* `register_running`, `running_step`: what registration establishes and every
  later step keeps;
* `Reachable.invariant`: what is kept from the first entry on holds throughout;
* `Reachable.registered`: what families begin with and keep, all of them have;
* `Reachable.logged`: the log, in which samples are counted, is what the families
  went through;
* `exactly_once_iff`: when a message is sampled once by every family it is for;
* `none_lost_iff`: when every configured entry has its family.
-/

namespace MqttExporter

namespace App

open Loop

/-! ## One entry -/

/-- An entry after its callback was connected. -/
def connected (app : App) (m : Configuration) : App :=
  connect { app with client := (app.client.subscribe m.topic).2 } (app.client.subscribe m.topic).1
    m.openMetric.name

theorem registerEntry_eq (m : Configuration) (app : App) :
    registerEntry m app =
      match MetricFamily.create m with
      | .error e => .error e (app.connected m)
      | .ok metric => .ok () ((app.connected m).insert m.topic metric) := by
  simp only [registerEntry, bind_apply, get_apply, set_apply]
  cases MetricFamily.create m with
  | error e => rfl
  | ok metric => rfl

/-! ## What holds of every registered family -/

/-- Families begin with `P`; finished samples and passes keep it. -/
structure Kept (lib : Libraries) (P : MetricFamily → Prop) : Prop where
  create : ∀ config f, MetricFamily.create config = .ok f → P f
  newSample : ∀ now payload labels f f', P f →
    MetricFamily.newSample lib now payload labels f = .ok () f' → P f'
  routine : ∀ now f, P f → P (f.routine now)

/-- Every registered family has `P`. -/
def Registered (P : MetricFamily → Prop) (app : App) : Prop :=
  ∀ key metric, app.metrics.find? key = some metric → P metric

section
variable {lib : Libraries} {P : MetricFamily → Prop} {app app' : App}

theorem Registered.set {key : Str} {metric : MetricFamily} (hr : Registered P app) (hm : P metric)
    (hset : app'.metrics = app.metrics.set key metric) : Registered P app' := by
  intro q f hq
  rw [hset] at hq
  exact OrderedMap.forall_set hm hr q f hq

theorem registerEntry_registered {m : Configuration} (hk : Kept lib P) (hr : Registered P app)
    (h : registerEntry m app = .ok () app') : Registered P app' := by
  rw [registerEntry_eq] at h
  cases hm : MetricFamily.create m with
  | error e =>
    rw [hm] at h
    cases h
  | ok metric =>
    rw [hm] at h
    cases h
    intro q f hq
    exact OrderedMap.forall_emplace (hk.create m metric hm) hr q f hq

theorem perform_registered {m : Message} {x : Handling} (hk : Kept lib P) (hr : Registered P app)
    (h : perform lib m x app = .ok () app') : Registered P app' := by
  cases x with
  | check filter =>
    obtain ⟨-, rfl⟩ := raise_eq_ok.mp h
    exact hr
  | sample key =>
    obtain ⟨-, rfl⟩ | ⟨metric, p, labels, metric', hm, -, hn, rfl⟩ := sampleFamily_ok h
    · exact hr
    · exact hr.set (hk.newSample _ _ _ _ _ (hr key metric hm) hn) rfl

theorem routineFamily_registered (hk : Kept lib P) (hr : Registered P app) (key : Str) :
    Registered P (app.routineFamily lib key) := by
  unfold routineFamily
  split
  · exact hr
  · rename_i metric hm
    exact hr.set (hk.routine _ _ (hr key metric hm)) rfl

theorem routine_registered (hk : Kept lib P) (hr : Registered P app) :
    Registered P (app.routine lib) := by
  unfold routine
  generalize app.metrics.keys = keys
  induction keys generalizing app with
  | nil => exact hr
  | cons key keys ih => exact ih (routineFamily_registered hk hr key)

end

/-- No metric is null or under foreign labels, and none is of another type. -/
theorem kept_consistent (lib : Libraries) :
    Kept lib fun f => f.Consistent lib ∧ f.WellTyped lib where
  create config f h := by
    refine ⟨?_, MetricFamily.create_wellTyped h lib⟩
    obtain rfl := MetricFamily.create_ok h
    exact MetricFamily.consistent_empty lib config
  newSample _ _ _ _ _ hf h :=
    ⟨MetricFamily.newSample_consistent hf.1 h, MetricFamily.newSample_wellTyped hf.2 h⟩
  routine now _ hf :=
    ⟨MetricFamily.routine_consistent hf.1 now, MetricFamily.routine_wellTyped hf.2 now⟩

/-! ## What holds once the constructor is through -/

/-- The state of a program that was started with the entries `metrics`. -/
structure Running (lib : Libraries) (metrics : List Configuration) (app : App) : Prop where
  live : app.client.AllLive
  /-- The callbacks of the entries whose filters match. -/
  callbacks : ∀ topic, (app.client.callbacks lib topic).Perm
    ((metrics.filter fun e => Matches lib e.topic topic).map fun e => e.openMetric.name)
  /-- A topic has the family of the first entry with it. -/
  registry : ∀ key, app.configs.find? key = metrics.find? fun e => e.topic = key
  families : ∀ key metric, app.metrics.find? key = some metric →
    metric.Consistent lib ∧ metric.WellTyped lib

theorem running_initial (lib : Libraries) : Running lib [] initial where
  live := MosquittoClient.allLive_create
  callbacks _ := List.Perm.refl _
  registry _ := rfl
  families _ _ h := by cases h

theorem registerEntry_running {lib : Libraries} {metrics : List Configuration} {m : Configuration}
    {app app' : App} (hr : Running lib metrics app) (h : registerEntry m app = .ok () app') :
    Running lib (metrics ++ [m]) app' := by
  have hfamilies := registerEntry_registered (kept_consistent lib) hr.families h
  rw [registerEntry_eq] at h
  cases hm : MetricFamily.create m with
  | error e =>
    rw [hm] at h
    cases h
  | ok metric =>
    rw [hm] at h
    cases h
    obtain rfl := MetricFamily.create_ok hm
    obtain ⟨hlive, hperm⟩ :=
      MosquittoClient.subscribe_connect app.client m.topic m.openMetric.name hr.live
    refine ⟨hlive, fun topic => ?_, fun key => ?_, hfamilies⟩
    · refine (hperm lib topic).trans ?_
      rw [List.filter_append, List.map_append]
      refine (hr.callbacks topic).append ?_
      by_cases hmatch : Matches lib m.topic topic
      · simp [hmatch]
      · simp [hmatch]
    · have hold := hr.registry key
      rw [find?_configs] at hold ⊢
      rw [insert, connected, connect, List.find?_append, ← hold, OrderedMap.find?_emplace]
      by_cases hkey : m.topic = key
      · subst hkey
        cases app.metrics.find? m.topic <;> simp
      · simp [hkey]

/-- The rest of the loop registers the rest of the entries. -/
theorem register_rest_running {lib : Libraries} {done rest : List Configuration} {app app' : App}
    (hr : Running lib done app) (h : register rest app = .ok () app') :
    Running lib (done ++ rest) app' := by
  unfold register at h
  induction rest generalizing done app with
  | nil =>
    cases h
    rwa [List.append_nil]
  | cons m rest ih =>
    obtain ⟨⟨⟩, next, hm, hrest⟩ := bind_ok.mp (forM_cons registerEntry m rest ▸ h)
    rw [List.append_cons]
    exact ih (registerEntry_running hr hm) hrest

theorem register_running {lib : Libraries} {metrics : List Configuration} {app : App}
    (h : register metrics initial = .ok () app) : Running lib metrics app :=
  register_rest_running (running_initial lib) h

/-- Registering entries of supported types never raises. -/
theorem register_ok {metrics : List Configuration}
    (h : ∀ e ∈ metrics, e.openMetric.type ≠ .summary) (app : App) :
    ∃ app', register metrics app = .ok () app' := by
  induction metrics generalizing app with
  | nil => exact ⟨app, rfl⟩
  | cons m metrics ih =>
    have hm : MetricFamily.create m = .ok ⟨m, .empty⟩ := by
      unfold MetricFamily.create
      have := h m List.mem_cons_self
      split <;> first | rfl | contradiction
    obtain ⟨app', happ⟩ := ih (fun e he => h e (List.mem_cons_of_mem m he))
      ((app.connected m).insert m.topic ⟨m, .empty⟩)
    exact ⟨app', bind_ok.mpr ⟨⟨⟩, _, by rw [registerEntry_eq, hm], happ⟩⟩

/-! ## Messages and routine passes -/

/-- Nothing that registration fixed changes, and no family loses its labels. -/
theorem Running.of_sameSetup {lib : Libraries} {metrics : List Configuration} {app app' : App}
    (hr : Running lib metrics app) (hs : SameSetup app app')
    (hc : ∀ key metric, app'.metrics.find? key = some metric →
      metric.Consistent lib ∧ metric.WellTyped lib) :
    Running lib metrics app' where
  live := hs.1 ▸ hr.live
  callbacks topic := hs.1 ▸ hr.callbacks topic
  registry key := hs.2 ▸ hr.registry key
  families := hc

theorem perform_running {lib : Libraries} {metrics : List Configuration} {m : Message}
    {x : Handling} {app app' : App} (hr : Running lib metrics app)
    (h : perform lib m x app = .ok () app') : Running lib metrics app' :=
  hr.of_sameSetup (perform_sameSetup h) (perform_registered (kept_consistent lib) hr.families h)

theorem onMessage_running {lib : Libraries} {metrics : List Configuration} {m : Message}
    {app app' : App} (hr : Running lib metrics app) (h : onMessage lib m app = .ok () app') :
    Running lib metrics app' := by
  rw [onMessage_eq_plan lib m hr.live] at h
  exact forM_invariant (fun _ _ _ _ ha hx => perform_running ha hx) hr h

theorem routineFamily_sameSetup (lib : Libraries) (app : App) (key : Str) :
    SameSetup app (app.routineFamily lib key) := by
  unfold routineFamily
  split
  · exact sameSetup_refl app
  · rename_i metric hm
    exact ⟨rfl, configs_set hm rfl⟩

theorem routine_sameSetup (lib : Libraries) (app : App) : SameSetup app (app.routine lib) := by
  unfold routine
  generalize app.metrics.keys = keys
  induction keys generalizing app with
  | nil => exact sameSetup_refl app
  | cons key keys ih => exact (routineFamily_sameSetup lib app key).trans (ih _)

theorem routine_running {lib : Libraries} {metrics : List Configuration} {app : App}
    (hr : Running lib metrics app) : Running lib metrics (app.routine lib) :=
  hr.of_sameSetup (routine_sameSetup lib app) (routine_registered (kept_consistent lib) hr.families)

theorem running_step {lib : Libraries} {metrics : List Configuration} {app app' : App} {e : Event}
    (hr : Running lib metrics app) (h : step lib app e = some app') : Running lib metrics app' := by
  obtain ⟨m, -, hm⟩ | ⟨-, rfl⟩ := step_cases h
  · exact onMessage_running hr hm
  · exact routine_running hr

theorem Reachable.running {lib : Libraries} {metrics : List Configuration} {app : App}
    (h : Reachable lib metrics app) : Running lib metrics app := by
  obtain ⟨app₀, events, hreg, hrun⟩ := h
  exact Transition.run_invariant (fun _ _ _ hr hs => running_step hr hs) (register_running hreg)
    hrun

/-- What every entry's registration, every message and every pass keeps. -/
theorem Reachable.invariant {lib : Libraries} {metrics : List Configuration} {app : App}
    {I : App → Prop} (start : I initial)
    (entry : ∀ m a a', I a → registerEntry m a = .ok () a' → I a')
    (message : ∀ m a a', a.client.AllLive → I a → onMessage lib m a = .ok () a' → I a')
    (pass : ∀ a, I a → I (a.routine lib)) (h : Reachable lib metrics app) : I app := by
  obtain ⟨app₀, events, hreg, hrun⟩ := h
  have hstart : I app₀ := forM_invariant (fun m _ a a' ha hm => entry m a a' ha hm) start hreg
  refine (Transition.run_invariant (I := fun a => Running lib metrics a ∧ I a)
    ?_ ⟨register_running hreg, hstart⟩ hrun).2
  rintro a e a' ⟨hr, ha⟩ hstep
  refine ⟨running_step hr hstep, ?_⟩
  obtain ⟨m, -, hm⟩ | ⟨-, rfl⟩ := step_cases hstep
  · exact message m a a' hr.live ha hm
  · exact pass a ha

/-- What families begin with and keep, every registered family has. -/
theorem Reachable.registered {lib : Libraries} {metrics : List Configuration} {app : App}
    {P : MetricFamily → Prop} (hk : Kept lib P) (h : Reachable lib metrics app) :
    Registered P app := by
  refine h.invariant ?_ (fun _ _ _ ha hm => registerEntry_registered hk ha hm)
    (fun m a a' hlive ha hm => ?_) (fun _ ha => routine_registered hk ha)
  · intro key metric hm
    cases hm
  · rw [onMessage_eq_plan lib m hlive] at hm
    exact forM_invariant (fun _ _ _ _ ha hx => perform_registered hk ha hx) ha hm

/-! ## What was logged -/

theorem registerEntry_logged {lib : Libraries} {m : Configuration} {app app' : App}
    (hl : Logged lib app) (h : registerEntry m app = .ok () app') : Logged lib app' := by
  rw [registerEntry_eq] at h
  cases hm : MetricFamily.create m with
  | error e =>
    rw [hm] at h
    cases h
  | ok metric =>
    rw [hm] at h
    cases h
    exact (hl.setClient _).insert hm m.topic

/-- In every state of every run each family is the run of its logged samples, all
of which finished, and of routine passes. -/
theorem Reachable.logged {lib : Libraries} {metrics : List Configuration} {app : App}
    (h : Reachable lib metrics app) : Logged lib app :=
  h.invariant logged_initial (fun _ _ _ hl hm => registerEntry_logged hl hm)
    (fun _ _ _ hlive hl hm => hl.grows (onMessage_grows hlive hm))
    fun a hl => hl.grows (routine_grows a)

/-! ## Exactly once -/

/-- The entries whose callbacks run with a name, for a message on a topic. -/
def rivals (lib : Libraries) (metrics : List Configuration) (topic name : Str) : Nat :=
  metrics.countP fun e => Matches lib e.topic topic ∧ e.openMetric.name = name

/-- A family that matches is sampled once for each of its rivals, itself included. -/
theorem timesSampled_message {lib : Libraries} {metrics : List Configuration} {m : Message}
    {app app' : App} (hr : Running lib metrics app) (h : onMessage lib m app = .ok () app')
    {key : Str} {metric : MetricFamily} (hm : app.metrics.find? key = some metric) :
    timesSampled app' key = timesSampled app key +
      if Matches lib key m.topic then rivals lib metrics m.topic metric.getBaseName else 0 := by
  have hcallbacks : (app.client.callbacks lib m.topic).count metric.getBaseName =
      rivals lib metrics m.topic metric.getBaseName := by
    rw [(hr.callbacks m.topic).count_eq, List.count, List.countP_map, List.countP_filter, rivals]
    congr 1
    funext e
    rw [Bool.eq_iff_iff]
    simp [and_comm]
  rw [timesSampled_callbacks hr.live h hm, hcallbacks]

/-- What a message does to a family: the samples that are counted are events of its run. -/
theorem message_events {lib : Libraries} {metrics : List Configuration} {m : Message}
    {app app' : App} (hr : Running lib metrics app) (h : onMessage lib m app = .ok () app')
    {key : Str} {metric : MetricFamily} (hm : app.metrics.find? key = some metric) :
    ∃ events, metric.Finishes lib events ∧
      app'.metrics.find? key = some (metric.run lib events) ∧
      (events.filterMap (FamilyEvent.call? key)).length =
        if Matches lib key m.topic then rivals lib metrics m.topic metric.getBaseName else 0 := by
  obtain ⟨events, hfin, hrun, hcalls⟩ := (onMessage_grows hr.live h).families key metric hm
  refine ⟨events, hfin, hrun, ?_⟩
  have hcount := timesSampled_message hr h hm
  rw [timesSampled_eq_length, timesSampled_eq_length, hcalls, List.length_append] at hcount
  exact Nat.add_left_cancel hcount

/-- Every family that a message is for is sampled exactly once, and no other is,
exactly when each of them is the only entry of its name that matches. What
`timesSampled` counts the families went through: `message_events`, `Reachable.logged`. -/
theorem exactly_once_iff (lib : Libraries) (metrics : List Configuration) (app app' : App)
    (m : Message) (hr : Reachable lib metrics app) (h : onMessage lib m app = .ok () app') :
    (∀ key metric, app.metrics.find? key = some metric →
      timesSampled app' key = timesSampled app key + if Matches lib key m.topic then 1 else 0) ↔
    ∀ key metric, app.metrics.find? key = some metric → Matches lib key m.topic →
      rivals lib metrics m.topic metric.getBaseName = 1 := by
  constructor
  · intro honce key metric hm hmatch
    have hcount := timesSampled_message hr.running h hm
    rw [honce key metric hm, if_pos hmatch, if_pos hmatch] at hcount
    omega
  · intro hone key metric hm
    rw [timesSampled_message hr.running h hm]
    split
    · rename_i hmatch
      rw [hone key metric hm hmatch]
    · rfl

/-- Two entries of different names on filters that both match. -/
theorem exactly_once_two : ∃ app app',
    register [counterEntry "a" "one", counterEntry "#" "all"] initial = .ok () app ∧
    onMessage simpleLibraries ⟨"a".toList, []⟩ app = .ok () app' ∧
    ∀ key metric, app.metrics.find? key = some metric → timesSampled app' key =
      timesSampled app key + if Matches simpleLibraries key "a".toList then 1 else 0 := by
  refine ⟨_, _, rfl, rfl, (exactly_once_iff simpleLibraries
    [counterEntry "a" "one", counterEntry "#" "all"] _ _ ⟨"a".toList, []⟩ ⟨_, [], rfl, rfl⟩
    rfl).mpr ?_⟩
  intro key metric hm _
  have hr : Running simpleLibraries [counterEntry "a" "one", counterEntry "#" "all"] _ :=
    register_running rfl
  have hreg := hr.registry key
  rw [find?_configs, hm] at hreg
  rcases List.mem_cons.mp (List.mem_of_find?_eq_some hreg.symm) with hconfig | hconfig
  · rw [MetricFamily.getBaseName, hconfig]
    decide
  · rw [MetricFamily.getBaseName, List.mem_singleton.mp hconfig]
    decide

/-- Two entries of one name: the callback of each samples the families of both. -/
theorem sampled_twice : ¬ ∀ lib metrics app app' m, Reachable lib metrics app →
    onMessage lib m app = .ok () app' → ∀ key metric, app.metrics.find? key = some metric →
      timesSampled app' key = timesSampled app key + if Matches lib key m.topic then 1 else 0 := by
  intro h
  let metrics := [counterEntry "a" "n", counterEntry "#" "n"]
  have hcount := h simpleLibraries metrics _ _ ⟨"a".toList, []⟩ ⟨_, [], rfl, rfl⟩ rfl
    "a".toList _ rfl
  revert hcount
  decide

/-! ## No entry lost -/

/-- The family of an entry is registered under its topic. -/
def HasFamily (app : App) (e : Configuration) : Prop :=
  ∃ metric, app.metrics.find? e.topic = some metric ∧ metric.config = e

/-- Every configured entry has its family, every message for it is sampled
there, and the family is part of every scrape. -/
structure NoneLost (lib : Libraries) (metrics : List Configuration) : Prop where
  registered : ∀ app, register metrics initial = .ok () app → ∀ e ∈ metrics, HasFamily app e
  sampled : ∀ app m app', Reachable lib metrics app → onMessage lib m app = .ok () app' →
    ∀ e ∈ metrics, Matches lib e.topic m.topic →
      HasFamily app e ∧ timesSampled app e.topic < timesSampled app' e.topic
  exposed : ∀ app, Reachable lib metrics app → ∃ response, handleGet lib app = some response ∧
    ∀ e ∈ metrics, ∃ metric text, app.metrics.find? e.topic = some metric ∧ metric.config = e ∧
      metric.stringify lib = some text ∧ text <:+: response

/-- Entries that share a topic are the same entry. -/
def DistinctTopics (metrics : List Configuration) : Prop :=
  ∀ e ∈ metrics, ∀ e' ∈ metrics, e.topic = e'.topic → e = e'

/-- A registered family has its entry. -/
theorem Running.entry {lib : Libraries} {metrics : List Configuration} {app : App}
    (hr : Running lib metrics app) {key : Str} {metric : MetricFamily}
    (hm : app.metrics.find? key = some metric) :
    metric.config ∈ metrics ∧ metric.config.topic = key := by
  have hreg := hr.registry key
  rw [find?_configs, hm] at hreg
  exact ⟨List.mem_of_find?_eq_some hreg.symm, by simpa using List.find?_some hreg.symm⟩

theorem Running.hasFamily {lib : Libraries} {metrics : List Configuration} {app : App}
    (hr : Running lib metrics app) (hd : DistinctTopics metrics) {e : Configuration}
    (he : e ∈ metrics) : HasFamily app e := by
  have hreg := hr.registry e.topic
  rw [find?_configs] at hreg
  cases hfind : metrics.find? fun x => x.topic = e.topic with
  | none => simpa using List.find?_eq_none.mp hfind e he
  | some x =>
    rw [hfind] at hreg
    obtain ⟨metric, hm, hconfig⟩ := Option.map_eq_some_iff.mp hreg
    have htopic : x.topic = e.topic := by simpa using List.find?_some hfind
    exact ⟨metric, hm, hconfig.trans (hd x (List.mem_of_find?_eq_some hfind) e he htopic)⟩

/-- The families' texts are all defined. -/
theorem texts_defined {lib : Libraries} {es : List (Str × MetricFamily)}
    (hes : ∀ e ∈ es, e.2.Consistent lib) :
    ∃ texts, es.mapM (fun e => e.2.stringify lib) = some texts ∧
      ∀ e ∈ es, ∀ text, e.2.stringify lib = some text → text ∈ texts := by
  induction es with
  | nil => exact ⟨[], rfl, fun e he => absurd he List.not_mem_nil⟩
  | cons e es ih =>
    obtain ⟨text, htext⟩ := MetricFamily.stringify_defined (hes e List.mem_cons_self)
    obtain ⟨texts, htexts, hmem⟩ := ih fun x hx => hes x (List.mem_cons_of_mem e hx)
    refine ⟨text :: texts, by simp [List.mapM_cons, htext, htexts], fun x hx t ht => ?_⟩
    rcases List.mem_cons.mp hx with rfl | hx
    · rw [htext] at ht
      cases ht
      exact List.mem_cons_self
    · exact List.mem_cons_of_mem text (hmem x hx t ht)

/-- When every family has a text, the response has each of them. -/
theorem handleGet_spec {lib : Libraries} {app : App}
    (h : ∀ key metric, app.metrics.find? key = some metric → metric.Consistent lib) :
    ∃ response, handleGet lib app = some response ∧
      ∀ key metric text, app.metrics.find? key = some metric → metric.stringify lib = some text →
        text <:+: response := by
  obtain ⟨texts, htexts, hmem⟩ := @texts_defined lib app.metrics.entries fun e he =>
    h e.1 e.2 (app.metrics.mem_entries_iff.mp he)
  refine ⟨_, by rw [handleGet, htexts]; rfl, fun key metric text hm ht => ?_⟩
  obtain ⟨xs, ys, rfl⟩ := List.append_of_mem
    (hmem (key, metric) (app.metrics.mem_entries_iff.mpr hm) text ht)
  refine ⟨xs.flatMap (fun t => t ++ "\n".toList),
    "\n".toList ++ ys.flatMap (fun t => t ++ "\n".toList) ++ "# EOF\n".toList, ?_⟩
  simp [List.flatMap_append]

theorem noneLost_of_distinctTopics {lib : Libraries} {metrics : List Configuration}
    (hd : DistinctTopics metrics) : NoneLost lib metrics where
  registered app h e he := (register_running h : Running lib metrics app).hasFamily hd he
  sampled app m app' hr h e he hmatch := by
    obtain ⟨metric, hm, hconfig⟩ := hr.running.hasFamily hd he
    refine ⟨⟨metric, hm, hconfig⟩, ?_⟩
    have hrival : 0 < rivals lib metrics m.topic metric.getBaseName :=
      List.countP_pos_iff.mpr ⟨e, he, by simp [hmatch, MetricFamily.getBaseName, hconfig]⟩
    rw [timesSampled_message hr.running h hm, if_pos hmatch]
    omega
  exposed app hr := by
    obtain ⟨response, hresponse, htext⟩ := handleGet_spec fun key metric hm =>
      (hr.running.families key metric hm).1
    refine ⟨response, hresponse, fun e he => ?_⟩
    obtain ⟨metric, hm, hconfig⟩ := hr.running.hasFamily hd he
    obtain ⟨text, ht⟩ := MetricFamily.stringify_defined (hr.running.families _ _ hm).1
    exact ⟨metric, text, hm, hconfig, ht, htext _ _ _ hm ht⟩

/-- Entries of supported types are always registered, and none is lost exactly
when no two different entries share a topic. The samples are those that the
families went through, by `Reachable.logged`. -/
theorem none_lost_iff (lib : Libraries) (metrics : List Configuration)
    (hs : ∀ e ∈ metrics, e.openMetric.type ≠ .summary) :
    (∃ app, register metrics initial = .ok () app) ∧
      (NoneLost lib metrics ↔ DistinctTopics metrics) := by
  obtain ⟨app, happ⟩ := register_ok hs initial
  refine ⟨⟨app, happ⟩, fun h => ?_, noneLost_of_distinctTopics⟩
  intro e he e' he' htopic
  obtain ⟨metric, hm, hconfig⟩ := h.registered app happ e he
  obtain ⟨metric', hm', hconfig'⟩ := h.registered app happ e' he'
  rw [htopic, hm'] at hm
  cases hm
  exact hconfig.symm.trans hconfig'

theorem none_lost_two : NoneLost simpleLibraries [counterEntry "a" "one", counterEntry "#" "all"] :=
  (none_lost_iff simpleLibraries _ (by decide)).2.mpr (by simp [DistinctTopics, counterEntry])

/-- The second entry of a topic has no family. -/
theorem entry_lost : ¬ ∀ lib metrics, (∀ e ∈ metrics, e.openMetric.type ≠ .summary) →
    NoneLost lib metrics := by
  intro h
  obtain ⟨metric, hm, hconfig⟩ := (h simpleLibraries
    [counterEntry "FVE_Telc/+/Total" "responses", counterEntry "FVE_Telc/+/Total" "total_power"]
    (by decide)).registered _ rfl (counterEntry "FVE_Telc/+/Total" "total_power") (by simp)
  have hname := congrArg (fun c => c.openMetric.name) hconfig
  cases hm
  revert hname
  decide

end App

end MqttExporter
