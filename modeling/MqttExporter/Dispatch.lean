import MqttExporter.App

/-!
# Dispatch of a message

A message goes through subscriptions, their callbacks and, for each callback,
the registry. Flattened, that is one list of small handlings, fixed before the
first of them: filters that are checked and families that are sampled.

* `onMessage_eq_plan`: handling a message performs its plan, in order;
* `onMessage_history`: a message handled without an error sampled exactly the
  families of its plan;
* `count_plan`: how often the plan samples a family.
-/

namespace MqttExporter

namespace App

open Loop

/-- A part of the handling of one message, small enough to fail as a whole. -/
inductive Handling where
  | check (filter : Str)
  | sample (key : Str)
  deriving DecidableEq

def Handling.key? : Handling → Option Str
  | .check _ => none
  | .sample key => some key

def perform (lib : Libraries) (m : Message) : Handling → EStateM Error App Unit
  | .check filter => raise ((MosquittoClient.matchTopic lib filter m.topic).map fun _ => ())
  | .sample key => sampleFamily lib m.topic m.payload key

/-! ## What a message does not change -/

/-- The settings of the registered families. -/
def configs (app : App) : OrderedMap Str Configuration := app.metrics.mapValues fun _ f => f.config

/-- The clients and the settings agree. -/
def SameSetup (app app' : App) : Prop := app'.client = app.client ∧ app'.configs = app.configs

theorem sameSetup_refl (app : App) : SameSetup app app := ⟨rfl, rfl⟩

theorem SameSetup.trans {a b c : App} (h : SameSetup a b) (h' : SameSetup b c) : SameSetup a c :=
  ⟨h'.1.trans h.1, h'.2.trans h.2⟩

theorem find?_configs (app : App) (key : Str) :
    app.configs.find? key = (app.metrics.find? key).map MetricFamily.config :=
  app.metrics.find?_mapValues _ key

theorem configs_set {app : App} {key : Str} {metric metric' : MetricFamily}
    (h : app.metrics.find? key = some metric) (hc : metric'.config = metric.config) :
    (app.metrics.set key metric').mapValues (fun _ f => f.config) = app.configs := by
  apply OrderedMap.ext_find
  intro q
  rw [configs, OrderedMap.find?_mapValues, OrderedMap.find?_mapValues, OrderedMap.find?_set]
  split
  · rename_i hq
    rw [← hq, h, Option.map_some, Option.map_some, hc]
  · rfl

theorem sampleFamily_sameSetup {lib : Libraries} {topic payload key : Str} {app app' : App}
    (h : sampleFamily lib topic payload key app = .ok () app') : SameSetup app app' := by
  obtain ⟨-, rfl⟩ | ⟨metric, p, labels, metric', hm, -, hn, rfl⟩ := sampleFamily_ok h
  · exact sameSetup_refl app
  · exact ⟨rfl, configs_set hm (MetricFamily.config_newSample hn)⟩

theorem perform_sameSetup {lib : Libraries} {m : Message} {x : Handling} {app app' : App}
    (h : perform lib m x app = .ok () app') : SameSetup app app' := by
  cases x with
  | check filter =>
    obtain ⟨-, rfl⟩ := raise_eq_ok.mp h
    exact sameSetup_refl app
  | sample key => exact sampleFamily_sameSetup h

/-! ## The plan -/

/-- The registered families that match by topic and by name. -/
def selected (lib : Libraries) (topic omName : Str) (configs : OrderedMap Str Configuration) :
    List Str :=
  (configs.entries.filter fun e => Matches lib e.1 topic ∧ e.2.openMetric.name = omName).map
    Prod.fst

/-- What one callback does. -/
def callbackPlan (lib : Libraries) (m : Message) (configs : OrderedMap Str Configuration)
    (omName : Str) : List Handling :=
  configs.keys.map .check ++ (selected lib m.topic omName configs).map .sample

/-- What one subscription does. -/
def subscriptionPlan (lib : Libraries) (m : Message) (configs : OrderedMap Str Configuration)
    (s : Subscription Str) : List Handling :=
  .check s.topic ::
    if Matches lib s.topic m.topic then s.onArrived.functions.flatMap (callbackPlan lib m configs)
    else []

def plan (lib : Libraries) (m : Message) (app : App) : List Handling :=
  app.client.subscriptions.flatMap (subscriptionPlan lib m app.configs)

/-! ## Handling a message performs its plan -/

theorem perform_check {lib : Libraries} {m : Message} {filter : Str} {b : Bool}
    (h : MosquittoClient.matchTopic lib filter m.topic = .ok b) (app : App) :
    perform lib m (.check filter) app = .ok () app := by
  rw [perform, h]
  rfl

theorem perform_check_error {lib : Libraries} {m : Message} {filter : Str} {e : Error}
    (h : MosquittoClient.matchTopic lib filter m.topic = .error e) (app : App) :
    perform lib m (.check filter) app = .error e app := by
  rw [perform, h]
  rfl

/-- The loop over the registry checks every filter, and then has the selection. -/
theorem select_spec (lib : Libraries) (m : Message) (omName : Str)
    (entries : List (Str × MetricFamily)) (app : App) :
    (∃ e, select lib m.topic omName entries = .error e ∧
      (entries.map fun x => Handling.check x.1).forM (perform lib m) app = .error e app) ∨
    (select lib m.topic omName entries = .ok ((entries.filter fun x =>
        Matches lib x.1 m.topic ∧ x.2.config.openMetric.name = omName).map Prod.fst) ∧
      (entries.map fun x => Handling.check x.1).forM (perform lib m) app = .ok () app) := by
  induction entries with
  | nil => exact Or.inr ⟨rfl, rfl⟩
  | cons x entries ih =>
    obtain ⟨key, metric⟩ := x
    rw [List.map_cons, forM_cons]
    cases hm : MosquittoClient.matchTopic lib key m.topic with
    | error e =>
      refine Or.inl ⟨e, by simp only [select, hm]; rfl, ?_⟩
      rw [bind_apply, perform_check_error hm]
    | ok b =>
      have hb := matchTopic_ok hm
      rw [bind_apply, perform_check hm]
      obtain ⟨e, he, hloop⟩ | ⟨hok, hloop⟩ := ih
      · exact Or.inl ⟨e, by simp only [select, hm, he]; rfl, hloop⟩
      · refine Or.inr ⟨?_, hloop⟩
        simp only [select, hm, hok, hb]
        by_cases hmatch : Matches lib key m.topic <;>
          by_cases hname : metric.config.openMetric.name = omName <;>
            simp [hmatch, hname, MetricFamily.getBaseName, bind, Except.bind, pure, Except.pure]

theorem messageArrived_eq_plan (lib : Libraries) (m : Message) (omName : Str) (app : App) :
    messageArrived lib m.topic m.payload omName app =
      (callbackPlan lib m app.configs omName).forM (perform lib m) app := by
  have hkeys : app.configs.keys.map Handling.check =
      app.metrics.entries.map fun x => Handling.check x.1 := by
    rw [configs, OrderedMap.keys_mapValues, OrderedMap.keys, List.map_map]
    rfl
  have hselected : selected lib m.topic omName app.configs =
      (app.metrics.entries.filter fun x =>
        Matches lib x.1 m.topic ∧ x.2.config.openMetric.name = omName).map Prod.fst := by
    simp only [selected, configs, OrderedMap.mapValues, List.filter_map, List.map_map]
    rfl
  rw [messageArrived, callbackPlan, forM_append, hkeys, hselected]
  simp only [bind_apply, get_apply]
  obtain ⟨e, he, hloop⟩ | ⟨hok, hloop⟩ := select_spec lib m omName app.metrics.entries app
  · rw [he, hloop]
    rfl
  · rw [hok, hloop, raise_ok]
    rw [forM_map]
    rfl

theorem subscription_eq_plan (lib : Libraries) (m : Message) {s : Subscription Str}
    (hs : s.onArrived.block = false) (app : App) :
    (do
      if ← raise (MosquittoClient.matchTopic lib s.topic m.topic) then
        s.onArrived.notify fun f => messageArrived lib m.topic m.payload f
      : EStateM Error App Unit) app =
      (subscriptionPlan lib m app.configs s).forM (perform lib m) app := by
  rw [subscriptionPlan, forM_cons]
  simp only [bind_apply]
  cases hm : MosquittoClient.matchTopic lib s.topic m.topic with
  | error e =>
    rw [perform_check_error hm, raise_error]
  | ok b =>
    rw [perform_check hm, raise_ok, matchTopic_ok hm]
    by_cases hmatch : Matches lib s.topic m.topic
    · simp only [hmatch, if_true, decide_true, Signal.notify, hs]
      exact forM_flatten (I := fun a => SameSetup app a)
        (fun f _ a ha => by rw [messageArrived_eq_plan, ha.2])
        (fun x a a' ha hx => ha.trans (perform_sameSetup hx)) (sameSetup_refl app)
    · simp only [hmatch, if_false, decide_false]
      rfl

/-- Handling a message performs its plan, in order. -/
theorem onMessage_eq_plan (lib : Libraries) (m : Message) {app : App} (hc : app.client.AllLive) :
    onMessage lib m app = (plan lib m app).forM (perform lib m) app := by
  have hlive : app.client.liveSubscriptions = app.client.subscriptions :=
    List.filter_eq_self.mpr fun s hs => (hc s hs).1
  simp only [onMessage, bind_apply, get_apply]
  rw [MosquittoClient.onMessage, hlive, plan]
  refine forM_flatten (I := fun a => SameSetup app a) (fun s hs a ha => ?_)
    (fun x a a' ha hx => ha.trans (perform_sameSetup hx)) (sameSetup_refl app)
  rw [subscription_eq_plan lib m (hc s hs).2 a, ha.2]

/-! ## What a handled message sampled -/

/-- The samples that a later state has logged in addition. Over a message the families
went through just these: `onMessage_grows`. -/
def samplesSince (app app' : App) : List SampleCall := app'.history.drop app.history.length

theorem samplesSince_append {app app' : App} {calls : List SampleCall}
    (h : app'.history = app.history ++ calls) : samplesSince app app' = calls := by
  rw [samplesSince, h, List.drop_left]

/-- The call of `newSample` that a handling makes, when it does not fail. -/
def sampleCall (lib : Libraries) (m : Message) (configs : OrderedMap Str Configuration) :
    Handling → List SampleCall
  | .check _ => []
  | .sample key =>
    match configs.find? key with
    | none => []
    | some config =>
      match extract lib ⟨config, .empty⟩ m.topic m.payload with
      | .error _ => []
      | .ok (payload, labels) => [⟨key, payload, labels⟩]

theorem perform_history {lib : Libraries} {m : Message} {x : Handling} {app app' : App}
    (h : perform lib m x app = .ok () app') :
    app'.history = app.history ++ sampleCall lib m app.configs x := by
  cases x with
  | check filter =>
    obtain ⟨-, rfl⟩ := raise_eq_ok.mp h
    simp [sampleCall]
  | sample key =>
    rw [sampleCall, find?_configs]
    obtain ⟨hm, rfl⟩ | ⟨metric, p, labels, metric', hm, he, -, rfl⟩ := sampleFamily_ok h
    · simp [hm]
    · have he' : extract lib ⟨metric.config, .empty⟩ m.topic m.payload = .ok (p, labels) := he
      simp [hm, he']

theorem plan_history {lib : Libraries} {m : Message} {xs : List Handling} {app app' : App}
    (h : xs.forM (perform lib m) app = .ok () app') :
    SameSetup app app' ∧
      app'.history = app.history ++ xs.flatMap (sampleCall lib m app.configs) := by
  refine forM_ok (I := SameSetup app) (fun x _ a a' ha hx => ?_) (sameSetup_refl app) h
  exact ⟨ha.trans (perform_sameSetup hx), by rw [perform_history hx, ha.2]⟩

/-- A message handled without an error made the calls of its plan. -/
theorem onMessage_history {lib : Libraries} {m : Message} {app app' : App}
    (hc : app.client.AllLive) (h : onMessage lib m app = .ok () app') :
    SameSetup app app' ∧
      app'.history = app.history ++ (plan lib m app).flatMap (sampleCall lib m app.configs) := by
  rw [onMessage_eq_plan lib m hc] at h
  exact plan_history h

theorem sampled_registered {lib : Libraries} {m : Message} {app : App} {key : Str}
    (h : Handling.sample key ∈ plan lib m app) : key ∈ app.configs.keys := by
  obtain ⟨s, -, hs⟩ := List.mem_flatMap.mp h
  rcases List.mem_cons.mp hs with hs | hs
  · cases hs
  · split at hs
    · obtain ⟨om, -, hom⟩ := List.mem_flatMap.mp hs
      rcases List.mem_append.mp hom with hom | hom
      · obtain ⟨q, -, hq⟩ := List.mem_map.mp hom
        cases hq
      · obtain ⟨q, hq, he⟩ := List.mem_map.mp hom
        cases he
        obtain ⟨e, he, rfl⟩ := List.mem_map.mp hq
        exact List.mem_map_of_mem (List.mem_filter.mp he).1
    · cases hs

theorem onMessage_keys {lib : Libraries} {m : Message} {app app' : App}
    (hc : app.client.AllLive) (h : onMessage lib m app = .ok () app') :
    SameSetup app app' ∧ app'.history.map SampleCall.key =
      app.history.map SampleCall.key ++ (plan lib m app).flatMap fun x => x.key?.toList := by
  rw [onMessage_eq_plan lib m hc] at h
  refine @forM_ok _ _ _ _ _ (SameSetup app) (fun a => a.history.map SampleCall.key) _ _
    (fun x hx a a' ha hp => ⟨ha.trans (perform_sameSetup hp), ?_⟩) _ _ (sameSetup_refl app) h
  cases x with
  | check filter =>
    obtain ⟨-, rfl⟩ := raise_eq_ok.mp hp
    simp [Handling.key?]
  | sample key =>
    obtain ⟨config, hconfig⟩ := app.configs.mem_keys_iff.mp (sampled_registered hx)
    rw [← ha.2, find?_configs] at hconfig
    obtain ⟨hm, -⟩ | ⟨metric, p, labels, metric', -, -, -, rfl⟩ := sampleFamily_ok hp
    · rw [hm] at hconfig
      cases hconfig
    · simp [Handling.key?]

/-! ## How often a family is sampled -/

theorem mem_keys_of_handlings {xs : List Handling} {key : Str} :
    key ∈ xs.flatMap (fun x => x.key?.toList) ↔ .sample key ∈ xs := by
  rw [List.mem_flatMap]
  constructor
  · rintro ⟨x, hx, hkey⟩
    cases x with
    | check filter => cases hkey
    | sample q =>
      cases List.mem_singleton.mp hkey
      exact hx
  · exact fun h => ⟨.sample key, h, List.mem_singleton.mpr rfl⟩

theorem plan_keys (lib : Libraries) (m : Message) (app : App) :
    ((plan lib m app).flatMap fun x => x.key?.toList) =
      (app.client.callbacks lib m.topic).flatMap fun om => selected lib m.topic om app.configs := by
  have hcallback : ∀ om, ((callbackPlan lib m app.configs om).flatMap fun x => x.key?.toList) =
      selected lib m.topic om app.configs := by
    intro om
    simp [callbackPlan, Handling.key?, List.flatMap_append, List.flatMap_map]
  rw [plan, MosquittoClient.callbacks, List.flatMap_assoc, List.flatMap_assoc]
  congr 1
  funext s
  rw [subscriptionPlan, List.flatMap_cons]
  split
  · rw [List.flatMap_assoc]
    simp only [hcallback]
    rfl
  · rfl

theorem count_selected {lib : Libraries} {topic omName key : Str}
    {configs : OrderedMap Str Configuration} {config : Configuration}
    (h : configs.find? key = some config) :
    (selected lib topic omName configs).count key =
      if Matches lib key topic ∧ config.openMetric.name = omName then 1 else 0 := by
  have hnodup : (selected lib topic omName configs).Nodup :=
    configs.keys_nodup.sublist (List.filter_sublist.map Prod.fst)
  have hmem : key ∈ selected lib topic omName configs ↔
      Matches lib key topic ∧ config.openMetric.name = omName := by
    constructor
    · intro hk
      obtain ⟨e, he, rfl⟩ := List.mem_map.mp hk
      obtain ⟨hentry, hp⟩ := List.mem_filter.mp he
      have hfind := configs.mem_entries_iff.mp hentry
      rw [h] at hfind
      cases hfind
      simpa using hp
    · intro hp
      exact List.mem_map.mpr ⟨(key, config),
        List.mem_filter.mpr ⟨configs.mem_entries_iff.mpr h, by simpa using hp⟩, rfl⟩
  split
  · rename_i hp
    exact List.count_eq_one_of_mem hnodup (hmem.mpr hp)
  · rename_i hp
    exact List.count_eq_zero_of_not_mem fun hk => hp (hmem.mp hk)

/-- A family is sampled once for each callback that runs with its name, provided
its own filter matches. -/
theorem count_plan {lib : Libraries} {m : Message} {app : App} {key : Str} {metric : MetricFamily}
    (h : app.metrics.find? key = some metric) :
    ((plan lib m app).flatMap fun x => x.key?.toList).count key =
      if Matches lib key m.topic then
        (app.client.callbacks lib m.topic).count metric.getBaseName
      else 0 := by
  have hconfig : app.configs.find? key = some metric.config := by
    rw [find?_configs, h]
    rfl
  rw [plan_keys]
  generalize app.client.callbacks lib m.topic = oms
  induction oms with
  | nil => simp
  | cons om oms ih =>
    have hname : metric.config.openMetric.name = om ↔ om = metric.getBaseName := eq_comm
    rw [List.flatMap_cons, List.count_append, ih, count_selected hconfig, List.count_cons]
    simp only [hname, beq_iff_eq]
    by_cases hmatch : Matches lib key m.topic
    · simp [hmatch, Nat.add_comm]
    · simp [hmatch]

/-- The samples that the family under a topic has had. -/
def timesSampled (app : App) (key : Str) : Nat := (app.history.map SampleCall.key).count key

/-- A family that matches is sampled by every callback with its name. -/
theorem timesSampled_callbacks {lib : Libraries} {m : Message} {app app' : App}
    (hc : app.client.AllLive) (h : onMessage lib m app = .ok () app') {key : Str}
    {metric : MetricFamily} (hm : app.metrics.find? key = some metric) :
    timesSampled app' key = timesSampled app key +
      if Matches lib key m.topic then (app.client.callbacks lib m.topic).count metric.getBaseName
      else 0 := by
  rw [timesSampled, timesSampled, (onMessage_keys hc h).2, List.count_append, count_plan hm]

/-- A topic without a family is not sampled. -/
theorem timesSampled_unregistered {lib : Libraries} {m : Message} {app app' : App}
    (hc : app.client.AllLive) (h : onMessage lib m app = .ok () app') {key : Str}
    (hm : app.metrics.find? key = none) : timesSampled app' key = timesSampled app key := by
  have hcount : ((plan lib m app).flatMap fun x => x.key?.toList).count key = 0 := by
    apply List.count_eq_zero_of_not_mem
    intro hkey
    have hreg := sampled_registered (mem_keys_of_handlings.mp hkey)
    rw [OrderedMap.mem_keys_iff, find?_configs, hm] at hreg
    obtain ⟨config, hconfig⟩ := hreg
    cases hconfig
  rw [timesSampled, timesSampled, (onMessage_keys hc h).2, List.count_append, hcount, Nat.add_zero]

end App

end MqttExporter
