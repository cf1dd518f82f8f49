import MqttExporter.Registration

/-!
# Messages during start-up

The constructor subscribes, connects and inserts while the client's thread
already delivers messages.

* `constructor_register`: the constructor's steps alone are the registration;
* `logged`: the samples that are counted are what the families went through;
* `delivered_iff_ready`: a run loses no message exactly when each is delivered
  after the families it is for were inserted.
-/

namespace MqttExporter

open App

/-- What the constructor does next with an entry. -/
inductive Phase where
  | subscribe
  /-- SUBSCRIBE was sent. -/
  | pushBack
  | connect (place : Nat)
  | insert
  deriving DecidableEq

/-- `rest` begins with the entry the constructor is at. -/
structure Startup where
  app : App
  rest : List Configuration
  phase : Phase

namespace Startup

inductive Action where
  | construct
  | deliver (m : Message)

def initial (metrics : List Configuration) : Startup := ⟨App.initial, metrics, .subscribe⟩

def setClient (s : Startup) (client : MosquittoClient Str) (phase : Phase) : Startup :=
  { s with app := { s.app with client := client }, phase := phase }

/-- The next step of the loop over the configured metrics. -/
def construct (s : Startup) : Option Startup :=
  match s.rest with
  | [] => none
  | m :: rest =>
    match s.phase with
    | .subscribe =>
      match s.app.client.alreadySubscribed m.topic with
      | some i => some (s.setClient s.app.client (.connect i))
      | none => some (s.setClient (s.app.client.sendSubscribe m.topic) .pushBack)
    | .pushBack =>
      some (s.setClient (s.app.client.pushBack m.topic)
        (.connect s.app.client.subscriptions.length))
    | .connect i => some (s.setClient (s.app.client.connect i m.openMetric.name) .insert)
    | .insert =>
      match MetricFamily.create m with
      | .error _ => none
      | .ok metric => some ⟨s.app.insert m.topic metric, rest, .subscribe⟩

def step (lib : Libraries) (s : Startup) : Action → Option Startup
  | .construct => s.construct
  | .deliver m =>
    match onMessage lib m s.app with
    | .ok _ app => some { s with app := app }
    | .error _ _ => none

/-- What the constructor's next step can be. -/
theorem construct_cases {s s' : Startup} (h : s.construct = some s') :
    ∃ m rest, s.rest = m :: rest ∧
      ((∃ i, s.phase = .subscribe ∧ s.app.client.alreadySubscribed m.topic = some i ∧
          s' = s.setClient s.app.client (.connect i)) ∨
        (s.phase = .subscribe ∧ s.app.client.alreadySubscribed m.topic = none ∧
          s' = s.setClient (s.app.client.sendSubscribe m.topic) .pushBack) ∨
        (s.phase = .pushBack ∧ s' = s.setClient (s.app.client.pushBack m.topic)
          (.connect s.app.client.subscriptions.length)) ∨
        (∃ i, s.phase = .connect i ∧
          s' = s.setClient (s.app.client.connect i m.openMetric.name) .insert) ∨
        (∃ metric, s.phase = .insert ∧ MetricFamily.create m = .ok metric ∧
          s' = ⟨s.app.insert m.topic metric, rest, .subscribe⟩)) := by
  unfold construct at h
  cases hrest : s.rest with
  | nil =>
    rw [hrest] at h
    cases h
  | cons m rest =>
    refine ⟨m, rest, rfl, ?_⟩
    cases hphase : s.phase with
    | subscribe =>
      cases hsub : s.app.client.alreadySubscribed m.topic with
      | some i =>
        simp only [hrest, hphase, hsub, Option.some.injEq] at h
        exact Or.inl ⟨i, rfl, rfl, h.symm⟩
      | none =>
        simp only [hrest, hphase, hsub, Option.some.injEq] at h
        exact Or.inr (Or.inl ⟨rfl, rfl, h.symm⟩)
    | pushBack =>
      simp only [hrest, hphase, Option.some.injEq] at h
      exact Or.inr (Or.inr (Or.inl ⟨rfl, h.symm⟩))
    | connect i =>
      simp only [hrest, hphase, Option.some.injEq] at h
      exact Or.inr (Or.inr (Or.inr (Or.inl ⟨i, rfl, h.symm⟩)))
    | insert =>
      cases hm : MetricFamily.create m with
      | error e =>
        simp only [hrest, hphase, hm] at h
        cases h
      | ok metric =>
        simp only [hrest, hphase, hm, Option.some.injEq] at h
        exact Or.inr (Or.inr (Or.inr (Or.inr ⟨metric, rfl, rfl, h.symm⟩)))

theorem deliver_cases {lib : Libraries} {m : Message} {s s' : Startup}
    (h : step lib s (.deliver m) = some s') :
    ∃ app, onMessage lib m s.app = .ok () app ∧ s' = { s with app := app } := by
  simp only [step] at h
  split at h
  · rename_i app hm
    cases h
    exact ⟨app, hm, rfl⟩
  · cases h

/-! ## The constructor by itself -/

theorem registerEntry_steps {lib : Libraries} {m : Configuration} {rest : List Configuration}
    {app app' : App} (h : registerEntry m app = .ok () app') :
    ∃ n, Transition.run (step lib) ⟨app, m :: rest, .subscribe⟩ (List.replicate n .construct) =
      some ⟨app', rest, .subscribe⟩ := by
  rw [registerEntry_eq] at h
  cases hm : MetricFamily.create m with
  | error e =>
    rw [hm] at h
    cases h
  | ok metric =>
    rw [hm] at h
    cases h
    cases hs : app.client.alreadySubscribed m.topic with
    | some i =>
      refine ⟨3, ?_⟩
      simp [List.replicate, Transition.run, step, construct, setClient, connected, App.connect,
        MosquittoClient.subscribe, hs, hm]
    | none =>
      refine ⟨4, ?_⟩
      simp [List.replicate, Transition.run, step, construct, setClient, connected, App.connect,
        MosquittoClient.subscribe, MosquittoClient.sendSubscribe, hs, hm]

/-- Without messages in between the constructor's steps register the entries. -/
theorem constructor_register {lib : Libraries} {metrics : List Configuration} {app : App}
    (h : register metrics App.initial = .ok () app) :
    ∃ n, Transition.run (step lib) (initial metrics) (List.replicate n .construct) =
      some ⟨app, [], .subscribe⟩ := by
  unfold register at h
  unfold initial
  generalize App.initial = start at h ⊢
  induction metrics generalizing start with
  | nil =>
    cases h
    exact ⟨0, rfl⟩
  | cons m metrics ih =>
    obtain ⟨⟨⟩, next, hm, hrest⟩ := Loop.bind_ok.mp (Loop.forM_cons registerEntry m metrics ▸ h)
    obtain ⟨n, hn⟩ := @registerEntry_steps lib m metrics start next hm
    obtain ⟨k, hk⟩ := ih next hrest
    refine ⟨n + k, ?_⟩
    rw [← List.replicate_append_replicate]
    exact Transition.run_append.mpr ⟨_, hn, hk⟩

/-! ## What holds during start-up -/

/-- What the steps before this one did for the entry. -/
def Pending (lib : Libraries) (s : Startup) (e : Configuration) : Prop :=
  match s.phase with
  | .subscribe | .pushBack => True
  | .connect i => ∃ sub, s.app.client.subscriptions[i]? = some sub ∧ sub.topic = e.topic
  | .insert => ∀ topic, Matches lib e.topic topic →
      e.openMetric.name ∈ s.app.client.callbacks lib topic

structure Starting (lib : Libraries) (metrics : List Configuration) (s : Startup) : Prop where
  live : s.app.client.AllLive
  rest : ∀ e ∈ s.rest, e ∈ metrics
  /-- The callback of an inserted entry is connected. -/
  inserted : ∀ key config, s.app.configs.find? key = some config →
    config ∈ metrics ∧ config.topic = key ∧
      ∀ topic, Matches lib key topic → config.openMetric.name ∈ s.app.client.callbacks lib topic
  pending : ∀ e rest, s.rest = e :: rest → s.Pending lib e

theorem starting_initial (lib : Libraries) (metrics : List Configuration) :
    Starting lib metrics (initial metrics) where
  live := MosquittoClient.allLive_create
  rest _ he := he
  inserted _ _ h := by cases h
  pending _ _ _ := trivial

/-- A change of the client that keeps its callbacks keeps the inserted entries. -/
theorem Starting.setClient {lib : Libraries} {metrics : List Configuration} {s : Startup}
    (hs : Starting lib metrics s) {client : MosquittoClient Str} {phase : Phase}
    (hlive : client.AllLive)
    (hcallbacks : ∀ topic, s.app.client.callbacks lib topic ⊆ client.callbacks lib topic)
    (hpending : ∀ e rest, s.rest = e :: rest → (s.setClient client phase).Pending lib e) :
    Starting lib metrics (s.setClient client phase) where
  live := hlive
  rest := hs.rest
  inserted key config h := by
    obtain ⟨hmem, htopic, hheard⟩ := hs.inserted key config h
    exact ⟨hmem, htopic, fun topic hmatch => hcallbacks topic (hheard topic hmatch)⟩
  pending := hpending

theorem Starting.insert {lib : Libraries} {metrics : List Configuration} {s : Startup}
    (hs : Starting lib metrics s) {m : Configuration} {rest : List Configuration}
    (hrest : s.rest = m :: rest) {metric : MetricFamily} (hm : metric.config = m)
    (hheard : ∀ topic, Matches lib m.topic topic →
      m.openMetric.name ∈ s.app.client.callbacks lib topic) :
    Starting lib metrics ⟨s.app.insert m.topic metric, rest, .subscribe⟩ where
  live := hs.live
  rest e he := hs.rest e (hrest ▸ List.mem_cons_of_mem m he)
  inserted key config h := by
    rw [find?_configs, App.insert, OrderedMap.find?_emplace] at h
    split at h
    · rename_i hkey
      cases h
      obtain ⟨rfl, -⟩ := hkey
      rw [hm]
      exact ⟨hs.rest m (hrest ▸ List.mem_cons_self), rfl, hheard⟩
    · rw [← find?_configs] at h
      exact hs.inserted key config h
  pending _ _ _ := trivial

theorem construct_starting {lib : Libraries} {metrics : List Configuration} {s s' : Startup}
    (hs : Starting lib metrics s) (h : s.construct = some s') : Starting lib metrics s' := by
  obtain ⟨m, rest, hrest, hcases⟩ := construct_cases h
  have hpending := hs.pending m rest hrest
  have hhead : ∀ e xs, s.rest = e :: xs → e = m := by
    intro e xs he
    rw [hrest] at he
    exact (List.cons.inj he).1.symm
  obtain ⟨i, -, hsub, rfl⟩ | ⟨-, -, rfl⟩ | ⟨-, rfl⟩ | ⟨i, hphase, rfl⟩ |
    ⟨metric, hphase, hm, rfl⟩ := hcases
  · apply hs.setClient hs.live (fun _ => List.Subset.refl _)
    intro e xs he
    obtain rfl := hhead e xs he
    obtain ⟨hi, hp, -⟩ := List.findIdx?_eq_some_iff_getElem.mp hsub
    simp only [Bool.and_eq_true, decide_eq_true_eq] at hp
    exact ⟨_, List.getElem?_eq_getElem hi, hp.2⟩
  · exact hs.setClient hs.live (fun _ => List.Subset.refl _) fun _ _ _ => trivial
  · refine hs.setClient (MosquittoClient.allLive_pushBack hs.live m.topic) (fun topic => ?_)
      fun e xs he => ?_
    · rw [MosquittoClient.callbacks_pushBack]
      exact List.Subset.refl _
    · obtain rfl := hhead e xs he
      exact ⟨⟨e.topic, .create, true⟩, by simp [Startup.setClient, MosquittoClient.pushBack], rfl⟩
  · simp only [Pending, hphase] at hpending
    obtain ⟨sub, hsub, htopic⟩ := hpending
    have hperm := fun topic =>
      MosquittoClient.perm_callbacks_connect lib hsub m.openMetric.name topic
    refine hs.setClient (MosquittoClient.allLive_connect hs.live i _) (fun topic => ?_)
      fun e xs he topic hmatch => ?_
    · exact fun f hf => (hperm topic).mem_iff.mpr (List.mem_append_left _ hf)
    · obtain rfl := hhead e xs he
      rw [← htopic] at hmatch
      exact (hperm topic).mem_iff.mpr (List.mem_append_right _ (by simp [hmatch]))
  · simp only [Pending, hphase] at hpending
    obtain rfl := MetricFamily.create_ok hm
    exact hs.insert hrest rfl hpending

theorem step_starting {lib : Libraries} {metrics : List Configuration} {s s' : Startup}
    {a : Action} (hs : Starting lib metrics s) (h : step lib s a = some s') :
    Starting lib metrics s' := by
  cases a with
  | construct => exact construct_starting hs h
  | deliver m =>
    obtain ⟨app, hm, rfl⟩ := deliver_cases h
    obtain ⟨hclient, hconfigs⟩ := (onMessage_history hs.live hm).1
    refine ⟨hclient ▸ hs.live, hs.rest, fun key config hfind => ?_, fun e rest he => ?_⟩
    · simp only [hconfigs] at hfind
      simp only [hclient]
      exact hs.inserted key config hfind
    · have hpending := hs.pending e rest he
      simp only [Pending, hclient] at hpending ⊢
      exact hpending

/-! ## What was logged -/

theorem step_logged {lib : Libraries} {s s' : Startup} {a : Action} (hc : s.app.client.AllLive)
    (hl : Logged lib s.app) (h : step lib s a = some s') : Logged lib s'.app := by
  cases a with
  | construct =>
    obtain ⟨m, rest, -, hcases⟩ := construct_cases h
    obtain ⟨i, -, -, rfl⟩ | ⟨-, -, rfl⟩ | ⟨-, rfl⟩ | ⟨i, -, rfl⟩ | ⟨metric, -, hm, rfl⟩ := hcases
    · exact hl.setClient _
    · exact hl.setClient _
    · exact hl.setClient _
    · exact hl.setClient _
    · exact hl.insert hm m.topic
  | deliver m =>
    obtain ⟨app, hm, rfl⟩ := deliver_cases h
    exact hl.grows (onMessage_grows hc hm)

/-- In every interleaving each family is the run of its logged samples. -/
theorem logged {lib : Libraries} {metrics : List Configuration} {actions : List Action}
    {s : Startup} (h : Transition.run (step lib) (initial metrics) actions = some s) :
    Logged lib s.app := by
  refine (Transition.run_invariant (I := fun s => Starting lib metrics s ∧ Logged lib s.app)
    ?_ ⟨starting_initial lib metrics, logged_initial⟩ h).2
  rintro s a s' ⟨hs, hl⟩ hstep
  exact ⟨step_starting hs hstep, step_logged hs.live hl hstep⟩

/-! ## No message lost -/

/-- The SUBSCRIBE of an entry was sent and its filter matches. -/
def Awaits (lib : Libraries) (s : Startup) (m : Message) (e : Configuration) : Prop :=
  e.topic ∈ s.app.client.requests ∧ Matches lib e.topic m.topic

instance (lib : Libraries) (s : Startup) (m : Message) (e : Configuration) :
    Decidable (Awaits lib s m e) :=
  inferInstanceAs (Decidable (_ ∧ _))

/-- A delivered message is a sample in the family of every entry that awaits it. -/
def Delivered (lib : Libraries) (metrics : List Configuration) (s : Startup) : Action → Prop
  | .construct => True
  | .deliver m => ∀ s', step lib s (.deliver m) = some s' → ∀ e ∈ metrics, Awaits lib s m e →
      HasFamily s'.app e ∧ timesSampled s.app e.topic < timesSampled s'.app e.topic

/-- A message is delivered when every entry that awaits it was inserted. -/
def Ready (lib : Libraries) (metrics : List Configuration) (s : Startup) : Action → Prop
  | .construct => True
  | .deliver m => ∀ e ∈ metrics, Awaits lib s m e → s.app.metrics.contains e.topic = true

instance (lib : Libraries) (metrics : List Configuration) (s : Startup) (a : Action) :
    Decidable (Ready lib metrics s a) :=
  match a with
  | .construct => inferInstanceAs (Decidable True)
  | .deliver m => inferInstanceAs
      (Decidable (∀ e ∈ metrics, Awaits lib s m e → s.app.metrics.contains e.topic = true))

theorem deliver_ok {lib : Libraries} {m : Message} {s s' : Startup}
    (h : step lib s (.deliver m) = some s') :
    onMessage lib m s.app = .ok () s'.app := by
  obtain ⟨app, hm, rfl⟩ := deliver_cases h
  exact hm

/-- An inserted entry takes part in every message that it awaits. -/
theorem sampled_of_inserted {lib : Libraries} {metrics : List Configuration} {m : Message}
    {s s' : Startup} (hd : DistinctTopics metrics) (hs : Starting lib metrics s)
    (h : step lib s (.deliver m) = some s') {e : Configuration} (he : e ∈ metrics)
    (hmatch : Matches lib e.topic m.topic) (hin : s.app.metrics.contains e.topic = true) :
    HasFamily s'.app e ∧ timesSampled s.app e.topic < timesSampled s'.app e.topic := by
  have hok := deliver_ok h
  obtain ⟨metric, hm⟩ := Option.isSome_iff_exists.mp hin
  have hconfig : s.app.configs.find? e.topic = some metric.config := by
    rw [find?_configs, hm]
    rfl
  obtain ⟨hmem, htopic, hheard⟩ := hs.inserted e.topic metric.config hconfig
  have heq : metric.config = e := hd metric.config hmem e he htopic
  constructor
  · rw [← (onMessage_history hs.live hok).1.2, find?_configs] at hconfig
    obtain ⟨metric', hm', hc'⟩ := Option.map_eq_some_iff.mp hconfig
    exact ⟨metric', hm', hc'.trans heq⟩
  · have hcount := List.count_pos_iff.mpr (hheard m.topic hmatch)
    rw [timesSampled_callbacks hs.live hok hm, if_pos hmatch, MetricFamily.getBaseName]
    omega

theorem delivered_step {lib : Libraries} {metrics : List Configuration} {s s' : Startup}
    {a : Action} (hd : DistinctTopics metrics) (hs : Starting lib metrics s)
    (h : step lib s a = some s') : Delivered lib metrics s a ↔ Ready lib metrics s a := by
  cases a with
  | construct => exact Iff.rfl
  | deliver m =>
    constructor
    · intro hdelivered e he hawaits
      obtain ⟨-, hcount⟩ := hdelivered s' h e he hawaits
      by_contra hin
      have hnone : s.app.metrics.find? e.topic = none := by
        rw [OrderedMap.find?_eq_none, ← OrderedMap.contains_iff]
        exact hin
      rw [timesSampled_unregistered hs.live (deliver_ok h) hnone] at hcount
      omega
    · intro hready t ht e he hawaits
      exact sampled_of_inserted hd hs ht he hawaits.2 (hready e he hawaits)

/-- In any interleaving, no message is lost exactly when each is delivered after
the entries that await it were inserted. A counted sample is one that the family
went through, by `logged`. -/
theorem delivered_iff_ready (lib : Libraries) (metrics : List Configuration)
    (hd : DistinctTopics metrics) (actions : List Action) (s : Startup)
    (h : Transition.run (step lib) (initial metrics) actions = some s) :
    Transition.Meets (step lib) (Delivered lib metrics) (initial metrics) actions ↔
      Transition.Meets (step lib) (Ready lib metrics) (initial metrics) actions :=
  Transition.meets_congr (fun _ _ _ hs hstep => step_starting hs hstep)
    (fun _ _ _ hs hstep => delivered_step hd hs hstep) (starting_initial lib metrics) h

/-- A message between the steps for two entries. -/
theorem delivered_iff_ready_two :
    let metrics := [counterEntry "#" "all", counterEntry "a" "one"]
    Transition.Meets (step simpleLibraries) (Delivered simpleLibraries metrics) (initial metrics)
      [.construct, .construct, .construct, .construct, .deliver ⟨"a".toList, []⟩, .construct] := by
  intro metrics
  refine (delivered_iff_ready simpleLibraries metrics ?_ _ _ rfl).mpr (by decide)
  simp [DistinctTopics, metrics, counterEntry]

/-- A message right after SUBSCRIBE finds no callback and is lost. -/
theorem message_lost : ¬ ∀ lib metrics, DistinctTopics metrics → ∀ actions s,
    Transition.run (step lib) (initial metrics) actions = some s →
    Transition.Meets (step lib) (Delivered lib metrics) (initial metrics) actions := by
  intro h
  let metrics := [counterEntry "a" "n"]
  have hmeets := h simpleLibraries metrics (by simp [DistinctTopics, metrics])
    [.construct, .construct, .deliver ⟨"a".toList, []⟩] _ rfl
  have hdelivered := (hmeets.2 _ rfl).2 _ rfl
  have hcount := (hdelivered.1 _ rfl (counterEntry "a" "n") (by simp [metrics]) (by decide)).2
  revert hcount
  decide

end Startup

end MqttExporter
