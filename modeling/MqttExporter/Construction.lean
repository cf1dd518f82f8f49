import Mathlib.Data.List.Dedup
import MqttExporter.Base.History
import MqttExporter.Connection
import MqttExporter.Registration

/-!
# What a constructed exporter has

`App`'s constructor connects, waits for the ticket and subscribes entry by
entry, while the broker answers as it likes. What `mosquitto_subscribe` returns
is looked at by nobody, so it is not part of the state.

* `accepted_iff_firstAnswer`: who triggers the ticket of the connection;
* `Subscribed`: the requests and subscriptions that the loop leaves;
* `finished_register`: a constructor that gets through is `App.register`;
* `working_iff`: when a constructor that gets on has what it waited for.
-/

namespace MqttExporter

open App Loop Transition

inductive ConstructionPhase where
  | start
  | waiting
  /-- In the loop over the configured metrics, or past it. -/
  | looping
  | failed (e : Error)
  deriving DecidableEq

/-- `rest` are the entries that are still to come, and `returned` the places of
the subscriptions that `subscribe` has returned. -/
structure Construction where
  connection : Connection
  app : App
  rest : List Configuration
  returned : List Nat
  phase : ConstructionPhase

inductive ConstructionAction where
  | connect (passwordSet connectAsync : Int)
  | network (e : NetworkEvent)
  | passWait
  | timeOut
  | subscribe

namespace Construction

def initial (metrics : List Configuration) : Construction :=
  ⟨.create, App.initial, metrics, [], .start⟩

/-- `connTicket->wait_for(5s)` returns in time when the ticket is triggered. -/
def ticketReady (s : Construction) : Bool :=
  match s.connection.connectTicket with
  | none => false
  | some ticket => ticket.waitFor

/-- One pass of the loop. -/
def subscribe (s : Construction) (m : Configuration) (rest : List Configuration) : Construction :=
  let returned := s.returned ++ [(s.app.client.subscribe m.topic).1]
  match registerEntry m s.app with
  | .ok _ app => { s with app := app, rest := rest, returned := returned }
  | .error e app => { s with app := app, rest := rest, returned := returned, phase := .failed e }

def step (strerror : Int → Str) (config : ServerConfiguration) (s : Construction) :
    ConstructionAction → Option Construction
  | .connect passwordSet connectAsync =>
    if s.phase = .start then
      match s.connection.connect strerror config passwordSet connectAsync with
      | .ok _ c => some { s with connection := c, phase := .waiting }
      | .error e c => some { s with connection := c, phase := .failed e }
    else none
  | .network e => (s.connection.network e).map fun c => { s with connection := c }
  | .passWait =>
    if s.phase = .waiting ∧ s.ticketReady = true then some { s with phase := .looping } else none
  | .timeOut =>
    if s.phase = .waiting ∧ s.ticketReady = false then
      some { s with phase := .failed (.runtime "Could not connect to the server in 5s") }
    else none
  | .subscribe =>
    match s.phase, s.rest with
    | .looping, m :: rest => some (s.subscribe m rest)
    | _, _ => none

/-- The loop over the configured metrics is through. -/
def Finished (s : Construction) : Prop := s.phase = .looping ∧ s.rest = []

variable {strerror : Int → Str} {config : ServerConfiguration}

/-- What a step can do. -/
theorem step_cases {s s' : Construction} {a : ConstructionAction}
    (h : step strerror config s a = some s') :
    (∃ p r c phase, a = .connect p r ∧ s.phase = .start ∧ phase ≠ .start ∧
      s' = { s with connection := c, phase := phase } ∧ c.connectTicket = some .create) ∨
    (∃ e c, a = .network e ∧ s.connection.network e = some c ∧ s' = { s with connection := c }) ∨
    (∃ phase, (a = .passWait ∨ a = .timeOut) ∧ s.phase = .waiting ∧ phase ≠ .start ∧
      s' = { s with phase := phase }) ∨
    (∃ m rest, a = .subscribe ∧ s.phase = .looping ∧ s.rest = m :: rest ∧
      s' = s.subscribe m rest) := by
  cases a with
  | connect p r =>
    simp only [step] at h
    split at h
    · rename_i hphase
      rcases Connection.connect_spec strerror config p r s.connection with hc | ⟨what, hc⟩
      · rw [hc] at h
        cases h
        exact Or.inl ⟨p, r, _, _, rfl, hphase, by simp, rfl, rfl⟩
      · rw [hc] at h
        cases h
        exact Or.inl ⟨p, r, _, _, rfl, hphase, by simp, rfl, rfl⟩
    · cases h
  | network e =>
    obtain ⟨c, hc, rfl⟩ := Option.map_eq_some_iff.mp h
    exact Or.inr (Or.inl ⟨e, c, rfl, hc, rfl⟩)
  | passWait =>
    simp only [step] at h
    split at h
    · rename_i hphase
      cases h
      exact Or.inr (Or.inr (Or.inl ⟨_, Or.inl rfl, hphase.1, by simp, rfl⟩))
    · cases h
  | timeOut =>
    simp only [step] at h
    split at h
    · rename_i hphase
      cases h
      exact Or.inr (Or.inr (Or.inl ⟨_, Or.inr rfl, hphase.1, by simp, rfl⟩))
    · cases h
  | subscribe =>
    simp only [step] at h
    split at h
    · rename_i m rest hphase hrest
      cases h
      exact Or.inr (Or.inr (Or.inr ⟨m, rest, rfl, hphase, hrest, rfl⟩))
    · cases h

theorem subscribe_spec (s : Construction) (m : Configuration) (rest : List Configuration) :
    (s.subscribe m rest).connection = s.connection ∧
      (s.subscribe m rest).app.client = (s.app.connected m).client ∧
      (s.subscribe m rest).rest = rest ∧
      (s.subscribe m rest).returned = s.returned ++ [(s.app.client.subscribe m.topic).1] ∧
      ((s.subscribe m rest).phase = s.phase ∨ ∃ e, (s.subscribe m rest).phase = .failed e) := by
  unfold subscribe
  rw [registerEntry_eq]
  cases MetricFamily.create m with
  | error e => exact ⟨rfl, rfl, rfl, rfl, Or.inr ⟨e, rfl⟩⟩
  | ok metric => exact ⟨rfl, rfl, rfl, rfl, Or.inl rfl⟩

/-! ## The ticket of the connection -/

/-- The answer that triggered the ticket accepted the connection. -/
def Accepted (strerror : Int → Str) (config : ServerConfiguration) (metrics : List Configuration)
    (actions : List ConstructionAction) : Prop :=
  ∃ before after s, actions = before ++ .network (.onConnected 0) :: after ∧
    run (step strerror config) (initial metrics) before = some s ∧
    s.connection.connectTicket = some ⟨false⟩

/-- The first answer of the broker has the code `rc`. -/
def FirstAnswer (rc : Int) (actions : List ConstructionAction) : Prop :=
  ∃ before after, actions = before ++ .network (.onConnected rc) :: after ∧
    ∀ rc', .network (.onConnected rc') ∉ before

/-- Nothing comes of the network before it is asked for a connection; after that
the ticket tells whether the broker has answered. -/
structure TicketTells (as : List ConstructionAction) (s : Construction) : Prop where
  start : s.phase = .start → s.connection.requested = false ∧ s.connection.up = false ∧
    ∀ rc, .network (.onConnected rc) ∉ as
  asked : s.phase ≠ .start → ∃ ticket, s.connection.connectTicket = some ticket ∧
    (ticket.ready = true ↔ ∃ rc, .network (.onConnected rc) ∈ as)

theorem ticketTells_network {as : List ConstructionAction} {s : Construction} {e : NetworkEvent}
    {c : Connection} (hs : TicketTells as s) (h : s.connection.network e = some c) :
    TicketTells (as ++ [.network e]) { s with connection := c } := by
  constructor
  · intro hstart
    obtain ⟨hrequested, hup, hnone⟩ := hs.start hstart
    cases e with
    | established =>
      simp only [Connection.network, hrequested] at h
      cases h
    | onConnected rc =>
      simp only [Connection.network, hup] at h
      cases h
    | lost =>
      cases h
      exact ⟨hrequested, rfl, by simp [hnone]⟩
    | onDisconnected reason =>
      cases h
      exact ⟨hrequested, hup, by simp [hnone]⟩
  · intro hasked
    obtain ⟨ticket, hticket, hready⟩ := hs.asked hasked
    cases e with
    | established =>
      simp only [Connection.network] at h
      split at h
      · cases h
        exact ⟨ticket, hticket, by simp [hready]⟩
      · cases h
    | onConnected rc =>
      simp only [Connection.network] at h
      split at h
      · cases h
        exact ⟨ticket.trigger, by simp [Connection.onConnected, hticket], by simp⟩
      · cases h
    | lost =>
      cases h
      exact ⟨ticket, hticket, by simp [hready]⟩
    | onDisconnected reason =>
      cases h
      exact ⟨ticket, hticket, by simp [hready]⟩

theorem ticketTells_step {as : List ConstructionAction} {s s' : Construction}
    {a : ConstructionAction} (hs : TicketTells as s) (h : step strerror config s a = some s') :
    TicketTells (as ++ [a]) s' := by
  rcases step_cases h with ⟨p, r, c, phase, rfl, hstart, hphase, rfl, hticket⟩ |
    ⟨e, c, rfl, hc, rfl⟩ | ⟨phase, ha, hwait, hphase, rfl⟩ | ⟨m, rest, rfl, hloop, -, rfl⟩
  · refine ⟨fun h => absurd h hphase, fun _ => ⟨_, hticket, ?_⟩⟩
    simp [Ticket.create, (hs.start hstart).2.2]
  · exact ticketTells_network hs hc
  · obtain ⟨ticket, hticket, hready⟩ := hs.asked (by simp [hwait])
    refine ⟨fun h => absurd h hphase, fun _ => ⟨ticket, hticket, ?_⟩⟩
    rw [hready]
    rcases ha with rfl | rfl <;> simp
  · obtain ⟨ticket, hticket, hready⟩ := hs.asked (by simp [hloop])
    obtain ⟨hconnection, -, -, -, hphase⟩ := subscribe_spec s m rest
    refine ⟨fun h => ?_, fun _ => ⟨ticket, hconnection ▸ hticket, by simp [hready]⟩⟩
    rcases hphase with hp | ⟨e, hp⟩
    · rw [hp, hloop] at h
      cases h
    · rw [hp] at h
      cases h

theorem ticketTells {metrics : List Configuration} {actions : List ConstructionAction}
    {s : Construction} (h : run (step strerror config) (initial metrics) actions = some s) :
    TicketTells actions s := by
  refine history_induction (P := TicketTells) ?_ (fun _ _ _ _ _ hs => ticketTells_step hs) h
  exact ⟨fun _ => ⟨rfl, rfl, fun _ => List.not_mem_nil⟩, fun h => absurd rfl h⟩

/-- The ticket is triggered by the first answer, whatever it is. -/
theorem accepted_iff_firstAnswer {metrics : List Configuration}
    {actions : List ConstructionAction} {s : Construction}
    (h : run (step strerror config) (initial metrics) actions = some s) :
    Accepted strerror config metrics actions ↔ FirstAnswer 0 actions := by
  constructor
  · rintro ⟨before, after, t, rfl, ht, hticket⟩
    refine ⟨before, after, rfl, fun rc hmem => ?_⟩
    have htells := ticketTells ht
    by_cases hstart : t.phase = .start
    · exact (htells.start hstart).2.2 rc hmem
    · obtain ⟨ticket, hticket', hready⟩ := htells.asked hstart
      rw [hticket] at hticket'
      cases hticket'
      cases hready.mpr ⟨rc, hmem⟩
  · rintro ⟨before, after, rfl, hnone⟩
    obtain ⟨t, ht, hrest⟩ := run_append.mp h
    obtain ⟨t', hstep, -⟩ := run_cons.mp hrest
    refine ⟨before, after, t, rfl, ht, ?_⟩
    have htells := ticketTells ht
    have hasked : t.phase ≠ .start := by
      intro hstart
      simp only [step, Connection.network, (htells.start hstart).2.1] at hstep
      cases hstep
    obtain ⟨⟨ready⟩, hticket, hready⟩ := htells.asked hasked
    cases ready with
    | false => exact hticket
    | true =>
      obtain ⟨rc, hmem⟩ := hready.mp rfl
      exact absurd hmem (hnone rc)

/-! ## The subscriptions of the loop -/

/-- What the loop leaves for the entries `done`: one request and one live
subscription for each of their topics, all of them returned. -/
structure Subscribed (done : List Configuration) (client : MosquittoClient Str)
    (returned : List Nat) : Prop where
  live : client.AllLive
  requests : client.requests = client.subscriptions.map Subscription.topic
  nodup : client.requests.Nodup
  topics : ∀ t, t ∈ client.requests ↔ t ∈ done.map Configuration.topic
  returned : ∀ i, i ∈ returned ↔ i < client.subscriptions.length

theorem subscribed_connect {done : List Configuration} {client : MosquittoClient Str}
    {returned : List Nat} (hs : Subscribed done client returned) (i : Nat) (omName : Str) :
    Subscribed done (client.connect i omName) returned where
  live := MosquittoClient.allLive_connect hs.live i omName
  requests := by
    rw [MosquittoClient.connect, hs.requests]
    apply List.ext_getElem?
    intro j
    rw [List.getElem?_map, List.getElem?_map, List.getElem?_modify]
    cases client.subscriptions[j]? with
    | none => rfl
    | some s => by_cases hj : i = j <;> simp [hj]
  nodup := hs.nodup
  topics := hs.topics
  returned j := by
    rw [hs.returned j, MosquittoClient.connect, List.length_modify]

theorem subscribed_subscribe {done : List Configuration} {client : MosquittoClient Str}
    {returned : List Nat} (hs : Subscribed done client returned) (m : Configuration) :
    Subscribed (done ++ [m]) (client.subscribe m.topic).2
      (returned ++ [(client.subscribe m.topic).1]) := by
  unfold MosquittoClient.subscribe
  cases hfind : client.alreadySubscribed m.topic with
  | some i =>
    obtain ⟨hi, hp, -⟩ := List.findIdx?_eq_some_iff_getElem.mp hfind
    simp only [Bool.and_eq_true, decide_eq_true_eq] at hp
    have hmem : m.topic ∈ client.requests := by
      rw [hs.requests, ← hp.2]
      exact List.mem_map_of_mem (List.getElem_mem hi)
    refine ⟨hs.live, hs.requests, hs.nodup, fun t => ?_, fun j => ?_⟩
    · rw [List.map_append, List.mem_append, ← hs.topics t, List.map_singleton, List.mem_singleton]
      exact ⟨Or.inl, fun h => h.elim id fun ht => ht ▸ hmem⟩
    · rw [List.mem_append, hs.returned j, List.mem_singleton]
      exact ⟨fun h => h.elim id fun hj => hj ▸ hi, Or.inl⟩
  | none =>
    have hnew : m.topic ∉ client.requests := by
      rw [hs.requests]
      intro hmem
      obtain ⟨s, hsub, htopic⟩ := List.mem_map.mp hmem
      have := List.findIdx?_eq_none_iff.mp hfind s hsub
      simp [(hs.live s hsub).1, htopic] at this
    refine ⟨MosquittoClient.allLive_pushBack (c := client.sendSubscribe m.topic) hs.live m.topic,
      ?_, ?_, fun t => ?_, fun j => ?_⟩
    · simp [MosquittoClient.pushBack, MosquittoClient.sendSubscribe, hs.requests]
    · exact List.nodup_append'.mpr ⟨hs.nodup, List.nodup_singleton _, by simpa using hnew⟩
    · simp [MosquittoClient.pushBack, MosquittoClient.sendSubscribe, hs.topics t]
    · simp only [MosquittoClient.pushBack, MosquittoClient.sendSubscribe, List.mem_append,
        hs.returned j, List.mem_singleton, List.length_append, List.length_singleton]
      omega

/-- The entries that the loop has gone through are subscribed. -/
def LoopDone (metrics : List Configuration) (s : Construction) : Prop :=
  ∃ done, metrics = done ++ s.rest ∧ Subscribed done s.app.client s.returned

theorem loopDone {metrics : List Configuration} {actions : List ConstructionAction}
    {s : Construction} (h : run (step strerror config) (initial metrics) actions = some s) :
    LoopDone metrics s := by
  refine run_invariant (I := LoopDone metrics) ?_ ?_ h
  · rintro s a s' ⟨done, hmetrics, hdone⟩ hstep
    rcases step_cases hstep with ⟨-, -, -, -, -, -, -, rfl, -⟩ | ⟨-, -, -, -, rfl⟩ |
      ⟨-, -, -, -, rfl⟩ | ⟨m, rest, -, -, hrest, rfl⟩
    · exact ⟨done, hmetrics, hdone⟩
    · exact ⟨done, hmetrics, hdone⟩
    · exact ⟨done, hmetrics, hdone⟩
    · obtain ⟨-, hclient, hrest', hreturned, -⟩ := subscribe_spec s m rest
      refine ⟨done ++ [m], by rw [hmetrics, hrest, hrest', List.append_assoc]; rfl, ?_⟩
      rw [hclient, hreturned]
      exact subscribed_connect (subscribed_subscribe hdone m) _ _
  · refine ⟨[], rfl, MosquittoClient.allLive_create, rfl, List.nodup_nil, fun t => Iff.rfl,
      fun i => ?_⟩
    simp [initial, App.initial, MosquittoClient.create]

theorem subscribe_ok {s : Construction} {m : Configuration} {rest : List Configuration}
    (h : ∀ e, (s.subscribe m rest).phase ≠ .failed e) :
    registerEntry m s.app = .ok () (s.subscribe m rest).app := by
  unfold subscribe at h ⊢
  cases hm : registerEntry m s.app with
  | ok _ app => rfl
  | error e app =>
    simp only [hm] at h
    exact absurd rfl (h e)

/-- A constructor that got through the loop has registered its entries. -/
theorem finished_register {metrics : List Configuration} {actions : List ConstructionAction}
    {s : Construction} (h : run (step strerror config) (initial metrics) actions = some s)
    (hf : s.Finished) : register metrics App.initial = .ok () s.app := by
  have hdone : ∃ done, metrics = done ++ s.rest ∧
      ((∀ e, s.phase ≠ .failed e) → register done App.initial = .ok () s.app) := by
    refine run_invariant (I := fun s => ∃ done, metrics = done ++ s.rest ∧
      ((∀ e, s.phase ≠ .failed e) → register done App.initial = .ok () s.app)) ?_
      ⟨[], rfl, fun _ => rfl⟩ h
    rintro s a s' ⟨done, hmetrics, hreg⟩ hstep
    rcases step_cases hstep with ⟨-, -, -, -, -, hstart, -, rfl, -⟩ | ⟨-, -, -, -, rfl⟩ |
      ⟨-, -, hwait, -, rfl⟩ | ⟨m, rest, -, hloop, hrest, rfl⟩
    · exact ⟨done, hmetrics, fun _ => hreg (by simp [hstart])⟩
    · exact ⟨done, hmetrics, hreg⟩
    · exact ⟨done, hmetrics, fun _ => hreg (by simp [hwait])⟩
    · refine ⟨done ++ [m], ?_, fun hphase => ?_⟩
      · rw [hmetrics, hrest, (subscribe_spec s m rest).2.2.1, List.append_assoc]
        rfl
      · have hdone : done.forM registerEntry App.initial = .ok () s.app := hreg (by simp [hloop])
        rw [register, forM_append]
        exact bind_ok.mpr ⟨⟨⟩, s.app, hdone, bind_ok.mpr ⟨⟨⟩, _, subscribe_ok hphase, rfl⟩⟩
  obtain ⟨done, hmetrics, hreg⟩ := hdone
  obtain rfl : metrics = done := by rw [hmetrics, hf.2, List.append_nil]
  exact hreg (by simp [hf.1])

/-- A subscription that was returned is backed when a request for its topic was
answered with success; `rets i` is what the i-th `mosquitto_subscribe` returns. -/
def Backed (rets : Nat → Int) (client : MosquittoClient Str) (place : Nat) : Prop :=
  ∃ s, client.subscriptions[place]? = some s ∧
    ∃ i, client.requests[i]? = some s.topic ∧ rets i = 0

theorem Subscribed.backed_iff {done : List Configuration} {client : MosquittoClient Str}
    {returned : List Nat} (hs : Subscribed done client returned) (rets : Nat → Int) {place : Nat}
    (hplace : place < client.subscriptions.length) : Backed rets client place ↔ rets place = 0 := by
  have hrequest : client.requests[place]? = some client.subscriptions[place].topic := by
    rw [hs.requests, List.getElem?_map, List.getElem?_eq_getElem hplace]
    rfl
  constructor
  · rintro ⟨s, hsub, i, hi, hret⟩
    rw [List.getElem?_eq_getElem hplace] at hsub
    cases hsub
    obtain ⟨hlt, -⟩ := List.getElem?_eq_some_iff.mp hi
    rwa [← (List.getElem?_inj hlt hs.nodup).mp (hi.trans hrequest.symm)]
  · intro hret
    exact ⟨_, List.getElem?_eq_getElem hplace, place, hrequest, hret⟩

/-- There are as many requests as topics. -/
theorem Subscribed.length_requests {done : List Configuration} {client : MosquittoClient Str}
    {returned : List Nat} (hs : Subscribed done client returned) :
    client.subscriptions.length = (done.map Configuration.topic).dedup.length := by
  have hperm : client.requests.Perm (done.map Configuration.topic).dedup := by
    rw [List.perm_ext_iff_of_nodup hs.nodup (List.nodup_dedup _)]
    intro t
    rw [hs.topics t, List.mem_dedup]
  rw [← hperm.length_eq, hs.requests, List.length_map]

/-! ## A working exporter -/

/-- A constructor that got past the wait was accepted by the broker, and one
that got through the loop was granted every subscription it was given. -/
structure Working (strerror : Int → Str) (config : ServerConfiguration)
    (metrics : List Configuration) (rets : Nat → Int) (actions : List ConstructionAction)
    (s : Construction) : Prop where
  accepted : .passWait ∈ actions → Accepted strerror config metrics actions
  backed : s.Finished → ∀ place ∈ s.returned, Backed rets s.app.client place

/-- The constructor notices nothing, so it is up to the answers. -/
theorem working_iff (strerror : Int → Str) (config : ServerConfiguration)
    (metrics : List Configuration) (rets : Nat → Int) (actions : List ConstructionAction)
    (s : Construction) (h : run (step strerror config) (initial metrics) actions = some s) :
    Working strerror config metrics rets actions s ↔
      (.passWait ∈ actions → FirstAnswer 0 actions) ∧
      (s.Finished → ∀ i < (metrics.map Configuration.topic).dedup.length, rets i = 0) := by
  have hbacked : s.Finished → ((∀ place ∈ s.returned, Backed rets s.app.client place) ↔
      ∀ i < (metrics.map Configuration.topic).dedup.length, rets i = 0) := by
    rintro ⟨-, hrest⟩
    obtain ⟨done, hmetrics, hs⟩ := loopDone h
    obtain rfl : metrics = done := by rw [hmetrics, hrest, List.append_nil]
    rw [← hs.length_requests]
    constructor
    · intro hall i hi
      exact (hs.backed_iff rets hi).mp (hall i ((hs.returned i).mpr hi))
    · intro hall i hi
      have hlt := (hs.returned i).mp hi
      exact (hs.backed_iff rets hlt).mpr (hall i hlt)
  have haccepted := accepted_iff_firstAnswer h
  constructor
  · rintro ⟨haccept, hback⟩
    exact ⟨fun hpass => haccepted.mp (haccept hpass), fun hf => (hbacked hf).mp (hback hf)⟩
  · rintro ⟨hfirst, hrets⟩
    exact ⟨fun hpass => haccepted.mpr (hfirst hpass), fun hf => (hbacked hf).mpr (hrets hf)⟩

/-- Three entries on two topics, with a broker that accepts everything. -/
theorem working_three : ∃ s, run (step (fun _ => []) ⟨1883, "localhost".toList, [], []⟩)
      (initial [counterEntry "a" "one", counterEntry "a" "two", counterEntry "b" "three"])
      [.connect 0 0, .network .established, .network (.onConnected 0), .passWait, .subscribe,
        .subscribe, .subscribe] = some s ∧
    Working (fun _ => []) ⟨1883, "localhost".toList, [], []⟩
      [counterEntry "a" "one", counterEntry "a" "two", counterEntry "b" "three"] (fun _ => 0)
      [.connect 0 0, .network .established, .network (.onConnected 0), .passWait, .subscribe,
        .subscribe, .subscribe] s :=
  ⟨_, rfl, (working_iff _ _ _ _ _ _ rfl).mpr
    ⟨fun _ => ⟨[.connect 0 0, .network .established], _, rfl, by simp⟩, fun _ _ _ => rfl⟩⟩

/-- The broker refuses the connection, and the constructor goes on without one. -/
theorem refused_goes_on : ¬ ∀ strerror config metrics rets actions s,
    run (step strerror config) (initial metrics) actions = some s →
    Working strerror config metrics rets actions s := by
  intro h
  have hworking := h (fun _ => []) ⟨1883, "localhost".toList, [], []⟩ [counterEntry "a" "one"]
    (fun _ => 4) [.connect 0 0, .network .established, .network (.onConnected 5),
      .network .lost, .passWait, .subscribe] _ rfl
  obtain ⟨before, after, t, hsplit, -⟩ := hworking.accepted (by simp)
  have hmem : ConstructionAction.network (.onConnected 0) ∈ before ++ _ :: after :=
    List.mem_append_right _ List.mem_cons_self
  rw [← hsplit] at hmem
  simp at hmem

end Construction

end MqttExporter
