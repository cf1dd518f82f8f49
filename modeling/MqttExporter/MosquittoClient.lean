import MqttExporter.Base.Loop
import MqttExporter.Configuration

/-!
# Subscriptions and incoming messages

The part of the client that an incoming message passes. A callback is what its
lambda captured, of a type `γ`.

* `callbacks`: what a message on a topic runs;
* `subscribe_connect`: what subscribing and connecting add to it.
-/

namespace MqttExporter

open Loop

structure Message where
  topic : Str
  payload : Str
  deriving DecidableEq

/-- `Zeeno::Signal`. The handle that `connect` returns is not kept, so a
connection is known to `m_functions` only and never disconnected. -/
structure Signal (γ : Type) where
  functions : List γ
  block : Bool
  deriving DecidableEq

namespace Signal

variable {γ σ : Type}

def create : Signal γ := ⟨[], false⟩

def connect (s : Signal γ) (f : γ) : Signal γ := { s with functions := s.functions ++ [f] }

def notify (s : Signal γ) (callback : γ → EStateM Error σ Unit) : EStateM Error σ Unit :=
  if s.block then pure () else s.functions.forM callback

end Signal

/-- `live`: someone still holds the subscription. -/
structure Subscription (γ : Type) where
  topic : Str
  onArrived : Signal γ
  live : Bool
  deriving DecidableEq

/-- `_subscriptions` with the subscription at the place of the weak reference to
it, and the filters of the SUBSCRIBE requests that were sent. -/
structure MosquittoClient (γ : Type) where
  subscriptions : List (Subscription γ)
  requests : List Str
  deriving DecidableEq

namespace MosquittoClient

variable {γ σ : Type}

def create : MosquittoClient γ := ⟨[], []⟩

def liveSubscriptions (c : MosquittoClient γ) : List (Subscription γ) :=
  c.subscriptions.filter fun s => s.live

def matchTopic (lib : Libraries) (subscription topic : Str) : Except Error Bool :=
  match lib.topicMatchesSub subscription topic with
  | (.inval, _) => .error (.mosquitto "Invalid input to matchTopic")
  | (.nomem, _) => .error (.mosquitto "Not enough memory for matchTopic")
  | (.success, ret) => .ok ret
  | (.other, _) => .error (.mosquitto "Unknown exception")

/-- The place of the live subscription to a topic. -/
def alreadySubscribed (c : MosquittoClient γ) (topic : Str) : Option Nat :=
  c.subscriptions.findIdx? fun s => s.live && s.topic = topic

/-- `mosquitto_subscribe`, whose result is ignored. -/
def sendSubscribe (c : MosquittoClient γ) (topic : Str) : MosquittoClient γ :=
  { c with requests := c.requests ++ [topic] }

/-- The new subscription is held by the caller. -/
def pushBack (c : MosquittoClient γ) (topic : Str) : MosquittoClient γ :=
  { c with subscriptions := c.subscriptions ++ [⟨topic, .create, true⟩] }

/-- The subscription is returned by its place. -/
def subscribe (c : MosquittoClient γ) (topic : Str) : Nat × MosquittoClient γ :=
  match c.alreadySubscribed topic with
  | some i => (i, c)
  | none => (c.subscriptions.length, (c.sendSubscribe topic).pushBack topic)

/-- `subscription->onArrived.connect`, for the subscription at a place. -/
def connect (c : MosquittoClient γ) (i : Nat) (f : γ) : MosquittoClient γ :=
  { c with subscriptions := c.subscriptions.modify i fun s =>
      { s with onArrived := s.onArrived.connect f } }

def onMessage (lib : Libraries) (c : MosquittoClient γ) (m : Message)
    (callback : γ → Message → EStateM Error σ Unit) : EStateM Error σ Unit :=
  c.liveSubscriptions.forM fun s => do
    if ← raise (matchTopic lib s.topic m.topic) then
      s.onArrived.notify fun f => callback f m

end MosquittoClient

/-! ## Matching -/

/-- The filter matches the topic, without an error. -/
def Matches (lib : Libraries) (filter topic : Str) : Prop :=
  MosquittoClient.matchTopic lib filter topic = .ok true

instance (lib : Libraries) (filter topic : Str) : Decidable (Matches lib filter topic) :=
  inferInstanceAs (Decidable (_ = _))

theorem matchTopic_ok {lib : Libraries} {filter topic : Str} {b : Bool}
    (h : MosquittoClient.matchTopic lib filter topic = .ok b) :
    b = decide (Matches lib filter topic) := by
  cases b with
  | true => exact (decide_eq_true (p := Matches lib filter topic) h).symm
  | false =>
    refine (decide_eq_false fun h' => ?_).symm
    rw [Matches, h] at h'
    cases h'

/-! ## What the callbacks are -/

namespace MosquittoClient

variable {γ σ : Type}

/-- Every subscription is held and none is blocked, as in this program. -/
def AllLive (c : MosquittoClient γ) : Prop :=
  ∀ s ∈ c.subscriptions, s.live = true ∧ s.onArrived.block = false

/-- The callbacks that a message on a topic runs, in order. -/
def callbacks (lib : Libraries) (c : MosquittoClient γ) (topic : Str) : List γ :=
  c.subscriptions.flatMap fun s => if Matches lib s.topic topic then s.onArrived.functions else []

theorem allLive_create : (create : MosquittoClient γ).AllLive := by
  intro s hs
  cases hs

theorem allLive_pushBack {c : MosquittoClient γ} (hc : c.AllLive) (topic : Str) :
    (c.pushBack topic).AllLive := by
  intro s hs
  rcases List.mem_append.mp hs with hs | hs
  · exact hc s hs
  · cases List.mem_singleton.mp hs
    exact ⟨rfl, rfl⟩

theorem allLive_connect {c : MosquittoClient γ} (hc : c.AllLive) (i : Nat) (f : γ) :
    (c.connect i f).AllLive := by
  intro s hs
  obtain ⟨j, hj⟩ := List.mem_iff_getElem?.mp hs
  rw [connect, List.getElem?_modify] at hj
  obtain ⟨t, ht, rfl⟩ := Option.map_eq_some_iff.mp hj
  have := hc t (List.mem_of_getElem? ht)
  split
  · exact ⟨this.1, this.2⟩
  · exact this

theorem callbacks_pushBack (lib : Libraries) (c : MosquittoClient γ) (filter topic : Str) :
    (c.pushBack filter).callbacks lib topic = c.callbacks lib topic := by
  simp [callbacks, pushBack, Signal.create]

/-- Connecting a callback adds it for the messages that the subscription matches. -/
theorem perm_callbacks_connect (lib : Libraries) {c : MosquittoClient γ} {i : Nat}
    {s : Subscription γ} (hs : c.subscriptions[i]? = some s) (f : γ) (topic : Str) :
    ((c.connect i f).callbacks lib topic).Perm
      (c.callbacks lib topic ++ if Matches lib s.topic topic then [f] else []) := by
  have hi := (List.getElem?_eq_some_iff.mp hs).1
  obtain ⟨xs, t, ys, hsplit, hlen, hmodify⟩ := List.exists_of_modify
    (fun s : Subscription γ => { s with onArrived := s.onArrived.connect f }) hi
  obtain rfl : t = s := by
    rw [hsplit, ← hlen] at hs
    simpa using hs
  have hconnect : (c.connect i f).subscriptions =
      xs ++ { t with onArrived := t.onArrived.connect f } :: ys := hmodify
  rw [callbacks, callbacks, hconnect, hsplit]
  simp only [List.flatMap_append, List.flatMap_cons, Signal.connect]
  split
  · simp only [List.append_assoc]
    exact (List.perm_append_comm.append_left _).append_left _
  · simp

theorem subscribe_spec (c : MosquittoClient γ) (topic : Str) :
    (∃ s, (c.subscribe topic).2.subscriptions[(c.subscribe topic).1]? = some s ∧ s.topic = topic) ∧
      (c.AllLive → (c.subscribe topic).2.AllLive) ∧
      ∀ lib t, (c.subscribe topic).2.callbacks lib t = c.callbacks lib t := by
  unfold subscribe
  cases h : c.alreadySubscribed topic with
  | some i =>
    obtain ⟨hi, hp, -⟩ := List.findIdx?_eq_some_iff_getElem.mp h
    simp only [Bool.and_eq_true, decide_eq_true_eq] at hp
    exact ⟨⟨_, List.getElem?_eq_getElem hi, hp.2⟩, id, fun _ _ => rfl⟩
  | none =>
    refine ⟨⟨⟨topic, .create, true⟩, ?_, rfl⟩, fun hc => allLive_pushBack hc topic, fun lib t => ?_⟩
    · simp [pushBack, sendSubscribe]
    · exact callbacks_pushBack lib (c.sendSubscribe topic) topic t

/-- Subscribing to a topic and connecting a callback there adds the callback for
the messages that the topic matches, and nothing else. -/
theorem subscribe_connect (c : MosquittoClient γ) (filter : Str) (f : γ) (hc : c.AllLive) :
    ((c.subscribe filter).2.connect (c.subscribe filter).1 f).AllLive ∧
      ∀ lib topic, (((c.subscribe filter).2.connect (c.subscribe filter).1 f).callbacks lib
        topic).Perm (c.callbacks lib topic ++ if Matches lib filter topic then [f] else []) := by
  obtain ⟨⟨s, hs, hst⟩, hlive, hcall⟩ := subscribe_spec c filter
  refine ⟨allLive_connect (hlive hc) _ f, fun lib topic => ?_⟩
  have h := perm_callbacks_connect lib hs f topic
  rwa [hst, hcall] at h

end MosquittoClient

end MqttExporter
