import MqttExporter.Base.Transition
import MqttExporter.MosquittoClient

/-!
# Subscriptions that come and go

The client keeps weak references. A caller of `subscribe` holds a handle, and a
subscription expires with its last handle; its place in the list stays.

* `run_sound`: of the live subscriptions no two have one topic;
* `subscribe_found`, `subscribe_new`: what `subscribe` does in either case;
* `onMessage_arrives`: a message runs `onArrived` on the live subscriptions that
  it matches, in turn and at most once on each, up to the first that raises.
-/

namespace MqttExporter

open Loop

namespace MosquittoClient

variable {γ σ : Type}

/-- The last handle to the subscription at a place is gone. -/
def expire (c : MosquittoClient γ) (i : Nat) : MosquittoClient γ :=
  { c with subscriptions := c.subscriptions.modify i fun s => { s with live := false } }

/-- The subscription at a place is live and has the topic. -/
def LiveAt (c : MosquittoClient γ) (i : Nat) (topic : Str) : Prop :=
  ∃ s, c.subscriptions[i]? = some s ∧ s.live = true ∧ s.topic = topic

theorem LiveAt.lt {c : MosquittoClient γ} {i : Nat} {topic : Str} (h : c.LiveAt i topic) :
    i < c.subscriptions.length := by
  obtain ⟨s, hs, -⟩ := h
  exact (List.getElem?_eq_some_iff.mp hs).1

theorem liveAt_connect (c : MosquittoClient γ) (i : Nat) (f : γ) (j : Nat) (topic : Str) :
    (c.connect i f).LiveAt j topic ↔ c.LiveAt j topic := by
  unfold LiveAt connect
  rw [List.getElem?_modify]
  cases c.subscriptions[j]? with
  | none => simp
  | some s => by_cases h : i = j <;> simp [h]

theorem liveAt_expire (c : MosquittoClient γ) (i j : Nat) (topic : Str) :
    (c.expire i).LiveAt j topic ↔ j ≠ i ∧ c.LiveAt j topic := by
  unfold LiveAt expire
  rw [List.getElem?_modify]
  by_cases h : i = j
  · subst h
    cases c.subscriptions[i]? <;> simp
  · have hne : j ≠ i := Ne.symm h
    cases c.subscriptions[j]? <;> simp [h, hne]

theorem liveAt_pushBack (c : MosquittoClient γ) (new topic : Str) (j : Nat) :
    ((c.sendSubscribe new).pushBack new).LiveAt j topic ↔
      c.LiveAt j topic ∨ (j = c.subscriptions.length ∧ topic = new) := by
  unfold LiveAt pushBack sendSubscribe
  rcases Nat.lt_trichotomy j c.subscriptions.length with h | h | h
  · rw [List.getElem?_append_left h]
    simp [h.ne]
  · subst h
    rw [List.getElem?_concat_length, List.getElem?_eq_none le_rfl]
    constructor
    · rintro ⟨s, hs, -, rfl⟩
      cases hs
      exact Or.inr ⟨rfl, rfl⟩
    · rintro (⟨s, hs, -⟩ | ⟨-, rfl⟩)
      · cases hs
      · exact ⟨_, rfl, rfl, rfl⟩
  · have hlen : (c.subscriptions ++ [(⟨new, .create, true⟩ : Subscription γ)]).length ≤ j := by
      rw [List.length_append]
      exact h
    rw [List.getElem?_eq_none hlen, List.getElem?_eq_none h.le]
    have hne : j ≠ c.subscriptions.length := by omega
    simp only [hne, reduceCtorEq, false_and, exists_false, or_self]

/-- No two live subscriptions have one topic. -/
def Unique (c : MosquittoClient γ) : Prop :=
  ∀ i j topic, c.LiveAt i topic → c.LiveAt j topic → i = j

theorem alreadySubscribed_some {c : MosquittoClient γ} {i : Nat} {topic : Str}
    (h : c.alreadySubscribed topic = some i) : c.LiveAt i topic := by
  obtain ⟨hlt, hp, -⟩ := List.findIdx?_eq_some_iff_getElem.mp h
  simp only [Bool.and_eq_true, decide_eq_true_eq] at hp
  exact ⟨_, List.getElem?_eq_getElem hlt, hp.1, hp.2⟩

theorem alreadySubscribed_none {c : MosquittoClient γ} {topic : Str}
    (h : c.alreadySubscribed topic = none) (i : Nat) : ¬ c.LiveAt i topic := by
  rintro ⟨s, hget, hl, ht⟩
  have hnone := List.findIdx?_eq_none_iff.mp h s (List.mem_of_getElem? hget)
  simp [hl, ht] at hnone

/-- A live subscription is returned as it is, without a request. -/
theorem subscribe_found {c : MosquittoClient γ} (hc : c.Unique) {i : Nat} {topic : Str}
    (h : c.LiveAt i topic) : c.subscribe topic = (i, c) := by
  cases hj : c.alreadySubscribed topic with
  | some j => rw [subscribe, hj, hc j i topic (alreadySubscribed_some hj) h]
  | none => exact absurd h (alreadySubscribed_none hj i)

/-- Without one, one subscription is made and one request is sent. -/
theorem subscribe_new {c : MosquittoClient γ} {topic : Str} (h : ∀ i, ¬ c.LiveAt i topic) :
    c.subscribe topic = (c.subscriptions.length, (c.sendSubscribe topic).pushBack topic) := by
  cases hj : c.alreadySubscribed topic with
  | some j => exact absurd (alreadySubscribed_some hj) (h j)
  | none => rw [subscribe, hj]

/-! ## Messages -/

/-- The live subscriptions that match a topic, each with its place. -/
def receivers (c : MosquittoClient γ) (topicMatches : Str → Str → Bool) (topic : Str) :
    List (Subscription γ × Nat) :=
  c.subscriptions.zipIdx.filter fun x => x.1.live && topicMatches x.1.topic topic

theorem mem_receivers {c : MosquittoClient γ} {topicMatches : Str → Str → Bool} {topic : Str}
    {s : Subscription γ} {i : Nat} : (s, i) ∈ c.receivers topicMatches topic ↔
      c.subscriptions[i]? = some s ∧ s.live = true ∧ topicMatches s.topic topic = true := by
  rw [receivers, List.mem_filter, List.mk_mem_zipIdx_iff_getElem?, Bool.and_eq_true]

/-- The receivers stand in the order of the list. -/
theorem sorted_receivers (c : MosquittoClient γ) (topicMatches : Str → Str → Bool) (topic : Str) :
    ((c.receivers topicMatches topic).map Prod.snd).Pairwise (· < ·) := by
  have hall : (c.subscriptions.zipIdx.map Prod.snd).Pairwise (· < ·) := by
    rw [List.zipIdx_map_snd]
    exact List.pairwise_lt_range'
  exact hall.sublist (List.filter_sublist.map Prod.snd)

/-- The loop of `onMessage`, with a way to run the `onArrived` of the
subscription at a place. -/
def onMessageBy (lib : Libraries) (c : MosquittoClient γ) (m : Message)
    (arrived : Subscription γ × Nat → EStateM Error σ Unit) : EStateM Error σ Unit :=
  (c.subscriptions.zipIdx.filter fun x => x.1.live).forM fun x => do
    if ← raise (matchTopic lib x.1.topic m.topic) then arrived x

theorem onMessage_by (lib : Libraries) (c : MosquittoClient γ) (m : Message)
    (callback : γ → Message → EStateM Error σ Unit) :
    c.onMessage lib m callback =
      c.onMessageBy lib m fun x => x.1.onArrived.notify fun f => callback f m := by
  have hlive : (c.subscriptions.zipIdx.filter fun x => x.1.live).map Prod.fst =
      c.liveSubscriptions := by
    rw [liveSubscriptions]
    conv_rhs => rw [← List.zipIdx_map_fst 0 c.subscriptions, List.filter_map]
    rfl
  rw [onMessage, ← hlive, forM_map]
  rfl

/-- The loop comes to each receiver in turn. -/
theorem onMessageBy_receivers {lib : Libraries} {topicMatches : Str → Str → Bool}
    (hmatch : ∀ filter topic, matchTopic lib filter topic = .ok (topicMatches filter topic))
    (c : MosquittoClient γ) (m : Message)
    (arrived : Subscription γ × Nat → EStateM Error σ Unit) :
    c.onMessageBy lib m arrived = (c.receivers topicMatches m.topic).forM arrived := by
  have hsplit : c.receivers topicMatches m.topic =
      (c.subscriptions.zipIdx.filter fun x => x.1.live).filter
        fun x => topicMatches x.1.topic m.topic := by
    rw [receivers, List.filter_filter]
    congr 1
    funext x
    exact Bool.and_comm _ _
  rw [hsplit, forM_filter, onMessageBy]
  congr 1
  funext x
  simp only [hmatch]
  rfl

/-- `onMessage`, with a note of the place of each subscription whose `onArrived`
it runs. -/
def onMessageNoting (lib : Libraries) (c : MosquittoClient γ) (m : Message)
    (callback : γ → Message → EStateM Error σ Unit) : EStateM Error (List Nat × σ) Unit :=
  c.onMessageBy lib m fun x => noting x.2 (x.1.onArrived.notify fun f => callback f m)

/-- The places whose `onArrived` the message runs, in the order in which it does. -/
def arrivals (lib : Libraries) (c : MosquittoClient γ) (m : Message)
    (callback : γ → Message → EStateM Error σ Unit) (t : σ) : List Nat :=
  (final (c.onMessageNoting lib m callback ([], t))).1

/-- The subscription at a place is live and matches the topic. -/
def Receives (c : MosquittoClient γ) (topicMatches : Str → Str → Bool) (topic : Str) (i : Nat) :
    Prop :=
  ∃ s, c.subscriptions[i]? = some s ∧ s.live = true ∧ topicMatches s.topic topic = true

/-- What the handling of a message does with the subscriptions. -/
structure Arrives (lib : Libraries) (topicMatches : Str → Str → Bool) (c : MosquittoClient γ)
    (m : Message) (callback : γ → Message → EStateM Error σ Unit) (t : σ) : Prop where
  /-- The notes change nothing else. -/
  noted : withoutLog (c.onMessageNoting lib m callback ([], t)) = c.onMessage lib m callback t
  once : (c.arrivals lib m callback t).Pairwise (· < ·)
  only : ∀ i ∈ c.arrivals lib m callback t, c.Receives topicMatches m.topic i
  /-- None is passed over. -/
  before : ∀ i ∈ c.arrivals lib m callback t, ∀ j < i, c.Receives topicMatches m.topic j →
    j ∈ c.arrivals lib m callback t
  finished : ∀ t', c.onMessage lib m callback t = .ok () t' →
    ∀ i, c.Receives topicMatches m.topic i → i ∈ c.arrivals lib m callback t
  /-- What ended the handling was raised by a callback of the last one. -/
  raised : ∀ e t', c.onMessage lib m callback t = .error e t' →
    ∃ i s t₁, (c.arrivals lib m callback t).getLast? = some i ∧ c.subscriptions[i]? = some s ∧
      (s.onArrived.notify fun f => callback f m) t₁ = .error e t'
  all : (∀ i s, c.Receives topicMatches m.topic i → c.subscriptions[i]? = some s →
      ∀ f ∈ s.onArrived.functions, ∀ t, ∃ t', callback f m t = .ok () t') →
    (∃ t', c.onMessage lib m callback t = .ok () t') ∧
      ∀ i, c.Receives topicMatches m.topic i → i ∈ c.arrivals lib m callback t

theorem mem_places {c : MosquittoClient γ} {topicMatches : Str → Str → Bool} {topic : Str}
    {i : Nat} : i ∈ (c.receivers topicMatches topic).map Prod.snd ↔
      c.Receives topicMatches topic i := by
  constructor
  · intro hi
    obtain ⟨⟨s, j⟩, hmem, rfl⟩ := List.mem_map.mp hi
    exact ⟨s, mem_receivers.mp hmem⟩
  · rintro ⟨s, hs⟩
    exact List.mem_map.mpr ⟨(s, i), mem_receivers.mpr hs, rfl⟩

/-- A notification raises only what a callback raises. -/
theorem notify_finishes {s : Signal γ} {callback : γ → EStateM Error σ Unit}
    (h : ∀ f ∈ s.functions, ∀ t, ∃ t', callback f t = .ok () t') (t : σ) :
    ∃ t', s.notify callback t = .ok () t' := by
  unfold Signal.notify
  split
  · exact ⟨t, rfl⟩
  · obtain ⟨t', ht', -⟩ := forM_finishes (I := fun _ => True)
      (fun f hf t _ => (h f hf t).imp fun _ ht => ⟨ht, trivial⟩) trivial (s := t)
    exact ⟨t', ht'⟩

section

variable {lib : Libraries} {topicMatches : Str → Str → Bool} {c : MosquittoClient γ} {m : Message}
  {callback : γ → Message → EStateM Error σ Unit} {t t' : σ}

/-- The handling came to the end of the receivers. -/
theorem arrives_of_finished (hrun : c.onMessage lib m callback t = .ok () t')
    (hnoted : c.onMessageNoting lib m callback ([], t) =
      .ok () ((c.receivers topicMatches m.topic).map Prod.snd, t')) :
    c.Arrives lib topicMatches m callback t := by
  have hplaces : c.arrivals lib m callback t =
      (c.receivers topicMatches m.topic).map Prod.snd := by
    rw [arrivals, hnoted, final]
  have hall : ∀ i, c.Receives topicMatches m.topic i → i ∈ c.arrivals lib m callback t := by
    intro i hi
    rw [hplaces]
    exact mem_places.mpr hi
  refine ⟨?_, ?_, fun i hi => ?_, fun i hi j hj hr => hall j hr, fun _ _ => hall, ?_,
    fun _ => ⟨⟨t', hrun⟩, hall⟩⟩
  · rw [hnoted, hrun, withoutLog]
  · rw [hplaces]
    exact c.sorted_receivers topicMatches m.topic
  · rw [hplaces] at hi
    exact mem_places.mp hi
  · intro e t₂ herror
    rw [hrun] at herror
    cases herror

/-- A callback of the receiver at `i` raised. -/
theorem arrives_of_raised {done rest : List (Subscription γ × Nat)} {s : Subscription γ} {i : Nat}
    {t₁ : σ} {e : Error} (hsplit : c.receivers topicMatches m.topic = done ++ (s, i) :: rest)
    (hraise : (s.onArrived.notify fun f => callback f m) t₁ = .error e t')
    (hrun : c.onMessage lib m callback t = .error e t')
    (hnoted : c.onMessageNoting lib m callback ([], t) =
      .error e (done.map Prod.snd ++ [i], t')) :
    c.Arrives lib topicMatches m callback t := by
  have hplaces : c.arrivals lib m callback t = done.map Prod.snd ++ [i] := by
    rw [arrivals, hnoted, final]
  have hmap : (c.receivers topicMatches m.topic).map Prod.snd =
      (done.map Prod.snd ++ [i]) ++ rest.map Prod.snd := by
    rw [hsplit, List.map_append, List.map_cons, List.append_assoc, List.singleton_append]
  have hmem : (s, i) ∈ c.receivers topicMatches m.topic := by
    rw [hsplit]
    exact List.mem_append_right done List.mem_cons_self
  have hsorted := c.sorted_receivers topicMatches m.topic
  rw [hmap] at hsorted
  obtain ⟨hfirst, -, hlater⟩ := List.pairwise_append.mp hsorted
  refine ⟨?_, ?_, fun j hj => ?_, fun j hj k hk hr => ?_, fun t₂ hok => ?_,
    fun e₂ t₂ herror => ?_, fun hnone => ?_⟩
  · rw [hnoted, hrun, withoutLog]
  · rw [hplaces]
    exact hfirst
  · rw [hplaces] at hj
    exact mem_places.mp (hmap ▸ List.mem_append_left _ hj)
  · rw [hplaces] at hj ⊢
    -- a receiver behind `i` is behind `j` too
    have hk' := mem_places.mpr hr
    rw [hmap] at hk'
    rcases List.mem_append.mp hk' with hk' | hk'
    · exact hk'
    · exact absurd (hlater j hj k hk') (by omega)
  · rw [hrun] at hok
    cases hok
  · rw [hrun] at herror
    cases herror
    refine ⟨i, s, t₁, ?_, (mem_receivers.mp hmem).1, hraise⟩
    rw [hplaces, List.getLast?_concat]
  · obtain ⟨hs, hlive, htopic⟩ := mem_receivers.mp hmem
    obtain ⟨t₂, ht₂⟩ := notify_finishes (hnone i s ⟨s, hs, hlive, htopic⟩ hs) t₁
    rw [hraise] at ht₂
    cases ht₂

end

/-- A message runs `onArrived` on the receivers in turn, and stops at the first
whose callback raises. -/
theorem onMessage_arrives {lib : Libraries} {topicMatches : Str → Str → Bool}
    (hmatch : ∀ filter topic, matchTopic lib filter topic = .ok (topicMatches filter topic))
    (c : MosquittoClient γ) (m : Message) (callback : γ → Message → EStateM Error σ Unit) (t : σ) :
    c.Arrives lib topicMatches m callback t := by
  have hloop : c.onMessage lib m callback = (c.receivers topicMatches m.topic).forM
      fun x => x.1.onArrived.notify fun f => callback f m := by
    rw [onMessage_by, onMessageBy_receivers hmatch]
  have hnoting : c.onMessageNoting lib m callback = (c.receivers topicMatches m.topic).forM
      fun x => noting x.2 (x.1.onArrived.notify fun f => callback f m) := by
    rw [onMessageNoting, onMessageBy_receivers hmatch]
  rcases forM_noting (fun x : Subscription γ × Nat => x.1.onArrived.notify fun f => callback f m)
      Prod.snd (c.receivers topicMatches m.topic) [] t with
    ⟨t', hrun, hnoted⟩ | ⟨done, ⟨s, i⟩, rest, t₁, e, t', hsplit, hraise, hrun, hnoted⟩
  · rw [← hnoting, List.nil_append] at hnoted
    exact arrives_of_finished (hloop ▸ hrun) hnoted
  · rw [← hnoting, List.nil_append] at hnoted
    exact arrives_of_raised hsplit hraise (hloop ▸ hrun) hnoted

end MosquittoClient

/-! ## Handles -/

/-- The client, and how many handles there are to the subscription at a place. -/
structure Holding (γ : Type) where
  client : MosquittoClient γ
  handles : Nat → Nat

inductive HoldingEvent (γ : Type) where
  | subscribe (topic : Str)
  /-- A holder connects a callback to `onArrived`. -/
  | connect (i : Nat) (f : γ)
  | release (i : Nat)
  | message (m : Message)

namespace Holding

variable {γ : Type}

def create : Holding γ := ⟨.create, fun _ => 0⟩

/-- Only who has a handle can use or release it. A message leaves the client as
it is. -/
def step (h : Holding γ) : HoldingEvent γ → Option (Holding γ)
  | .subscribe topic =>
    let (i, client) := h.client.subscribe topic
    some ⟨client, Function.update h.handles i (h.handles i + 1)⟩
  | .connect i f => if 0 < h.handles i then some { h with client := h.client.connect i f } else none
  | .release i =>
    match h.handles i with
    | 0 => none
    | 1 => some ⟨h.client.expire i, Function.update h.handles i 0⟩
    | n + 2 => some { h with handles := Function.update h.handles i (n + 1) }
  | .message _ => some h

/-- The subscriptions with handles are the live ones, at most one for a topic. -/
structure Sound (h : Holding γ) : Prop where
  held : ∀ i, 0 < h.handles i ↔ ∃ topic, h.client.LiveAt i topic
  unique : h.client.Unique

theorem sound_create : (create : Holding γ).Sound := by
  have hnone : ∀ i topic, ¬ (create : Holding γ).client.LiveAt i topic := by
    rintro i topic ⟨s, hs, -⟩
    simp [create, MosquittoClient.create] at hs
  constructor
  · exact fun i => ⟨fun hpos => absurd hpos (lt_irrefl 0), fun ⟨t, ht⟩ => absurd ht (hnone i t)⟩
  · exact fun i j t hi => absurd hi (hnone i t)

/-- What an event does to the live subscriptions and to who holds some. -/
inductive Change (h h' : Holding γ) : Prop where
  | kept (live : ∀ i topic, h'.client.LiveAt i topic ↔ h.client.LiveAt i topic)
      (held : ∀ i, 0 < h'.handles i ↔ 0 < h.handles i)
  | made (topic : Str) (n : Nat) (none : ∀ i, ¬ h.client.LiveAt i topic)
      (fresh : ∀ t, ¬ h.client.LiveAt n t)
      (live : ∀ i t, h'.client.LiveAt i t ↔ h.client.LiveAt i t ∨ (i = n ∧ t = topic))
      (held : ∀ i, 0 < h'.handles i ↔ 0 < h.handles i ∨ i = n)
  | expired (n : Nat) (live : ∀ i t, h'.client.LiveAt i t ↔ i ≠ n ∧ h.client.LiveAt i t)
      (held : ∀ i, 0 < h'.handles i ↔ i ≠ n ∧ 0 < h.handles i)

theorem update_pos (g : Nat → Nat) (n v i : Nat) :
    0 < Function.update g n v i ↔ (i = n ∧ 0 < v) ∨ (i ≠ n ∧ 0 < g i) := by
  by_cases hi : i = n
  · subst hi
    simp
  · simp [hi]

theorem change_step {h h' : Holding γ} (hs : h.Sound) {e : HoldingEvent γ}
    (hstep : h.step e = some h') : Change h h' := by
  cases e with
  | subscribe topic =>
    by_cases hlive : ∃ i, h.client.LiveAt i topic
    · obtain ⟨i, hi⟩ := hlive
      rw [step, MosquittoClient.subscribe_found hs.unique hi] at hstep
      cases hstep
      refine .kept (fun _ _ => Iff.rfl) fun j => ?_
      have hpos := (hs.held i).mpr ⟨topic, hi⟩
      rw [update_pos]
      grind
    · have hnone : ∀ i, ¬ h.client.LiveAt i topic := fun i hi => hlive ⟨i, hi⟩
      rw [step, MosquittoClient.subscribe_new hnone] at hstep
      cases hstep
      refine .made topic h.client.subscriptions.length hnone (fun t ht => lt_irrefl _ ht.lt)
        (fun j t => MosquittoClient.liveAt_pushBack h.client topic t j) fun j => ?_
      rw [update_pos]
      grind
  | connect i f =>
    simp only [step] at hstep
    split at hstep
    · cases hstep
      exact .kept (MosquittoClient.liveAt_connect h.client i f) fun _ => Iff.rfl
    · cases hstep
  | release i =>
    cases hi : h.handles i with
    | zero =>
      simp only [step, hi] at hstep
      cases hstep
    | succ n =>
      cases n with
      | zero =>
        simp only [step, hi] at hstep
        cases hstep
        refine .expired i (MosquittoClient.liveAt_expire h.client i) fun j => ?_
        rw [update_pos]
        grind
      | succ n =>
        simp only [step, hi] at hstep
        cases hstep
        refine .kept (fun _ _ => Iff.rfl) fun j => ?_
        rw [update_pos]
        grind
  | message m =>
    cases hstep
    exact .kept (fun _ _ => Iff.rfl) fun _ => Iff.rfl

theorem sound_step {h h' : Holding γ} {e : HoldingEvent γ} (hs : h.Sound)
    (hstep : h.step e = some h') : h'.Sound := by
  cases change_step hs hstep with
  | kept live held =>
    constructor
    · intro i
      simp only [held i, live, hs.held i]
    · intro i j topic hi hj
      exact hs.unique i j topic ((live i topic).mp hi) ((live j topic).mp hj)
  | made topic n none fresh live held =>
    constructor
    · intro i
      simp only [held i, live, hs.held i]
      grind
    · intro i j t hi hj
      rcases (live i t).mp hi with hi | ⟨rfl, rfl⟩
      · rcases (live j t).mp hj with hj | ⟨rfl, rfl⟩
        · exact hs.unique i j t hi hj
        · exact absurd hi (none i)
      · rcases (live j _).mp hj with hj | ⟨rfl, -⟩
        · exact absurd hj (none j)
        · rfl
  | expired n live held =>
    constructor
    · intro i
      simp only [held i, live, hs.held i]
      grind
    · intro i j t hi hj
      exact hs.unique i j t ((live i t).mp hi).2 ((live j t).mp hj).2

theorem run_sound {h : Holding γ} {events : List (HoldingEvent γ)}
    (hrun : Transition.run step create events = some h) : h.Sound :=
  Transition.run_invariant (fun _ _ _ hs hstep => sound_step hs hstep) sound_create hrun

/-- After any events no two live subscriptions have one topic; `subscribe` returns
the live one without a request, or makes one and sends one request; and a message
runs `onArrived` at most once on every live subscription that matches and on no
other, on all of them in turn up to the first whose callback raises. -/
theorem subscriptions_run {h : Holding γ} {events : List (HoldingEvent γ)}
    (hrun : Transition.run step create events = some h) :
    (∀ i, 0 < h.handles i ↔ ∃ topic, h.client.LiveAt i topic) ∧
    (∀ i j topic, h.client.LiveAt i topic → h.client.LiveAt j topic → i = j) ∧
    (∀ i topic, h.client.LiveAt i topic → h.client.subscribe topic = (i, h.client)) ∧
    (∀ topic, (∀ i, ¬ h.client.LiveAt i topic) → h.client.subscribe topic =
      (h.client.subscriptions.length, ⟨h.client.subscriptions ++ [⟨topic, .create, true⟩],
        h.client.requests ++ [topic]⟩)) ∧
    ∀ (lib : Libraries) (topicMatches : Str → Str → Bool),
      (∀ filter topic, MosquittoClient.matchTopic lib filter topic =
        .ok (topicMatches filter topic)) →
      ∀ (σ : Type) (m : Message) (callback : γ → Message → EStateM Error σ Unit) (t : σ),
        h.client.Arrives lib topicMatches m callback t := by
  have hs := run_sound hrun
  refine ⟨hs.held, hs.unique, fun i topic hi => MosquittoClient.subscribe_found hs.unique hi,
    fun topic hnone => MosquittoClient.subscribe_new hnone, ?_⟩
  exact fun lib topicMatches hmatch σ m callback t =>
    MosquittoClient.onMessage_arrives hmatch h.client m callback t

/-- A filter matches the topic that it is, and `#` matches every topic. -/
def plainMatches (filter topic : Str) : Bool := filter = topic || filter = "#".toList

def plainLibraries : Libraries :=
  { simpleLibraries with
    topicMatchesSub := fun filter topic => (.success, plainMatches filter topic) }

theorem matchTopic_plain (filter topic : Str) : MosquittoClient.matchTopic plainLibraries filter
    topic = .ok (plainMatches filter topic) := rfl

/-- A topic is subscribed to again after its subscription has expired, and a
message comes that matches it and another one. -/
theorem subscriptions_run_again : ∃ h : Holding Nat,
    Transition.run step create [.subscribe "a".toList, .subscribe "a".toList, .connect 0 6,
      .release 0, .release 0, .subscribe "a".toList, .connect 1 7, .subscribe "#".toList,
      .connect 2 8, .subscribe "b".toList, .message ⟨"a".toList, []⟩] = some h ∧
    h.client.subscriptions.length = 4 ∧
    (∀ i j topic, h.client.LiveAt i topic → h.client.LiveAt j topic → i = j) ∧
    h.client.onMessage plainLibraries ⟨"a".toList, []⟩ (fun f _ ran => .ok () (ran ++ [f])) [] =
      .ok () [7, 8] ∧
    h.client.arrivals plainLibraries ⟨"a".toList, []⟩ (fun f _ ran => .ok () (ran ++ [f])) [] =
      [1, 2] ∧
    1 ∈ h.client.arrivals plainLibraries ⟨"a".toList, []⟩
      (fun f _ ran => .ok () (ran ++ [f])) [] := by
  obtain ⟨h, hrun, hlen, hmessage, hplaces, hone⟩ : ∃ h : Holding Nat,
      Transition.run step create [.subscribe "a".toList, .subscribe "a".toList, .connect 0 6,
        .release 0, .release 0, .subscribe "a".toList, .connect 1 7, .subscribe "#".toList,
        .connect 2 8, .subscribe "b".toList, .message ⟨"a".toList, []⟩] = some h ∧
      h.client.subscriptions.length = 4 ∧
      h.client.onMessage plainLibraries ⟨"a".toList, []⟩ (fun f _ ran => .ok () (ran ++ [f])) [] =
        .ok () [7, 8] ∧
      h.client.arrivals plainLibraries ⟨"a".toList, []⟩ (fun f _ ran => .ok () (ran ++ [f])) [] =
        [1, 2] ∧
      h.client.Receives plainMatches "a".toList 1 :=
    ⟨_, rfl, rfl, rfl, rfl, _, rfl, rfl, rfl⟩
  obtain ⟨-, hunique, -, -, harrives⟩ := subscriptions_run hrun
  have hall := (harrives plainLibraries plainMatches matchTopic_plain _ ⟨"a".toList, []⟩
    (fun f _ ran => .ok () (ran ++ [f])) []).all fun _ _ _ _ f _ ran => ⟨ran ++ [f], rfl⟩
  exact ⟨h, hrun, hlen, hunique, hmessage, hplaces, hall.2 1 hone⟩

/-- The callback of the first of two matching subscriptions raises: the second is
not run. -/
theorem subscriptions_run_raises : ∃ h : Holding Nat,
    Transition.run step create [.subscribe "a".toList, .connect 0 7, .subscribe "#".toList,
      .connect 1 8] = some h ∧
    h.client.Receives plainMatches "a".toList 1 ∧
    h.client.onMessage plainLibraries ⟨"a".toList, []⟩
      (fun f _ ran => if f = 7 then .error .json ran else .ok () (ran ++ [f])) [] =
        .error .json [] ∧
    h.client.arrivals plainLibraries ⟨"a".toList, []⟩
      (fun f _ ran => if f = 7 then .error .json ran else .ok () (ran ++ [f])) [] = [0] ∧
    1 ∉ h.client.arrivals plainLibraries ⟨"a".toList, []⟩
      (fun f _ ran => if f = 7 then .error .json ran else .ok () (ran ++ [f])) [] := by
  have hfirst : ∀ i ∈ ([0] : List Nat), i ≠ 1 := by decide
  exact ⟨_, rfl, ⟨_, rfl, rfl, rfl⟩, rfl, rfl, fun hmem => hfirst 1 hmem rfl⟩

end Holding

end MqttExporter
