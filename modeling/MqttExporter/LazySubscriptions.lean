import Mathlib.Data.List.Range
import MqttExporter.Base.WeakView
import MqttExporter.Subscriptions

/-!
# Subscriptions that expire meanwhile

`subscribe` and `onMessage` iterate the weak references through a lazy view,
without a lock, while a holder on another thread may let go of a subscription.

* `no_null_iff`: when neither uses or returns a null pointer;
* `subscribe_alone`, `onMessage_alone`: undisturbed, they do what they are
  modelled to do at once.
-/

namespace MqttExporter

open WeakView

namespace MosquittoClient

variable {κ γ : Type}

/-- The predicate that `find_if` calls on a dereferenced element. -/
def subscribeVerdict (topicOf : κ → Str) (topic : Str) (k : κ) : Verdict :=
  if topicOf k = topic then .found else .next

/-- The body of the loop, which an exception ends. -/
def onMessageVerdict (lib : Libraries) (raises : κ → Bool) (topicOf : κ → Str) (topic : Str)
    (k : κ) : Verdict :=
  match matchTopic lib (topicOf k) topic with
  | .ok true => if raises k then .leave else .next
  | .ok false => .next
  | .error _ => .leave

/-- No null pointer is returned or used, exactly if no subscription is released
that has passed the filter's test and is to be locked again before the iteration
goes on to the next. -/
theorem no_null_iff [DecidableEq κ] (lib : Libraries) (raises : κ → Bool) (topicOf : κ → Str)
    (topic : Str) (live : κ → Bool) (refs : List κ) (acts : List (Act κ)) :
    (¬ (run (subscribeVerdict topicOf topic) (start live refs) acts).Null ↔
      ¬ Overtaken (subscribeVerdict topicOf topic) (start live refs) acts) ∧
    (¬ (run (onMessageVerdict lib raises topicOf topic) (start live refs) acts).Null ↔
      ¬ Overtaken (onMessageVerdict lib raises topicOf topic) (start live refs) acts) :=
  ⟨not_congr (null_iff _ live refs acts), not_congr (null_iff _ live refs acts)⟩

/-- The one subscription is released right before the result is taken from the
view, or right before the loop takes it. -/
theorem released_between :
    (run (subscribeVerdict (fun _ => "a".toList) "a".toList) (start (fun _ => true) [0])
      [.lock, .lock, .release 0, .lock]).phase = .returned none ∧
    (run (onMessageVerdict simpleLibraries (fun _ => false) (fun _ => "a".toList) "a".toList)
      (start (fun _ => true) [0]) [.lock, .release 0, .lock]).phase = .faulted := by
  decide

/-! ## Undisturbed -/

/-- Whether the weak reference at a place can be locked. -/
def liveAt (c : MosquittoClient γ) (i : Nat) : Bool :=
  match c.subscriptions[i]? with
  | some s => s.live
  | none => false

def topicAt (c : MosquittoClient γ) (i : Nat) : Str :=
  match c.subscriptions[i]? with
  | some s => s.topic
  | none => []

/-- The places of the weak references, in order. -/
def places (c : MosquittoClient γ) : List Nat := List.range c.subscriptions.length

theorem findIdx?_eq_find?_range {α : Type} (p : α → Bool) (xs : List α) :
    xs.findIdx? p = (List.range xs.length).find? fun i => (xs[i]?.map p).getD false := by
  induction xs with
  | nil => rfl
  | cons x xs ih =>
    rw [List.findIdx?_cons, List.length_cons, List.range_succ_eq_map, ih]
    cases hp : p x with
    | true => simp [hp]
    | false =>
      rw [List.find?_cons_of_neg (by simp [hp]), List.find?_map]
      rfl

theorem filterMap_filter_range {α : Type} (p : α → Bool) (xs : List α) :
    ((List.range xs.length).filter fun i => (xs[i]?.map p).getD false).filterMap
      (fun i => xs[i]?) = xs.filter p := by
  induction xs with
  | nil => rfl
  | cons x xs ih =>
    have htail : ((List.range xs.length).map Nat.succ).filter
        (fun i => ((x :: xs)[i]?.map p).getD false) =
        ((List.range xs.length).filter fun i => (xs[i]?.map p).getD false).map Nat.succ := by
      rw [List.filter_map]
      rfl
    rw [List.length_cons, List.range_succ_eq_map]
    cases hp : p x with
    | true =>
      rw [List.filter_cons_of_pos (by simp [hp]), htail, List.filter_cons_of_pos hp, ← ih,
        List.filterMap_cons_some (List.getElem?_cons_zero), List.filterMap_map]
      rfl
    | false =>
      rw [List.filter_cons_of_neg (by simp [hp]), htail, List.filter_cons_of_neg (by simp [hp]),
        ← ih, List.filterMap_map]
      rfl

/-- The search finds the first place that is live and has the topic. -/
theorem alreadySubscribed_eq (c : MosquittoClient γ) (topic : Str) :
    c.alreadySubscribed topic =
      (c.places.filter c.liveAt).find? fun i => c.topicAt i = topic := by
  rw [List.find?_filter, alreadySubscribed, findIdx?_eq_find?_range, places]
  congr 1
  funext i
  unfold liveAt topicAt
  cases c.subscriptions[i]? with
  | none => rfl
  | some s => simp

theorem ending_subscribe (topicOf : κ → Str) (topic : Str) (ks : List κ) :
    ending (subscribeVerdict topicOf topic) ks =
      (ks.find? fun k => topicOf k = topic).elim .exhausted fun k => .returned (some k) := by
  induction ks with
  | nil => rfl
  | cons k ks ih =>
    rw [ending, subscribeVerdict]
    by_cases hk : topicOf k = topic
    · rw [if_pos hk, List.find?_cons_of_pos (by simp [hk]), Option.elim_some]
    · rw [if_neg hk, List.find?_cons_of_neg (by simp [hk])]
      exact ih

/-- Undisturbed, `subscribe` returns the subscription that it finds at once. -/
theorem subscribe_alone (c : MosquittoClient γ) (topic : Str) : ∃ n,
    (run (subscribeVerdict c.topicAt topic) (start c.liveAt c.places)
      (List.replicate n .lock)).phase =
      (c.alreadySubscribed topic).elim .exhausted fun i => .returned (some i) := by
  obtain ⟨n, hn⟩ := run_alone (subscribeVerdict c.topicAt topic) c.liveAt c.places []
  refine ⟨n, ?_⟩
  rw [start, hn, alreadySubscribed_eq]
  exact ending_subscribe c.topicAt topic (c.places.filter c.liveAt)

theorem seen_all {verdict : κ → Verdict} {ks : List κ} (h : ∀ k ∈ ks, verdict k = .next) :
    seen verdict ks = ks ∧ ending verdict ks = .exhausted := by
  induction ks with
  | nil => exact ⟨rfl, rfl⟩
  | cons k ks ih =>
    obtain ⟨hseen, hending⟩ := ih fun x hx => h x (List.mem_cons_of_mem k hx)
    have hk := h k List.mem_cons_self
    rw [seen, ending, if_pos hk, hk, hseen]
    exact ⟨rfl, hending⟩

/-- Undisturbed and without exceptions, `onMessage` comes to every live
subscription in order. -/
theorem onMessage_alone {lib : Libraries} {topicMatches : Str → Str → Bool}
    (hmatch : ∀ filter topic, matchTopic lib filter topic = .ok (topicMatches filter topic))
    (c : MosquittoClient γ) (topic : Str) : ∃ n v,
    run (onMessageVerdict lib (fun _ => false) c.topicAt topic) (start c.liveAt c.places)
      (List.replicate n .lock) = v ∧ v.phase = .exhausted ∧
      v.used.filterMap (fun i => c.subscriptions[i]?) = c.liveSubscriptions := by
  have hnext : ∀ i ∈ c.places.filter c.liveAt,
      onMessageVerdict lib (fun _ => false) c.topicAt topic i = .next := by
    intro i _
    rw [onMessageVerdict, hmatch]
    cases topicMatches (c.topicAt i) topic <;> rfl
  obtain ⟨n, hn⟩ := run_alone (onMessageVerdict lib (fun _ => false) c.topicAt topic) c.liveAt
    c.places []
  obtain ⟨hseen, hending⟩ := seen_all hnext
  refine ⟨n, _, rfl, ?_, ?_⟩
  · rw [start, hn, hending]
  · have hlive : c.liveAt = fun i => (c.subscriptions[i]?.map fun s => s.live).getD false := by
      funext i
      unfold liveAt
      cases c.subscriptions[i]? <;> rfl
    rw [start, hn, hseen, List.nil_append, hlive]
    exact filterMap_filter_range _ c.subscriptions

end MosquittoClient

end MqttExporter
