import MqttExporter.Base.Answers
import MqttExporter.Signals

/-!
# The cached signal

`SignalWithMutex` with a real mutex, used by one thread. It notifies from a copy
of the list of connections, which it takes when a flag says that the list has
changed. Every call that changes the list sets the flag, but `disconnectAll`.

* `state_after`: but for the copy the two versions stay the same;
* `tracked_after`: what the copy and the flag say of the requests so far;
* `same_answers_iff`: so when the two versions give the same answers.
-/

namespace MqttExporter

namespace Zeeno

open Answers

/-- The members that both versions have, and `m_dirty` and `m_cache`. -/
structure CachedSignal (γ : Type) where
  state : Signals Unit γ
  dirty : Bool
  cache : List Nat

/-- What can be asked of one signal and its connections. -/
inductive Request (γ : Type) where
  | connect (f : γ)
  | disconnectConnection (c : Nat)
  | disconnect (c : Nat)
  | disconnectAll
  | blockSignal
  | unblockSignal
  | notify

/-- The result of a disconnect, the callbacks that were run, and `isValid` of
every connection afterwards. -/
structure Answer (γ : Type) where
  returned : Option Bool
  ran : List γ
  valid : Nat → Bool

/-! ## The plain version -/

section

variable {γ : Type}

/-- The callbacks that a notification runs. -/
def Signals.ran {ι : Type} (w : Signals ι γ) (s : ι) : List γ :=
  if w.isBlocked s then [] else w.callbacks (w.functions s)

theorem Signals.notify_ran {ι : Type} {m : Type → Type} [Monad m] (w : Signals ι γ) (s : ι)
    (call : γ → m Unit) : w.notify s call = (w.ran s).forM call := by
  unfold notify ran
  split <;> rfl

def plainStep (w : Signals Unit γ) : Request γ → Answer γ × Signals Unit γ
  | .connect f =>
    let w' := (w.connect () f).2
    (⟨none, [], w'.isValid⟩, w')
  | .disconnectConnection c =>
    let (ret, w') := w.disconnect c
    (⟨some ret, [], w'.isValid⟩, w')
  | .disconnect c =>
    let (ret, w') := w.disconnectShared () c
    (⟨some ret, [], w'.isValid⟩, w')
  | .disconnectAll =>
    let w' := w.disconnectAll ()
    (⟨none, [], w'.isValid⟩, w')
  | .blockSignal =>
    let w' := w.blockSignal ()
    (⟨none, [], w'.isValid⟩, w')
  | .unblockSignal =>
    let w' := w.unblockSignal ()
    (⟨none, [], w'.isValid⟩, w')
  | .notify => (⟨none, w.ran (), w.isValid⟩, w)

end

/-! ## The cached version -/

namespace CachedSignal

variable {γ : Type}

def create : CachedSignal γ := ⟨.create, false, []⟩

def functions (q : CachedSignal γ) : List Nat := q.state.functions ()

def connect (q : CachedSignal γ) (f : γ) : CachedSignal γ :=
  let c := q.state.connections.length
  { q with
    state := ((q.state.makeShared f).setConnected c (some ())).setFunctions () (q.functions ++ [c])
    dirty := true }

/-- `disconnect(const std::shared_ptr<Connection>&)`. -/
def disconnect (q : CachedSignal γ) (c : Nat) : Bool × CachedSignal γ :=
  if c ∈ q.functions then
    (true, { q with
      state := (q.state.setConnected c none).setFunctions () (q.functions.erase c)
      dirty := true })
  else (false, q)

/-- `disconnect(const Connection*)`, which leaves `m_connected` to its caller. -/
def disconnectRaw (q : CachedSignal γ) (c : Nat) : Bool × CachedSignal γ :=
  if c ∈ q.functions then
    (true, { q with state := q.state.setFunctions () (q.functions.erase c), dirty := true })
  else (false, q)

/-- `Connection::disconnect`. -/
def disconnectConnection (q : CachedSignal γ) (c : Nat) : Bool × CachedSignal γ :=
  match q.state.connected c with
  | some () =>
    let (ret, q') := q.disconnectRaw c
    (ret, { q' with state := q'.state.setConnected c none })
  | none => (false, q)

def disconnectAll (q : CachedSignal γ) : CachedSignal γ :=
  { q with state := (q.state.release q.functions).setFunctions () [] }

/-- The cache is filled when the flag is set. -/
def refresh (q : CachedSignal γ) : CachedSignal γ :=
  if q.dirty then { q with cache := q.functions, dirty := false } else q

/-- `operator()`, with the callbacks that it runs. -/
def notify (q : CachedSignal γ) : List γ × CachedSignal γ :=
  if q.state.isBlocked () then ([], q)
  else (q.refresh.state.callbacks q.refresh.cache, q.refresh)

def step (q : CachedSignal γ) : Request γ → Answer γ × CachedSignal γ
  | .connect f =>
    let q' := q.connect f
    (⟨none, [], q'.state.isValid⟩, q')
  | .disconnectConnection c =>
    let (ret, q') := q.disconnectConnection c
    (⟨some ret, [], q'.state.isValid⟩, q')
  | .disconnect c =>
    let (ret, q') := q.disconnect c
    (⟨some ret, [], q'.state.isValid⟩, q')
  | .disconnectAll =>
    let q' := q.disconnectAll
    (⟨none, [], q'.state.isValid⟩, q')
  | .blockSignal =>
    let q' := { q with state := q.state.blockSignal () }
    (⟨none, [], q'.state.isValid⟩, q')
  | .unblockSignal =>
    let q' := { q with state := q.state.unblockSignal () }
    (⟨none, [], q'.state.isValid⟩, q')
  | .notify =>
    let (ran, q') := q.notify
    (⟨none, ran, q'.state.isValid⟩, q')

/-! ## But for the cache the versions stay the same -/

def plainAfter (requests : List (Request γ)) : Signals Unit γ := after plainStep .create requests

def cachedAfter (requests : List (Request γ)) : CachedSignal γ := after step create requests

theorem plain_agrees (requests : List (Request γ)) : (plainAfter requests).Agrees := by
  induction requests using List.reverseRecOn with
  | nil => exact Signals.agrees_create
  | append_singleton requests r ih =>
    rw [plainAfter, after_snoc]
    cases r with
    | connect f => exact ih.connect () f
    | disconnectConnection c => exact ih.disconnect c
    | disconnect c => exact ih.unlink () c
    | disconnectAll => exact ih.disconnectAll ()
    | blockSignal => exact ih.setBlock () true
    | unblockSignal => exact ih.setBlock () false
    | notify => exact ih

theorem refresh_state (q : CachedSignal γ) : q.refresh.state = q.state := by
  unfold refresh
  split <;> rfl

theorem notify_state (q : CachedSignal γ) : q.notify.2.state = q.state := by
  unfold notify
  split
  · rfl
  · exact q.refresh_state

/-- `Connection::disconnect` unlinks in the end what the plain version unlinks. -/
theorem disconnectConnection_state {q : CachedSignal γ} (h : q.state.Agrees) (c : Nat) :
    (q.disconnectConnection c).1 = (q.state.disconnect c).1 ∧
      (q.disconnectConnection c).2.state = (q.state.disconnect c).2 := by
  unfold disconnectConnection Signals.disconnect Signals.disconnectRaw Signals.unlink
  cases hc : q.state.connected c with
  | none => exact ⟨rfl, rfl⟩
  | some s =>
    have hmem : c ∈ q.state.functions () := (h.linked.agree c ()).mp hc
    have hraw : c ∈ q.functions := hmem
    simp only [disconnectRaw, hmem, hraw, if_true]
    exact ⟨trivial, rfl⟩

theorem disconnect_state (q : CachedSignal γ) (c : Nat) :
    (q.disconnect c).1 = (q.state.disconnectShared () c).1 ∧
      (q.disconnect c).2.state = (q.state.disconnectShared () c).2 := by
  unfold disconnect Signals.disconnectShared Signals.unlink functions
  by_cases h : c ∈ q.state.functions ()
  · rw [if_pos h, if_pos h]
    exact ⟨rfl, rfl⟩
  · rw [if_neg h, if_neg h]
    exact ⟨rfl, rfl⟩

theorem step_state {q : CachedSignal γ} (h : q.state.Agrees) (r : Request γ) :
    (q.step r).2.state = (plainStep q.state r).2 := by
  cases r with
  | connect f => rfl
  | disconnectConnection c => exact (disconnectConnection_state h c).2
  | disconnect c => exact (disconnect_state q c).2
  | disconnectAll => rfl
  | blockSignal => rfl
  | unblockSignal => rfl
  | notify => exact q.notify_state

theorem state_after (requests : List (Request γ)) :
    (cachedAfter requests).state = plainAfter requests := by
  induction requests using List.reverseRecOn with
  | nil => rfl
  | append_singleton requests r ih =>
    have hagrees := plain_agrees requests
    rw [← ih] at hagrees
    rw [cachedAfter, after_snoc, plainAfter, after_snoc]
    exact (step_state hagrees r).trans (congrArg (fun w => (plainStep w r).2) ih)

/-- Only a notification can be answered differently. -/
theorem step_answer {q : CachedSignal γ} (h : q.state.Agrees) (r : Request γ) :
    (q.step r).1 = (plainStep q.state r).1 ↔ (r = .notify → q.notify.1 = q.state.ran ()) := by
  have hstate := step_state h r
  cases r with
  | connect f => exact ⟨fun _ hr => (by cases hr), fun _ => rfl⟩
  | disconnectConnection c =>
    refine ⟨fun _ hr => (by cases hr), fun _ => ?_⟩
    obtain ⟨hret, hnext⟩ := disconnectConnection_state h c
    simp only [step, plainStep, hret, hnext]
  | disconnect c =>
    refine ⟨fun _ hr => (by cases hr), fun _ => ?_⟩
    obtain ⟨hret, hnext⟩ := disconnect_state q c
    simp only [step, plainStep, hret, hnext]
  | disconnectAll => exact ⟨fun _ hr => (by cases hr), fun _ => rfl⟩
  | blockSignal => exact ⟨fun _ hr => (by cases hr), fun _ => rfl⟩
  | unblockSignal => exact ⟨fun _ hr => (by cases hr), fun _ => rfl⟩
  | notify => simp [step, plainStep, q.notify_state]

/-! ## What a request does to list, flag and cache -/

inductive Change (q : CachedSignal γ) (r : Request γ) (q' : CachedSignal γ) : Prop where
  /-- A connection was made, or one was found and removed. -/
  | changed (cause : (∃ f, r = .connect f) ∨ q.functions ≠ []) (other : r ≠ .disconnectAll)
      (quiet : r ≠ .notify) (functions : q'.functions ≠ q.functions) (dirty : q'.dirty = true)
      (cache : q'.cache = q.cache)
  | kept (no : ∀ f, r ≠ .connect f) (other : r ≠ .disconnectAll)
      (blocked : r = .notify → q.state.isBlocked () = true) (functions : q'.functions = q.functions)
      (dirty : q'.dirty = q.dirty) (cache : q'.cache = q.cache)
  | cleared (all : r = .disconnectAll) (functions : q'.functions = []) (dirty : q'.dirty = q.dirty)
      (cache : q'.cache = q.cache)
  | refreshed (notify : r = .notify) (unblocked : q.state.isBlocked () = false)
      (functions : q'.functions = q.functions) (dirty : q'.dirty = false)
      (cache : q'.cache = if q.dirty then q.functions else q.cache)

theorem change_unlink {q q' : CachedSignal γ} {r : Request γ} {c : Nat}
    (hc : c ∈ q.functions) (hno : r ≠ .disconnectAll) (hquiet : r ≠ .notify)
    (hfunctions : q'.functions = q.functions.erase c) (hdirty : q'.dirty = true)
    (hcache : q'.cache = q.cache) : Change q r q' := by
  refine .changed (Or.inr (List.ne_nil_of_mem hc)) hno hquiet ?_ hdirty hcache
  intro heq
  have hlen := congrArg List.length (hfunctions.symm.trans heq)
  rw [List.length_erase_of_mem hc] at hlen
  have := List.length_pos_of_mem hc
  omega

theorem change_step (q : CachedSignal γ) (r : Request γ) : Change q r (q.step r).2 := by
  cases r with
  | connect f =>
    refine .changed (Or.inl ⟨f, rfl⟩) (by simp) (by simp) ?_ rfl rfl
    simp [step, connect, functions]
  | disconnectConnection c =>
    change Change q _ (q.disconnectConnection c).2
    unfold disconnectConnection
    cases q.state.connected c with
    | none => exact .kept (by simp) (by simp) (by simp) rfl rfl rfl
    | some s =>
      simp only [disconnectRaw]
      by_cases hc : c ∈ q.functions
      · rw [if_pos hc]
        refine change_unlink hc (by simp) (by simp) ?_ rfl rfl
        simp [functions]
      · rw [if_neg hc]
        exact .kept (by simp) (by simp) (by simp) rfl rfl rfl
  | disconnect c =>
    change Change q _ (q.disconnect c).2
    unfold disconnect
    by_cases hc : c ∈ q.functions
    · rw [if_pos hc]
      refine change_unlink hc (by simp) (by simp) ?_ rfl rfl
      simp [functions]
    · rw [if_neg hc]
      exact .kept (by simp) (by simp) (by simp) rfl rfl rfl
  | disconnectAll =>
    refine .cleared rfl ?_ rfl rfl
    simp [step, disconnectAll, functions]
  | blockSignal =>
    refine .kept (by simp) (by simp) (by simp) ?_ rfl rfl
    simp [step, functions, Signals.blockSignal]
  | unblockSignal =>
    refine .kept (by simp) (by simp) (by simp) ?_ rfl rfl
    simp [step, functions, Signals.unblockSignal]
  | notify =>
    change Change q _ q.notify.2
    unfold notify
    by_cases hb : q.state.isBlocked () = true
    · rw [if_pos hb]
      exact .kept (by simp) (by simp) (fun _ => hb) rfl rfl rfl
    · rw [if_neg hb]
      have hunblocked : q.state.isBlocked () = false := by simpa using hb
      unfold refresh
      cases hd : q.dirty with
      | true => exact .refreshed rfl hunblocked rfl rfl (by simp [hd])
      | false => exact .refreshed rfl hunblocked rfl (by simpa using hd) (by simp [hd])

/-! ## The cache out of date -/

/-- A notification ran at least one callback, and the connections of the signal
have stayed the same since. -/
def Clean (requests : List (Request γ)) : Prop :=
  Unchanged plainStep Signals.create (fun r => r = .notify)
    (fun w => w.isBlocked () = false ∧ w.functions () ≠ []) (fun w => w.functions ()) requests

/-- So it was until a `disconnectAll`, and there was no `connect` since. -/
def Stale (requests : List (Request γ)) : Prop :=
  ∃ before rest, requests = before ++ .disconnectAll :: rest ∧ Clean before ∧
    ∀ f, .connect f ∉ rest

theorem clean_snoc {requests : List (Request γ)} {r : Request γ} : Clean (requests ++ [r]) ↔
    (cachedAfter (requests ++ [r])).functions = (cachedAfter requests).functions ∧
      ((r = .notify ∧ (cachedAfter requests).state.isBlocked () = false ∧
        (cachedAfter requests).functions ≠ []) ∨ Clean requests) := by
  rw [Clean, unchanged_snoc, functions, functions, state_after, state_after]
  rfl

theorem stale_snoc {requests : List (Request γ)} {r : Request γ} : Stale (requests ++ [r]) ↔
    (r = .disconnectAll ∧ Clean requests) ∨ ((∀ f, r ≠ .connect f) ∧ Stale requests) := by
  constructor
  · rintro ⟨before, rest, heq, hclean, hno⟩
    rcases Transition.split_snoc.mp heq with ⟨rfl, rfl, -⟩ | ⟨init, rfl, rfl⟩
    · exact Or.inl ⟨rfl, hclean⟩
    · refine Or.inr ⟨fun f hf => ?_, before, init, rfl, hclean, fun f hf => ?_⟩
      · exact hno f (by simp [hf])
      · exact hno f (List.mem_append_left _ hf)
  · rintro (⟨rfl, hclean⟩ | ⟨hr, before, rest, rfl, hclean, hno⟩)
    · exact ⟨requests, [], rfl, hclean, fun f hf => by cases hf⟩
    · refine ⟨before, rest ++ [r], by simp, hclean, fun f hf => ?_⟩
      rcases List.mem_append.mp hf with hf | hf
      · exact hno f hf
      · exact hr f (List.mem_singleton.mp hf).symm

/-- What the flag and the cache say of the requests so far. -/
structure Tracked (requests : List (Request γ)) (q : CachedSignal γ) : Prop where
  clean : Clean requests ↔ q.dirty = false ∧ q.cache = q.functions ∧ q.functions ≠ []
  stale : Stale requests ↔ q.dirty = false ∧ q.cache ≠ q.functions
  emptied : q.dirty = false → q.cache ≠ q.functions → q.functions = []

section

variable {requests : List (Request γ)} {r : Request γ}

theorem tracked_changed (h : Tracked requests (cachedAfter requests))
    (cause : (∃ f, r = .connect f) ∨ (cachedAfter requests).functions ≠ [])
    (other : r ≠ .disconnectAll)
    (hf : (cachedAfter (requests ++ [r])).functions ≠ (cachedAfter requests).functions)
    (hd : (cachedAfter (requests ++ [r])).dirty = true) :
    Tracked (requests ++ [r]) (cachedAfter (requests ++ [r])) := by
  refine ⟨?_, ?_, fun hfalse => ?_⟩
  · rw [clean_snoc]
    exact ⟨fun hx => absurd hx.1 hf, fun hx => absurd hx.1 (by simp [hd])⟩
  · rw [stale_snoc]
    refine ⟨?_, fun hx => absurd hx.1 (by simp [hd])⟩
    rintro (⟨hr, -⟩ | ⟨hno, hs⟩)
    · exact absurd hr other
    · -- nothing is left in the list to be disconnected
      obtain ⟨hdirty, hne⟩ := h.stale.mp hs
      rcases cause with ⟨f, hf⟩ | hne'
      · exact absurd hf (hno f)
      · exact absurd (h.emptied hdirty hne) hne'
  · rw [hd] at hfalse
    cases hfalse

theorem tracked_kept (h : Tracked requests (cachedAfter requests)) (no : ∀ f, r ≠ .connect f)
    (other : r ≠ .disconnectAll)
    (blocked : r = .notify → (cachedAfter requests).state.isBlocked () = true)
    (hf : (cachedAfter (requests ++ [r])).functions = (cachedAfter requests).functions)
    (hd : (cachedAfter (requests ++ [r])).dirty = (cachedAfter requests).dirty)
    (hc : (cachedAfter (requests ++ [r])).cache = (cachedAfter requests).cache) :
    Tracked (requests ++ [r]) (cachedAfter (requests ++ [r])) := by
  refine ⟨?_, ?_, ?_⟩
  · rw [clean_snoc, hd, hc, hf, ← h.clean]
    refine ⟨fun hx => ?_, fun hx => ⟨rfl, Or.inr hx⟩⟩
    rcases hx.2 with ⟨hr, hb, -⟩ | hx
    · rw [blocked hr] at hb
      cases hb
    · exact hx
  · rw [stale_snoc, hd, hc, hf, ← h.stale]
    exact ⟨fun hx => (hx.resolve_left fun hy => other hy.1).2, fun hx => Or.inr ⟨no, hx⟩⟩
  · rw [hd, hc, hf]
    exact h.emptied

theorem tracked_cleared (h : Tracked requests (cachedAfter requests)) (all : r = .disconnectAll)
    (hf : (cachedAfter (requests ++ [r])).functions = [])
    (hd : (cachedAfter (requests ++ [r])).dirty = (cachedAfter requests).dirty)
    (hc : (cachedAfter (requests ++ [r])).cache = (cachedAfter requests).cache) :
    Tracked (requests ++ [r]) (cachedAfter (requests ++ [r])) := by
  refine ⟨?_, ?_, fun _ _ => hf⟩
  · rw [clean_snoc, hf]
    refine ⟨fun hx => ?_, fun hx => absurd rfl hx.2.2⟩
    rcases hx.2 with ⟨hr, -⟩ | hx'
    · exact absurd (all.symm.trans hr) (by simp)
    · exact absurd hx.1.symm (h.clean.mp hx').2.2
  · rw [stale_snoc, hd, hc, hf]
    constructor
    · rintro (⟨-, hx⟩ | ⟨-, hx⟩)
      · obtain ⟨hdirty, hcache, hne⟩ := h.clean.mp hx
        exact ⟨hdirty, hcache ▸ hne⟩
      · obtain ⟨hdirty, hne⟩ := h.stale.mp hx
        exact ⟨hdirty, h.emptied hdirty hne ▸ hne⟩
    · rintro ⟨hdirty, hne⟩
      by_cases hcache : (cachedAfter requests).cache = (cachedAfter requests).functions
      · exact Or.inl ⟨all, h.clean.mpr ⟨hdirty, hcache, hcache ▸ hne⟩⟩
      · exact Or.inr ⟨by simp [all], h.stale.mpr ⟨hdirty, hcache⟩⟩

theorem tracked_refreshed (h : Tracked requests (cachedAfter requests)) (notify : r = .notify)
    (unblocked : (cachedAfter requests).state.isBlocked () = false)
    (hf : (cachedAfter (requests ++ [r])).functions = (cachedAfter requests).functions)
    (hd : (cachedAfter (requests ++ [r])).dirty = false)
    (hc : (cachedAfter (requests ++ [r])).cache = if (cachedAfter requests).dirty
      then (cachedAfter requests).functions else (cachedAfter requests).cache) :
    Tracked (requests ++ [r]) (cachedAfter (requests ++ [r])) := by
  have hno : ∀ f, r ≠ .connect f := by
    simp [notify]
  have hother : r ≠ .disconnectAll := by
    simp [notify]
  cases hdirty : (cachedAfter requests).dirty with
  | true =>
    rw [hdirty, if_pos rfl] at hc
    have hfresh : ¬ Stale requests := fun hx => by
      rw [(h.stale.mp hx).1] at hdirty
      cases hdirty
    refine ⟨?_, ?_, fun _ hne => absurd (hc.trans hf.symm) hne⟩
    · rw [clean_snoc, hd, hc, hf]
      refine ⟨fun hx => ⟨rfl, rfl, ?_⟩, fun hx => ⟨rfl, Or.inl ⟨notify, unblocked, hx.2.2⟩⟩⟩
      rcases hx.2 with ⟨-, -, hne⟩ | hx
      · exact hne
      · exact (h.clean.mp hx).2.2
    · rw [stale_snoc, hc, hf]
      refine ⟨?_, fun hx => absurd rfl hx.2⟩
      rintro (⟨hr, -⟩ | ⟨-, hx⟩)
      · exact absurd hr hother
      · exact absurd hx hfresh
  | false =>
    rw [hdirty, if_neg (by simp)] at hc
    refine ⟨?_, ?_, ?_⟩
    · rw [clean_snoc, hd, hc, hf]
      constructor
      · rintro ⟨-, ⟨-, -, hne⟩ | hx⟩
        · refine ⟨rfl, ?_, hne⟩
          by_contra hcache
          exact hne (h.emptied hdirty hcache)
        · exact ⟨rfl, (h.clean.mp hx).2⟩
      · exact fun hx => ⟨rfl, Or.inl ⟨notify, unblocked, hx.2.2⟩⟩
    · rw [stale_snoc, hd, hc, hf]
      constructor
      · rintro (⟨hr, -⟩ | ⟨-, hx⟩)
        · exact absurd hr hother
        · exact ⟨rfl, (h.stale.mp hx).2⟩
      · exact fun hx => Or.inr ⟨hno, h.stale.mpr ⟨hdirty, hx.2⟩⟩
    · rw [hc, hf]
      exact fun _ => h.emptied hdirty

end

theorem change_after (requests : List (Request γ)) (r : Request γ) :
    Change (cachedAfter requests) r (cachedAfter (requests ++ [r])) := by
  have hnext : cachedAfter (requests ++ [r]) = ((cachedAfter requests).step r).2 :=
    after_snoc step create requests r
  rw [hnext]
  exact change_step (cachedAfter requests) r

theorem tracked_after (requests : List (Request γ)) :
    Tracked requests (cachedAfter requests) := by
  induction requests using List.reverseRecOn with
  | nil =>
    have hclean : ¬ Clean ([] : List (Request γ)) := not_unchanged_nil
    have hstale : ¬ Stale ([] : List (Request γ)) := by
      rintro ⟨before, rest, heq, -⟩
      simp at heq
    refine ⟨⟨fun h => absurd h hclean, fun h => absurd rfl h.2.2⟩,
      ⟨fun h => absurd h hstale, fun h => absurd rfl h.2⟩, fun _ h => absurd rfl h⟩
  | append_singleton requests r ih =>
    cases change_after requests r with
    | changed cause other quiet hf hd hc => exact tracked_changed ih cause other hf hd
    | kept no other blocked hf hd hc => exact tracked_kept ih no other blocked hf hd hc
    | cleared all hf hd hc => exact tracked_cleared ih all hf hd hc
    | refreshed notify unblocked hf hd hc => exact tracked_refreshed ih notify unblocked hf hd hc

/-! ## When the versions agree -/

theorem length_plainStep (w : Signals Unit γ) (r : Request γ) :
    w.connections.length ≤ (plainStep w r).2.connections.length := by
  have hunlink : ∀ c, (w.unlink () c).2.connections.length = w.connections.length := by
    intro c
    unfold Signals.unlink
    split
    · exact Signals.length_setConnected w c none
    · rfl
  cases r with
  | connect f =>
    change _ ≤ (w.connect () f).2.connections.length
    rw [Signals.connections_connect, List.length_append]
    omega
  | disconnectConnection c =>
    change _ ≤ (w.disconnect c).2.connections.length
    unfold Signals.disconnect
    cases w.connected c with
    | none => exact le_rfl
    | some s => exact (hunlink c).ge
  | disconnect c => exact (hunlink c).ge
  | disconnectAll => exact (Signals.length_release w (w.functions ())).ge
  | blockSignal => exact le_rfl
  | unblockSignal => exact le_rfl
  | notify => exact le_rfl

/-- The cache names connections that exist. -/
theorem cache_lt (requests : List (Request γ)) :
    ∀ c ∈ (cachedAfter requests).cache, c < (plainAfter requests).connections.length := by
  induction requests using List.reverseRecOn with
  | nil => exact fun c hc => by cases hc
  | append_singleton requests r ih =>
    have hlen : (plainAfter requests).connections.length ≤
        (plainAfter (requests ++ [r])).connections.length := by
      rw [plainAfter, plainAfter, after_snoc]
      exact length_plainStep _ r
    have hfunctions : ∀ c ∈ (cachedAfter requests).functions,
        c < (plainAfter requests).connections.length := by
      intro c hc
      rw [functions, state_after] at hc
      exact (plain_agrees requests).lt hc
    intro c hc
    apply lt_of_lt_of_le _ hlen
    cases change_after requests r with
    | changed _ _ _ _ _ hcache => exact ih c (hcache ▸ hc)
    | kept _ _ _ _ _ hcache => exact ih c (hcache ▸ hc)
    | cleared _ _ _ hcache => exact ih c (hcache ▸ hc)
    | refreshed _ _ _ _ hcache =>
      rw [hcache] at hc
      split at hc
      · exact hfunctions c hc
      · exact ih c hc

theorem callbacks_ne_nil {w : Signals Unit γ} {cs : List Nat} (hne : cs ≠ [])
    (hlt : ∀ c ∈ cs, c < w.connections.length) : w.callbacks cs ≠ [] := by
  obtain ⟨c, hc⟩ := List.exists_mem_of_ne_nil cs hne
  apply List.ne_nil_of_mem (a := (w.connections.get ⟨c, hlt c hc⟩).callback)
  refine List.mem_filterMap.mpr ⟨c, hc, ?_⟩
  rw [List.getElem?_eq_getElem (hlt c hc)]
  rfl

/-- A notification runs the same callbacks unless the cache is out of date. -/
theorem notify_iff (requests : List (Request γ)) :
    (cachedAfter requests).notify.1 = (plainAfter requests).ran () ↔
      ((plainAfter requests).isBlocked () = false → ¬ Stale requests) := by
  have htracked := tracked_after requests
  have hstate := state_after requests
  unfold notify Signals.ran
  rw [hstate]
  cases hb : (plainAfter requests).isBlocked () with
  | true => simp
  | false =>
    have hfunctions : (plainAfter requests).functions () = (cachedAfter requests).functions := by
      rw [functions, hstate]
    simp only [Bool.false_eq_true, if_false, refresh_state, hstate, hfunctions, true_implies]
    constructor
    · intro heq hstale
      obtain ⟨hdirty, hne⟩ := htracked.stale.mp hstale
      have hempty := htracked.emptied hdirty hne
      have hcache : (cachedAfter requests).refresh.cache = (cachedAfter requests).cache := by
        rw [refresh, if_neg (by simp [hdirty])]
      rw [hcache, hempty] at heq
      exact callbacks_ne_nil (hempty ▸ hne) (cache_lt requests) heq
    · intro hfresh
      have hcache : (cachedAfter requests).refresh.cache = (cachedAfter requests).functions := by
        unfold refresh
        cases hdirty : (cachedAfter requests).dirty with
        | true => rfl
        | false =>
          by_contra hne
          exact hfresh (htracked.stale.mpr ⟨hdirty, hne⟩)
      rw [hcache]

/-- The versions answer all requests in the same way exactly if no notification
that is not blocked finds the cache out of date. -/
theorem same_answers_iff (requests : List (Request γ)) :
    answers step create requests = answers plainStep .create requests ↔
      ∀ before rest, requests = before ++ .notify :: rest →
        (plainAfter before).isBlocked () = false → ¬ Stale before := by
  have hstep : ∀ (before : List (Request γ)) (r : Request γ),
      (step (cachedAfter before) r).1 = (plainStep (plainAfter before) r).1 ↔
        (r = .notify → (plainAfter before).isBlocked () = false → ¬ Stale before) := by
    intro before r
    have hagrees := plain_agrees before
    rw [← state_after] at hagrees
    have hanswer := step_answer hagrees r
    rw [state_after] at hanswer
    rw [hanswer, notify_iff]
  rw [answers_eq_iff]
  constructor
  · intro h before rest heq
    exact (hstep before .notify).mp (h before .notify rest heq) rfl
  · intro h before r rest heq
    apply (hstep before r).mpr
    intro hr
    subst hr
    exact h before rest heq

/-- The callback still runs after everything has been disconnected. -/
theorem runs_after_disconnectAll :
    answers step create [.connect 7, .notify, .disconnectAll, .notify] ≠
      answers plainStep .create [.connect 7, .notify, .disconnectAll, .notify] := by
  intro h
  have hran : [[], [7], [], [7]] = [[], [7], [], ([] : List Nat)] :=
    congrArg (List.map Answer.ran) h
  cases hran

end CachedSignal

end Zeeno

end MqttExporter
