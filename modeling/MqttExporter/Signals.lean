import Mathlib.Data.List.Sort
import MqttExporter.Base.History
import MqttExporter.Base.Links
import MqttExporter.MosquittoClient

/-!
# Signals and their connections

`SignalWithMutex<dummy_mutex, ...>` with the handles that `connect` returns. A
connection points to its signal, and the signal keeps the list of its
connections.

* `run_agrees`: the two ends agree after any sequence of calls;
* `made_run`: the connections carry the callbacks that `connect` was given;
* `signals_run`: what that means for the calls and for a notification;
* `view_connect`, `notify_view`: without the handles this is `Signal`.
-/

namespace MqttExporter

namespace Zeeno

/-- `m_connected` and `m_callback`; the callback is what its lambda captured. -/
structure Connection (ι γ : Type) where
  connected : Option ι
  callback : γ
  deriving DecidableEq

/-- `m_functions` and `m_block`. A pointer to a connection is its number in the
order in which they were made; a number that none has is a null pointer. -/
structure SignalState where
  functions : List Nat
  block : Bool
  deriving DecidableEq

/-- All signals, and all connections that were ever made. -/
structure Signals (ι γ : Type) where
  signal : ι → SignalState
  connections : List (Connection ι γ)

namespace Signals

variable {ι γ : Type}

def create : Signals ι γ := ⟨fun _ => ⟨[], false⟩, []⟩

def functions (w : Signals ι γ) (s : ι) : List Nat := (w.signal s).functions

def isBlocked (w : Signals ι γ) (s : ι) : Bool := (w.signal s).block

/-- The signal that `m_connected` of a connection points to. -/
def connected (w : Signals ι γ) (c : Nat) : Option ι :=
  w.connections[c]?.bind Connection.connected

def isValid (w : Signals ι γ) (c : Nat) : Bool := (w.connected c).isSome

def setConnected (w : Signals ι γ) (c : Nat) (sig : Option ι) : Signals ι γ :=
  { w with connections := w.connections.modify c fun x => { x with connected := sig } }

/-- `std::make_shared<Connection>()` with the callback moved into it. -/
def makeShared (w : Signals ι γ) (f : γ) : Signals ι γ :=
  { w with connections := w.connections ++ [⟨none, f⟩] }

/-- The loop of `disconnectAll` over the connections. -/
def release (w : Signals ι γ) (cs : List Nat) : Signals ι γ :=
  cs.foldl (fun w c => w.setConnected c none) w

/-- The callbacks behind a list of pointers. -/
def callbacks (w : Signals ι γ) (cs : List Nat) : List γ :=
  cs.filterMap fun c => w.connections[c]?.map Connection.callback

/-- `operator()`, for callbacks that leave signals and connections alone. -/
def notify {m : Type → Type} [Monad m] (w : Signals ι γ) (s : ι) (call : γ → m Unit) : m Unit :=
  if w.isBlocked s then pure () else (w.callbacks (w.functions s)).forM call

@[simp] theorem functions_setConnected (w : Signals ι γ) (c : Nat) (sig : Option ι) :
    (w.setConnected c sig).functions = w.functions := rfl

@[simp] theorem functions_makeShared (w : Signals ι γ) (f : γ) :
    (w.makeShared f).functions = w.functions := rfl

theorem connected_lt {w : Signals ι γ} {c : Nat} {s : ι} (h : w.connected c = some s) :
    c < w.connections.length := by
  obtain ⟨x, hx, -⟩ := Option.bind_eq_some_iff.mp h
  exact (List.getElem?_eq_some_iff.mp hx).1

theorem connected_setConnected {w : Signals ι γ} {c : Nat} (hc : c < w.connections.length)
    (sig : Option ι) : (w.setConnected c sig).connected = Function.update w.connected c sig := by
  funext d
  by_cases h : d = c
  · subst h
    simp [connected, setConnected, List.getElem?_eq_getElem hc]
  · have hne : c ≠ d := fun he => h he.symm
    simp [connected, setConnected, h, hne]

theorem connected_makeShared (w : Signals ι γ) (f : γ) :
    (w.makeShared f).connected = w.connected := by
  funext d
  rcases Nat.lt_trichotomy d w.connections.length with h | h | h
  · simp [connected, makeShared, List.getElem?_append_left h]
  · subst h
    simp [connected, makeShared]
  · have hbefore : w.connections[d]? = none := List.getElem?_eq_none h.le
    have hafter : (w.connections ++ [⟨none, f⟩])[d]? = none :=
      List.getElem?_eq_none (by rw [List.length_append]; exact h)
    rw [connected, connected, makeShared, hbefore, hafter]

theorem length_setConnected (w : Signals ι γ) (c : Nat) (sig : Option ι) :
    (w.setConnected c sig).connections.length = w.connections.length :=
  List.length_modify _ _ _

theorem length_release (w : Signals ι γ) (cs : List Nat) :
    (w.release cs).connections.length = w.connections.length := by
  induction cs generalizing w with
  | nil => rfl
  | cons c cs ih => exact (ih (w.setConnected c none)).trans (length_setConnected w c none)

theorem signal_release (w : Signals ι γ) (cs : List Nat) : (w.release cs).signal = w.signal := by
  induction cs generalizing w with
  | nil => rfl
  | cons c cs ih => exact ih (w.setConnected c none)

theorem connected_release {w : Signals ι γ} {cs : List Nat}
    (h : ∀ c ∈ cs, c < w.connections.length) :
    (w.release cs).connected = fun c => if c ∈ cs then none else w.connected c := by
  induction cs generalizing w with
  | nil => simp [release]
  | cons c cs ih =>
    have hrest : ∀ d ∈ cs, d < (w.setConnected c none).connections.length := by
      intro d hd
      rw [length_setConnected]
      exact h d (List.mem_cons_of_mem c hd)
    change ((w.setConnected c none).release cs).connected = _
    rw [ih hrest, connected_setConnected (h c List.mem_cons_self)]
    funext d
    by_cases hd : d = c
    · subst hd
      simp
    · simp [hd]

/-- A connection points to the signal that lists it, and the lists are in the
order in which the connections were made. -/
structure Agrees (w : Signals ι γ) : Prop where
  linked : Links.Linked w.connected w.functions
  ordered : ∀ s, (w.functions s).Pairwise (· < ·)

theorem Agrees.lt {w : Signals ι γ} (h : w.Agrees) {s : ι} {c : Nat} (hc : c ∈ w.functions s) :
    c < w.connections.length := connected_lt ((h.linked.agree c s).mpr hc)

theorem agrees_create : (create : Signals ι γ).Agrees :=
  ⟨Links.linked_empty, fun _ => List.Pairwise.nil⟩

/-! ## The calls -/

variable [DecidableEq ι]

def setFunctions (w : Signals ι γ) (s : ι) (functions : List Nat) : Signals ι γ :=
  { w with signal := Function.update w.signal s { w.signal s with functions } }

def setBlock (w : Signals ι γ) (s : ι) (block : Bool) : Signals ι γ :=
  { w with signal := Function.update w.signal s { w.signal s with block } }

/-- The connection is returned by its number. -/
def connect (w : Signals ι γ) (s : ι) (f : γ) : Nat × Signals ι γ :=
  let c := w.connections.length
  (c, ((w.makeShared f).setConnected c (some s)).setFunctions s (w.functions s ++ [c]))

/-- Both overloads of `disconnect` look for the pointer in `m_functions`. -/
def unlink (w : Signals ι γ) (s : ι) (c : Nat) : Bool × Signals ι γ :=
  if c ∈ w.functions s then
    (true, (w.setConnected c none).setFunctions s ((w.functions s).erase c))
  else (false, w)

/-- `disconnect(const std::shared_ptr<Connection>&)`. -/
def disconnectShared (w : Signals ι γ) (s : ι) (c : Nat) : Bool × Signals ι γ := w.unlink s c

/-- `disconnect(const Connection*)`. -/
def disconnectRaw (w : Signals ι γ) (s : ι) (c : Nat) : Bool × Signals ι γ := w.unlink s c

/-- `Connection::disconnect`. -/
def disconnect (w : Signals ι γ) (c : Nat) : Bool × Signals ι γ :=
  match w.connected c with
  | some s => w.disconnectRaw s c
  | none => (false, w)

def disconnectAll (w : Signals ι γ) (s : ι) : Signals ι γ :=
  (w.release (w.functions s)).setFunctions s []

def blockSignal (w : Signals ι γ) (s : ι) : Signals ι γ := w.setBlock s true

def unblockSignal (w : Signals ι γ) (s : ι) : Signals ι γ := w.setBlock s false

inductive Call (ι γ : Type) where
  | connect (s : ι) (f : γ)
  | disconnect (c : Nat)
  | disconnectShared (s : ι) (c : Nat)
  | disconnectRaw (s : ι) (c : Nat)
  | disconnectAll (s : ι)
  | blockSignal (s : ι)
  | unblockSignal (s : ι)

def apply (w : Signals ι γ) : Call ι γ → Signals ι γ
  | .connect s f => (w.connect s f).2
  | .disconnect c => (w.disconnect c).2
  | .disconnectShared s c => (w.disconnectShared s c).2
  | .disconnectRaw s c => (w.disconnectRaw s c).2
  | .disconnectAll s => w.disconnectAll s
  | .blockSignal s => w.blockSignal s
  | .unblockSignal s => w.unblockSignal s

def run (w : Signals ι γ) (calls : List (Call ι γ)) : Signals ι γ := calls.foldl apply w

@[simp] theorem connected_setFunctions (w : Signals ι γ) (s : ι) (fs : List Nat) :
    (w.setFunctions s fs).connected = w.connected := rfl

@[simp] theorem connected_setBlock (w : Signals ι γ) (s : ι) (b : Bool) :
    (w.setBlock s b).connected = w.connected := rfl

@[simp] theorem functions_setFunctions (w : Signals ι γ) (s : ι) (fs : List Nat) :
    (w.setFunctions s fs).functions = Function.update w.functions s fs := by
  funext t
  by_cases h : t = s
  · subst h
    simp [functions, setFunctions]
  · simp [functions, setFunctions, h]

@[simp] theorem functions_setBlock (w : Signals ι γ) (s : ι) (b : Bool) :
    (w.setBlock s b).functions = w.functions := by
  funext t
  by_cases h : t = s
  · subst h
    simp [functions, setBlock]
  · simp [functions, setBlock, h]

@[simp] theorem isBlocked_setFunctions (w : Signals ι γ) (s : ι) (fs : List Nat) :
    (w.setFunctions s fs).isBlocked = w.isBlocked := by
  funext t
  by_cases h : t = s
  · subst h
    simp [isBlocked, setFunctions]
  · simp [isBlocked, setFunctions, h]

@[simp] theorem isBlocked_setBlock (w : Signals ι γ) (s : ι) (b : Bool) :
    (w.setBlock s b).isBlocked = Function.update w.isBlocked s b := by
  funext t
  by_cases h : t = s
  · subst h
    simp [isBlocked, setBlock]
  · simp [isBlocked, setBlock, h]

theorem connections_connect (w : Signals ι γ) (s : ι) (f : γ) :
    (w.connect s f).2.connections = w.connections ++ [⟨some s, f⟩] := by
  have hlt : w.connections.length < (w.makeShared f).connections.length := by
    simp [makeShared]
  obtain ⟨xs, x, ys, hsplit, hlen, hmodify⟩ := List.exists_of_modify
    (fun x : Connection ι γ => { x with connected := some s }) hlt
  obtain ⟨rfl, htail⟩ := List.append_inj hsplit hlen.symm
  cases htail
  exact hmodify

theorem functions_connect (w : Signals ι γ) (s : ι) (f : γ) :
    (w.connect s f).2.functions =
      Function.update w.functions s (w.functions s ++ [w.connections.length]) := by
  simp [connect]

theorem connected_connect (w : Signals ι γ) (s : ι) (f : γ) :
    (w.connect s f).2.connected =
      Function.update w.connected w.connections.length (some s) := by
  have hlt : w.connections.length < (w.makeShared f).connections.length := by
    simp [makeShared]
  rw [← connected_makeShared w f, ← connected_setConnected hlt]
  rfl

theorem functions_disconnectAll (w : Signals ι γ) (s : ι) :
    (w.disconnectAll s).functions = Function.update w.functions s [] := by
  have hrelease : (w.release (w.functions s)).functions = w.functions := by
    funext t
    rw [functions, signal_release]
    rfl
  rw [disconnectAll, functions_setFunctions, hrelease]

theorem connected_disconnectAll {w : Signals ι γ} {s : ι}
    (h : ∀ c ∈ w.functions s, c < w.connections.length) :
    (w.disconnectAll s).connected =
      fun c => if c ∈ w.functions s then none else w.connected c := by
  rw [disconnectAll, connected_setFunctions, connected_release h]

/-! ## The calls keep the two ends together -/

theorem Agrees.connect {w : Signals ι γ} (h : w.Agrees) (s : ι) (f : γ) :
    (w.connect s f).2.Agrees := by
  have hfresh : w.connected w.connections.length = none := by
    simp [connected]
  constructor
  · rw [connected_connect, functions_connect]
    exact h.linked.attach hfresh s
  · intro t
    rw [functions_connect]
    by_cases ht : t = s
    · subst ht
      rw [Function.update_self]
      refine List.pairwise_append.mpr ⟨h.ordered t, List.pairwise_singleton _ _, ?_⟩
      intro a ha b hb
      rw [List.mem_singleton.mp hb]
      exact h.lt ha
    · rw [Function.update_of_ne ht]
      exact h.ordered t

theorem Agrees.unlink {w : Signals ι γ} (h : w.Agrees) (s : ι) (c : Nat) :
    (w.unlink s c).2.Agrees := by
  unfold Signals.unlink
  split
  · rename_i hc
    have hconn := (h.linked.agree c s).mpr hc
    constructor
    · rw [connected_setFunctions, functions_setFunctions, functions_setConnected,
        connected_setConnected (h.lt hc)]
      exact h.linked.detach hconn
    · intro t
      rw [functions_setFunctions, functions_setConnected]
      by_cases ht : t = s
      · subst ht
        rw [Function.update_self]
        exact (h.ordered t).sublist List.erase_sublist
      · rw [Function.update_of_ne ht]
        exact h.ordered t
  · exact h

theorem Agrees.disconnect {w : Signals ι γ} (h : w.Agrees) (c : Nat) :
    (w.disconnect c).2.Agrees := by
  unfold Signals.disconnect
  cases w.connected c with
  | none => exact h
  | some s => exact h.unlink s c

theorem Agrees.disconnectAll {w : Signals ι γ} (h : w.Agrees) (s : ι) :
    (w.disconnectAll s).Agrees := by
  constructor
  · rw [connected_disconnectAll fun c hc => h.lt hc, functions_disconnectAll]
    exact h.linked.clear s
  · intro t
    rw [functions_disconnectAll]
    by_cases ht : t = s
    · subst ht
      rw [Function.update_self]
      exact List.Pairwise.nil
    · rw [Function.update_of_ne ht]
      exact h.ordered t

theorem Agrees.setBlock {w : Signals ι γ} (h : w.Agrees) (s : ι) (b : Bool) :
    (w.setBlock s b).Agrees := by
  constructor
  · rw [connected_setBlock, functions_setBlock]
    exact h.linked
  · rw [functions_setBlock]
    exact h.ordered

theorem Agrees.apply {w : Signals ι γ} (h : w.Agrees) (call : Call ι γ) :
    (w.apply call).Agrees := by
  cases call with
  | connect s f => exact h.connect s f
  | disconnect c => exact h.disconnect c
  | disconnectShared s c => exact h.unlink s c
  | disconnectRaw s c => exact h.unlink s c
  | disconnectAll s => exact h.disconnectAll s
  | blockSignal s => exact h.setBlock s true
  | unblockSignal s => exact h.setBlock s false

theorem run_snoc (w : Signals ι γ) (calls : List (Call ι γ)) (call : Call ι γ) :
    w.run (calls ++ [call]) = (w.run calls).apply call := by
  rw [run, List.foldl_append]
  rfl

theorem run_agrees (calls : List (Call ι γ)) : (run create calls : Signals ι γ).Agrees := by
  induction calls using List.reverseRecOn with
  | nil => exact agrees_create
  | append_singleton calls call ih =>
    rw [run_snoc]
    exact ih.apply call

/-! ## What a call finds -/

/-- Whether a connection was found, and what became of it. -/
structure Unlinked (w : Signals ι γ) (found : Prop) (c : Nat) (result : Bool × Signals ι γ) :
    Prop where
  returns : result.1 = true ↔ found
  apart : result.1 = true → result.2.connected c = none
  unchanged : result.1 = false → result.2 = w

theorem Agrees.unlink_spec {w : Signals ι γ} (h : w.Agrees) (s : ι) (c : Nat) :
    w.Unlinked (w.connected c = some s) c (w.unlink s c) := by
  rw [h.linked.agree c s]
  unfold Signals.unlink
  split
  · rename_i hc
    refine ⟨by simp [hc], fun _ => ?_, fun hf => by cases hf⟩
    rw [connected_setFunctions, connected_setConnected (h.lt hc), Function.update_self]
  · rename_i hc
    exact ⟨by simp [hc], fun ht => (by cases ht), fun _ => rfl⟩

theorem Agrees.disconnect_spec {w : Signals ι γ} (h : w.Agrees) (c : Nat) :
    w.Unlinked (∃ s, w.connected c = some s) c (w.disconnect c) := by
  unfold Signals.disconnect
  cases hc : w.connected c with
  | none => exact ⟨by simp, fun ht => (by cases ht), fun _ => rfl⟩
  | some s =>
    obtain ⟨hreturns, hapart, hsame⟩ := h.unlink_spec s c
    have hfound : (w.unlink s c).1 = true := hreturns.mpr hc
    exact ⟨⟨fun _ => ⟨s, rfl⟩, fun _ => hfound⟩, hapart, hsame⟩

/-- The connections of a signal, in the order in which they were made. -/
theorem Agrees.functions_eq {w : Signals ι γ} (h : w.Agrees) (s : ι) :
    w.functions s =
      (List.range w.connections.length).filter fun c => w.connected c = some s := by
  apply (h.ordered s).eq_of_mem_iff (List.pairwise_lt_range.filter _)
  intro c
  simp only [List.mem_filter, List.mem_range, decide_eq_true_eq, h.linked.agree c s]
  exact ⟨fun hc => ⟨h.lt hc, hc⟩, fun hc => hc.2⟩

/-- Only the two calls that are about it change whether a signal is blocked. -/
theorem isBlocked_apply (w : Signals ι γ) (call : Call ι γ) :
    (w.apply call).isBlocked = match call with
      | .blockSignal s => Function.update w.isBlocked s true
      | .unblockSignal s => Function.update w.isBlocked s false
      | _ => w.isBlocked := by
  have hunlink : ∀ s c, (w.unlink s c).2.isBlocked = w.isBlocked := by
    intro s c
    unfold unlink
    split
    · rw [isBlocked_setFunctions]
      rfl
    · rfl
  cases call with
  | connect s f => exact isBlocked_setFunctions _ s _
  | disconnect c =>
    change (w.disconnect c).2.isBlocked = _
    unfold disconnect
    cases w.connected c with
    | none => rfl
    | some s => exact hunlink s c
  | disconnectShared s c => exact hunlink s c
  | disconnectRaw s c => exact hunlink s c
  | disconnectAll s =>
    change (w.disconnectAll s).isBlocked = _
    rw [disconnectAll, isBlocked_setFunctions]
    funext t
    rw [isBlocked, signal_release]
    rfl
  | blockSignal s => exact isBlocked_setBlock w s true
  | unblockSignal s => exact isBlocked_setBlock w s false

/-- A signal is blocked when that was the last said about it. -/
theorem isBlocked_run (s : ι) (calls : List (Call ι γ)) :
    (run create calls : Signals ι γ).isBlocked s = true ↔
      Transition.Since (fun call => call = .blockSignal s) (fun call => call = .unblockSignal s)
        calls := by
  induction calls using List.reverseRecOn with
  | nil => exact ⟨fun h => (by cases h), fun h => absurd h Transition.not_since_nil⟩
  | append_singleton calls call ih =>
    rw [Transition.since_snoc, ← ih, run_snoc, isBlocked_apply]
    cases call with
    | blockSignal t =>
      by_cases h : t = s
      · subst h
        simp
      · simp [h, Function.update_of_ne (Ne.symm h)]
    | unblockSignal t =>
      by_cases h : t = s
      · subst h
        simp
      · simp [h, Function.update_of_ne (Ne.symm h)]
    | _ => simp

/-- The callback that a call gives to a signal. -/
def Call.callback? : Call ι γ → Option γ
  | .connect _ f => some f
  | _ => none

/-- The callbacks of the connections, in the order in which they were made. -/
def made (w : Signals ι γ) : List γ := w.connections.map Connection.callback

omit [DecidableEq ι] in
theorem made_setConnected (w : Signals ι γ) (c : Nat) (sig : Option ι) :
    (w.setConnected c sig).made = w.made := by
  apply List.ext_getElem?
  intro i
  simp only [made, setConnected, List.getElem?_map, List.getElem?_modify]
  cases w.connections[i]? with
  | none => rfl
  | some x => by_cases h : c = i <;> simp [h]

omit [DecidableEq ι] in
theorem made_release (w : Signals ι γ) (cs : List Nat) : (w.release cs).made = w.made := by
  induction cs generalizing w with
  | nil => rfl
  | cons c cs ih => exact (ih (w.setConnected c none)).trans (made_setConnected w c none)

theorem made_unlink (w : Signals ι γ) (s : ι) (c : Nat) : (w.unlink s c).2.made = w.made := by
  unfold unlink
  split
  · exact made_setConnected w c none
  · rfl

/-- Only `connect` makes a connection, and none loses its callback. -/
theorem made_apply (w : Signals ι γ) (call : Call ι γ) :
    (w.apply call).made = w.made ++ call.callback?.toList := by
  cases call with
  | connect s f =>
    change (w.connect s f).2.made = _
    rw [made, connections_connect, List.map_append]
    rfl
  | disconnect c =>
    change (w.disconnect c).2.made = _
    unfold disconnect
    cases w.connected c with
    | none => exact (List.append_nil _).symm
    | some s => exact (made_unlink w s c).trans (List.append_nil _).symm
  | disconnectShared s c => exact (made_unlink w s c).trans (List.append_nil _).symm
  | disconnectRaw s c => exact (made_unlink w s c).trans (List.append_nil _).symm
  | disconnectAll s => exact (made_release w (w.functions s)).trans (List.append_nil _).symm
  | blockSignal s => exact (List.append_nil _).symm
  | unblockSignal s => exact (List.append_nil _).symm

theorem made_run (calls : List (Call ι γ)) :
    (run create calls : Signals ι γ).made = calls.filterMap Call.callback? := by
  induction calls using List.reverseRecOn with
  | nil => rfl
  | append_singleton calls call ih =>
    rw [run_snoc, made_apply, ih, List.filterMap_append]
    cases call <;> rfl

/-- The elements at chosen places of a list, with their places. -/
theorem filterMap_places {α : Type} (p : Nat → Bool) (xs : List α) :
    ((List.range xs.length).filter p).filterMap (fun i => xs[i]?) =
      (xs.zipIdx.filter fun x => p x.2).map Prod.fst := by
  induction xs using List.reverseRecOn with
  | nil => rfl
  | append_singleton xs x ih =>
    have hbefore : ((List.range xs.length).filter p).filterMap (fun i => (xs ++ [x])[i]?) =
        ((List.range xs.length).filter p).filterMap fun i => xs[i]? := by
      apply List.filterMap_congr
      intro i hi
      rw [List.getElem?_append_left (List.mem_range.mp (List.mem_filter.mp hi).1)]
    rw [List.length_append, List.length_singleton, List.range_succ, List.filter_append,
      List.filterMap_append, hbefore, ih, List.zipIdx_append, List.filter_append, List.map_append]
    cases hp : p xs.length <;> simp [hp]

/-- The callbacks of a signal are those of the connections that point to it. -/
theorem Agrees.callbacks_eq {w : Signals ι γ} (h : w.Agrees) (s : ι) :
    w.callbacks (w.functions s) =
      (w.made.zipIdx.filter fun x => w.connected x.2 = some s).map Prod.fst := by
  rw [h.functions_eq s, ← filterMap_places (fun c => decide (w.connected c = some s)) w.made]
  simp only [callbacks, made, List.length_map, List.getElem?_map]

/-- What can be relied on after any calls. -/
structure Works (calls : List (Call ι γ)) (w : Signals ι γ) : Prop where
  listed : ∀ c s, w.connected c = some s ↔ c ∈ w.functions s
  once : ∀ c s, c ∈ w.functions s →
    (w.functions s).count c = 1 ∧ ∀ t, t ≠ s → c ∉ w.functions t
  disconnect : ∀ c, w.Unlinked (∃ s, w.connected c = some s) c (w.disconnect c)
  disconnectShared : ∀ s c, w.Unlinked (w.connected c = some s) c (w.disconnectShared s c)
  disconnectRaw : ∀ s c, w.Unlinked (w.connected c = some s) c (w.disconnectRaw s c)
  /-- The `n`-th connection is that of the `n`-th call of `connect`. -/
  made : w.connections.map Connection.callback = calls.filterMap Call.callback?
  block : ∀ s, w.isBlocked s = true ↔ Transition.Since (fun call => call = .blockSignal s)
    (fun call => call = .unblockSignal s) calls
  blocked : ∀ (m : Type → Type) [Monad m] (s : ι) (call : γ → m Unit),
    w.isBlocked s = true → w.notify s call = pure ()
  notifies : ∀ (m : Type → Type) [Monad m] (s : ι) (call : γ → m Unit), w.isBlocked s = false →
    w.notify s call = ((calls.filterMap Call.callback?).zipIdx.filter
      fun x => w.connected x.2 = some s).forM fun x => call x.1

/-- After any calls a connection points to a signal exactly if that signal lists
it, once, and no other does; a disconnect returns whether the connection was
there and otherwise changes nothing; and a notification runs, of the callbacks
that the calls of `connect` were given, those whose connection points to the
signal, each once and in the order of the calls, unless the signal is blocked. -/
theorem signals_run (calls : List (Call ι γ)) : (run create calls : Signals ι γ).Works calls where
  listed := (run_agrees calls).linked.agree
  once c s hc := by
    have h := (run_agrees calls).linked
    exact ⟨List.count_eq_one_of_mem (h.nodup s) hc, fun t ht hct => ht (h.owner_unique hct hc)⟩
  disconnect := (run_agrees calls).disconnect_spec
  disconnectShared := (run_agrees calls).unlink_spec
  disconnectRaw := (run_agrees calls).unlink_spec
  made := made_run calls
  block s := isBlocked_run s calls
  blocked m _ s call hb := by
    rw [notify, if_pos hb]
  notifies m _ s call hb := by
    rw [notify, if_neg (by simp [hb]), (run_agrees calls).callbacks_eq s, made_run,
      Loop.forM_map]

/-- Of three callbacks of one signal the second is disconnected, and of the
others each runs once. -/
theorem signals_run_three :
    let w : Signals Bool Nat := run create [.connect true 7, .connect true 8, .connect false 9,
      .connect true 10, .disconnect 1, .blockSignal false]
    w.isBlocked true = false ∧ w.isBlocked false = true ∧
    w.connections.map Connection.callback = [7, 8, 9, 10] ∧
    (w.notify true fun f => modify (· ++ [f]) : StateM (List Nat) Unit).run [] = ((), [7, 10]) ∧
    (w.notify false fun f => modify (· ++ [f]) : StateM (List Nat) Unit).run [] = ((), []) := by
  intro w
  have h := signals_run [.connect true 7, .connect true 8, .connect false 9, .connect true 10,
    .disconnect 1, .blockSignal false]
  refine ⟨rfl, rfl, h.made, ?_, ?_⟩
  · rw [h.notifies (StateM (List Nat)) true _ rfl]
    rfl
  · rw [h.blocked (StateM (List Nat)) false _ rfl]
    rfl

/-! ## Without the handles -/

/-- A signal as one sees it whose connections are never disconnected. -/
def view (w : Signals ι γ) (s : ι) : Signal γ := ⟨w.callbacks (w.functions s), w.isBlocked s⟩

omit [DecidableEq ι] in
theorem notify_view {σ : Type} (w : Signals ι γ) (s : ι) (call : γ → EStateM Error σ Unit) :
    w.notify s call = (w.view s).notify call := rfl

omit [DecidableEq ι] in
theorem view_create (s : ι) : (create : Signals ι γ).view s = Signal.create := rfl

theorem view_connect {w : Signals ι γ} (h : w.Agrees) (s t : ι) (f : γ) :
    (w.connect s f).2.view t = if t = s then (w.view s).connect f else w.view t := by
  have hold : (w.connect s f).2.callbacks (w.functions t) = w.callbacks (w.functions t) := by
    unfold callbacks
    apply List.filterMap_congr
    intro c hc
    rw [connections_connect, List.getElem?_append_left (h.lt hc)]
  have hnew : (w.connect s f).2.callbacks [w.connections.length] = [f] := by
    simp [callbacks, connections_connect]
  have hblock : (w.connect s f).2.isBlocked = w.isBlocked := isBlocked_setFunctions _ s _
  by_cases ht : t = s
  · subst ht
    rw [if_pos rfl, view, functions_connect, Function.update_self, hblock]
    have happend : (w.connect t f).2.callbacks (w.functions t ++ [w.connections.length]) =
        w.callbacks (w.functions t) ++ [f] := by
      rw [← hold, ← hnew]
      exact List.filterMap_append
    rw [happend]
    rfl
  · rw [if_neg ht, view, functions_connect, Function.update_of_ne ht, hblock, hold]
    rfl

end Signals

end Zeeno

end MqttExporter
