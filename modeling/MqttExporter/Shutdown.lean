import MqttExporter.Base.History
import MqttExporter.Connection

/-!
# Destruction of the client

A client is connected, disconnected, lost by the broker and in the end
destroyed, by itself or after `App`. An exception that leaves a destructor ends
the program; nothing happens after it.

* `step_cases`: what a step can do;
* `Remembers`: what the tickets and the phase tell of the history;
* `no_escape_iff`: which histories let no exception escape.
-/

namespace MqttExporter

open Loop Transition

/-- How far the destruction has come. -/
inductive ShutdownPhase where
  | alive
  /-- In `App`'s destructor, after its call of `disconnect`. -/
  | appDestroyed
  /-- In `MosquittoClient`'s destructor, with what `wait_for` returned. -/
  | checked (ready : Bool)
  | destroyed
  | escaped (e : Error)
  deriving DecidableEq

structure Shutdown where
  connection : Connection
  phase : ShutdownPhase
  deriving DecidableEq

/-- The destructor of the client looks at its ticket when it starts
(`destroyClient`) and disconnects or not after that (`finishClient`). -/
inductive ShutdownAction where
  | connect (passwordSet connectAsync : Int)
  | disconnect
  | network (e : NetworkEvent)
  | destroyApp
  | destroyClient
  | finishClient
  deriving DecidableEq

namespace Shutdown

def initial : Shutdown := ⟨.create, .alive⟩

/-- A destructor calls `disconnect` and catches nothing. -/
def disconnectThen (strerror : Int → Str) (s : Shutdown) (phase : ShutdownPhase) : Shutdown :=
  match s.connection.disconnect strerror with
  | .ok _ c => ⟨c, phase⟩
  | .error e c => ⟨c, .escaped e⟩

/-- An exception of `connect` or of an explicit `disconnect` goes to the caller. -/
def step (strerror : Int → Str) (config : ServerConfiguration) (s : Shutdown) :
    ShutdownAction → Option Shutdown
  | .connect passwordSet connectAsync =>
    if s.phase = .alive then
      some ⟨final (s.connection.connect strerror config passwordSet connectAsync), s.phase⟩
    else none
  | .disconnect =>
    if s.phase = .alive then
      some ⟨final (s.connection.disconnect strerror), s.phase⟩
    else none
  | .network e =>
    match s.phase with
    | .destroyed | .escaped _ => none
    | .alive | .appDestroyed | .checked _ =>
      (s.connection.network e).map fun c => { s with connection := c }
  | .destroyApp =>
    if s.phase = .alive then some (s.disconnectThen strerror .appDestroyed) else none
  | .destroyClient =>
    if s.phase = .alive ∨ s.phase = .appDestroyed then
      some { s with phase := .checked s.connection.disconnectTicket.waitFor }
    else none
  | .finishClient =>
    match s.phase with
    | .checked true => some { s with phase := .destroyed }
    | .checked false => some (s.disconnectThen strerror .destroyed)
    | .alive | .appDestroyed | .destroyed | .escaped _ => none

variable {strerror : Int → Str} {config : ServerConfiguration}

theorem disconnectThen_eq (s : Shutdown) (phase : ShutdownPhase) :
    s.disconnectThen strerror phase =
      ⟨{ s.connection with disconnectTicket := .create },
        if s.connection.up then phase
        else .escaped (.client (String.ofList (Connection.canNotDisconnect strerror 4)))⟩ := by
  rw [disconnectThen, Connection.disconnect_spec]
  by_cases hup : s.connection.up = true
  · simp only [if_pos hup]
  · simp only [if_neg hup]

/-- What a step can do. -/
theorem step_cases {s s' : Shutdown} {a : ShutdownAction}
    (h : step strerror config s a = some s') :
    (∃ p r c, a = .connect p r ∧ s.phase = .alive ∧ s' = { s with connection := c } ∧
      c.disconnectTicket = s.connection.disconnectTicket ∧ c.up = s.connection.up) ∨
    (∃ c, a = .disconnect ∧ s.phase = .alive ∧ s' = { s with connection := c } ∧
      c.disconnectTicket = .create ∧ c.up = s.connection.up) ∨
    (∃ e c, a = .network e ∧ (∀ e, s.phase ≠ .escaped e) ∧ s.connection.network e = some c ∧
      s' = { s with connection := c }) ∨
    (a = .destroyApp ∧ s.phase = .alive ∧ s' = s.disconnectThen strerror .appDestroyed) ∨
    (a = .destroyClient ∧ (s.phase = .alive ∨ s.phase = .appDestroyed) ∧
      s' = { s with phase := .checked s.connection.disconnectTicket.waitFor }) ∨
    (a = .finishClient ∧ s.phase = .checked true ∧ s' = { s with phase := .destroyed }) ∨
    (a = .finishClient ∧ s.phase = .checked false ∧
      s' = s.disconnectThen strerror .destroyed) := by
  cases a with
  | connect p r =>
    simp only [step] at h
    split at h
    · rename_i hphase
      cases h
      refine Or.inl ⟨p, r, _, rfl, hphase, rfl, ?_⟩
      rcases Connection.connect_spec strerror config p r s.connection with hc | ⟨what, hc⟩
      · rw [hc]
        exact ⟨rfl, rfl⟩
      · rw [hc]
        exact ⟨rfl, rfl⟩
    · cases h
  | disconnect =>
    simp only [step] at h
    split at h
    · rename_i hphase
      cases h
      refine Or.inr (Or.inl ⟨_, rfl, hphase, rfl, ?_⟩)
      rw [Connection.disconnect_spec]
      split <;> exact ⟨rfl, rfl⟩
    · cases h
  | network e =>
    simp only [step] at h
    refine Or.inr (Or.inr (Or.inl ?_))
    split at h
    · cases h
    · cases h
    all_goals
      rename_i hphase
      obtain ⟨c, hc, rfl⟩ := Option.map_eq_some_iff.mp h
      exact ⟨e, c, rfl, by simp [hphase], hc, rfl⟩
  | destroyApp =>
    simp only [step] at h
    split at h
    · rename_i hphase
      cases h
      exact Or.inr (Or.inr (Or.inr (Or.inl ⟨rfl, hphase, rfl⟩)))
    · cases h
  | destroyClient =>
    simp only [step] at h
    split at h
    · rename_i hphase
      cases h
      exact Or.inr (Or.inr (Or.inr (Or.inr (Or.inl ⟨rfl, hphase, rfl⟩))))
    · cases h
  | finishClient =>
    simp only [step] at h
    split at h
    · rename_i hphase
      cases h
      exact Or.inr (Or.inr (Or.inr (Or.inr (Or.inr (Or.inl ⟨rfl, hphase, rfl⟩)))))
    · rename_i hphase
      cases h
      exact Or.inr (Or.inr (Or.inr (Or.inr (Or.inr (Or.inr ⟨rfl, hphase, rfl⟩)))))
    all_goals cases h

/-! ## What is remembered of a history -/

/-- A connection came up and was not lost. -/
def ConnectedAt : List ShutdownAction → Prop :=
  Since (fun a => a = .network .established) fun a => a = .network .lost

/-- A disconnect event was handled after the last call of `disconnect`. -/
def DisconnectSeen : List ShutdownAction → Prop :=
  Since (fun a => ∃ reason, a = .network (.onDisconnected reason))
    fun a => a = .disconnect ∨ a = .destroyApp

/-- The history when the client's destructor starts. -/
def untilDestruction (as : List ShutdownAction) : List ShutdownAction :=
  as.takeWhile fun a => a ≠ .destroyClient

/-- `App`'s destructor finds a connection; the client's destructor finds one, or
a disconnect event was handled before it started. -/
def Prepared (as : List ShutdownAction) : ShutdownAction → Prop
  | .destroyApp => ConnectedAt as
  | .finishClient => ConnectedAt as ∨ DisconnectSeen (untilDestruction as)
  | .connect _ _ | .disconnect | .network _ | .destroyClient => True

theorem up_iff {as : List ShutdownAction} {s : Shutdown}
    (h : run (step strerror config) initial as = some s) :
    s.connection.up = true ↔ ConnectedAt as := by
  refine flag_iff (F := fun s => s.connection.up = true) (by simp [initial, Connection.create])
    ?_ h
  intro s a s' hstep
  rcases step_cases hstep with ⟨p, r, c, rfl, -, rfl, -, hup⟩ | ⟨c, rfl, -, rfl, -, hup⟩ |
    ⟨e, c, rfl, -, hc, rfl⟩ | ⟨rfl, -, rfl⟩ | ⟨rfl, -, rfl⟩ | ⟨rfl, -, rfl⟩ | ⟨rfl, -, rfl⟩
  · simp [hup]
  · simp [hup]
  · simp [(Connection.network_spec hc).1]
  · simp [disconnectThen_eq]
  · simp
  · simp
  · simp [disconnectThen_eq]

theorem untilDestruction_of_not_mem {as : List ShutdownAction} (h : .destroyClient ∉ as) :
    untilDestruction as = as := by
  rw [untilDestruction, List.takeWhile_eq_self_iff]
  intro a ha
  simpa using fun heq : a = .destroyClient => h (heq ▸ ha)

theorem untilDestruction_snoc {as : List ShutdownAction} {a : ShutdownAction}
    (h : .destroyClient ∈ as ∨ a = .destroyClient) :
    untilDestruction (as ++ [a]) = untilDestruction as := by
  unfold untilDestruction
  induction as with
  | nil => simpa using h
  | cons b as ih =>
    by_cases hb : b = .destroyClient
    · simp [hb]
    · have hrest : .destroyClient ∈ as ∨ a = .destroyClient := by
        simpa [Ne.symm hb] using h
      simpa [hb] using ih hrest

/-- What the phase and the ticket tell of the history. -/
structure Remembers (as : List ShutdownAction) (s : Shutdown) : Prop where
  notStarted : s.phase = .alive ∨ s.phase = .appDestroyed → .destroyClient ∉ as ∧
    (s.connection.disconnectTicket.ready = true ↔ DisconnectSeen as)
  checked : ∀ ready, s.phase = .checked ready → .destroyClient ∈ as ∧
    (ready = true ↔ DisconnectSeen (untilDestruction as))
  escapes : (∀ e, s.phase ≠ .escaped e) ↔ Throughout Prepared as

theorem remembers_initial : Remembers [] initial where
  notStarted _ :=
    ⟨List.not_mem_nil, ⟨fun h => (by cases h), fun h => absurd h not_since_nil⟩⟩
  checked _ h := by cases h
  escapes := ⟨fun _ => throughout_nil Prepared, fun _ _ h => (by cases h)⟩

/-- A step of a program that goes on, with nothing to be prepared for. -/
theorem remembers_harmless {as : List ShutdownAction} {s s' : Shutdown} {a : ShutdownAction}
    (hs : Remembers as s) (hphase : s'.phase = s.phase)
    (ha : a ≠ .destroyClient) (hp : Prepared as a)
    (hready : s'.connection.disconnectTicket.ready = true ↔
      (∃ reason, a = .network (.onDisconnected reason)) ∨ (¬ (a = .disconnect ∨ a = .destroyApp) ∧
        s.connection.disconnectTicket.ready = true)) : Remembers (as ++ [a]) s' where
  notStarted h := by
    rw [hphase] at h
    obtain ⟨hnot, hseen⟩ := hs.notStarted h
    refine ⟨by simp [hnot, Ne.symm ha], ?_⟩
    rw [hready, DisconnectSeen, since_snoc, hseen]
    rfl
  checked ready h := by
    rw [hphase] at h
    obtain ⟨hmem, hseen⟩ := hs.checked ready h
    exact ⟨List.mem_append_left _ hmem, by rw [hseen, untilDestruction_snoc (Or.inl hmem)]⟩
  escapes := by
    rw [throughout_snoc, hphase, hs.escapes]
    exact ⟨fun h => ⟨h, hp⟩, fun h => h.1⟩

/-- A destructor's call of `disconnect` goes on to a phase or lets its exception
escape, as there is a connection or not. -/
theorem escapes_disconnectThen {as : List ShutdownAction} {s : Shutdown} {a : ShutdownAction}
    {phase : ShutdownPhase} (hs : Remembers as s) (hrun : ∀ e, s.phase ≠ .escaped e)
    (hphase : ∀ e, phase ≠ .escaped e) (hp : Prepared as a ↔ s.connection.up = true) :
    (∀ e, (s.disconnectThen strerror phase).phase ≠ .escaped e) ↔
      Throughout Prepared (as ++ [a]) := by
  rw [throughout_snoc, hp, disconnectThen_eq, ← hs.escapes]
  by_cases hup : s.connection.up = true
  · simp [hup, hphase, hrun]
  · simp [hup]

theorem remembers_step {as : List ShutdownAction} {s s' : Shutdown} {a : ShutdownAction}
    (hrun : run (step strerror config) initial as = some s) (hs : Remembers as s)
    (h : step strerror config s a = some s') : Remembers (as ++ [a]) s' := by
  have hup := up_iff hrun
  rcases step_cases h with ⟨p, r, c, rfl, -, rfl, hticket, -⟩ | ⟨c, rfl, -, rfl, hticket, -⟩ |
    ⟨e, c, rfl, -, hc, rfl⟩ | ⟨rfl, hphase, rfl⟩ | ⟨rfl, hphase, rfl⟩ | ⟨rfl, hphase, rfl⟩ |
    ⟨rfl, hphase, rfl⟩
  · exact remembers_harmless hs rfl nofun trivial (by simp [hticket])
  · exact remembers_harmless hs rfl nofun trivial (by simp [hticket, Ticket.create])
  · exact remembers_harmless hs rfl nofun trivial (by simp [(Connection.network_spec hc).2])
  · obtain ⟨hnot, hseen⟩ := hs.notStarted (Or.inl hphase)
    refine ⟨fun _ => ⟨by simp [hnot], ?_⟩, fun ready hready => ?_, ?_⟩
    · rw [DisconnectSeen, since_snoc, disconnectThen_eq]
      simp [Ticket.create]
    · rw [disconnectThen_eq] at hready
      split at hready <;> cases hready
    · exact escapes_disconnectThen hs (by simp [hphase]) nofun hup.symm
  · obtain ⟨hnot, hseen⟩ := hs.notStarted hphase
    refine ⟨fun hstart => ?_, fun ready hready => ⟨by simp, ?_⟩, ?_⟩
    · rcases hstart with h | h <;> cases h
    · cases hready
      rw [untilDestruction_snoc (Or.inr rfl), untilDestruction_of_not_mem hnot, ← hseen]
      rfl
    · rw [throughout_snoc, ← hs.escapes]
      rcases hphase with h | h <;> simp [h, Prepared]
  · obtain ⟨hmem, hseen⟩ := hs.checked true hphase
    refine ⟨fun hstart => ?_, fun ready hready => (by cases hready), ?_⟩
    · rcases hstart with h | h <;> cases h
    · rw [throughout_snoc, ← hs.escapes]
      simp [hphase, Prepared, hseen.mp rfl]
  · obtain ⟨hmem, hseen⟩ := hs.checked false hphase
    have hp : Prepared as .finishClient ↔ s.connection.up = true := by
      rw [hup]
      exact or_iff_left fun hd => absurd (hseen.mpr hd) nofun
    refine ⟨fun hstart => ?_, fun ready hready => ?_, ?_⟩
    · rw [disconnectThen_eq] at hstart
      split at hstart <;> rcases hstart with h | h <;> cases h
    · rw [disconnectThen_eq] at hready
      split at hready <;> cases hready
    · exact escapes_disconnectThen hs (by simp [hphase]) nofun hp

/-- No exception leaves a destructor exactly when each of them finds what it is
prepared for. -/
theorem no_escape_iff (strerror : Int → Str) (config : ServerConfiguration)
    (actions : List ShutdownAction) (s : Shutdown)
    (h : run (step strerror config) initial actions = some s) :
    (∀ e, s.phase ≠ .escaped e) ↔ Throughout Prepared actions :=
  (history_induction (P := Remembers) remembers_initial
    (fun _ _ _ _ hrun hs hstep => remembers_step hrun hs hstep) h).escapes

/-- A connected program that ends as it should. -/
theorem no_escape_orderly : Throughout Prepared
    [.connect 0 0, .network .established, .network (.onConnected 0), .destroyApp, .network .lost,
      .network (.onDisconnected 0), .destroyClient, .finishClient] :=
  (no_escape_iff (fun _ => []) ⟨1883, "localhost".toList, [], []⟩ _ _ rfl).mp nofun

/-- The broker never answers, and `App`'s constructor gives up. -/
theorem never_answered : ¬ ∀ strerror config actions s,
    run (step strerror config) initial actions = some s → ∀ e, s.phase ≠ .escaped e := by
  intro h
  exact h (fun _ => []) ⟨1883, "localhost".toList, [], []⟩
    [.connect 0 0, .destroyClient, .finishClient] _ rfl _ rfl

end Shutdown

end MqttExporter
