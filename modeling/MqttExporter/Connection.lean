import MqttExporter.Base.Loop
import MqttExporter.Configuration

/-!
# The client's connection

The part of the client that connects and disconnects: its two tickets, and the
callbacks that trigger them. What the broker and the network do is one
`NetworkEvent` after the other.

* `connect_spec`, `disconnect_spec`: what a call changes, and when it raises.
-/

namespace MqttExporter

open Loop

structure Ticket where
  ready : Bool
  deriving DecidableEq

def Ticket.create : Ticket := ⟨false⟩

/-- `wait_for(0ms)`. -/
def Ticket.waitFor (t : Ticket) : Bool := t.ready

def Ticket.trigger (t : Ticket) : Ticket := if t.waitFor then t else ⟨true⟩

@[simp] theorem Ticket.ready_trigger (t : Ticket) : t.trigger.ready = true := by
  unfold Ticket.trigger Ticket.waitFor
  split
  · assumption
  · rfl

/-- `MosquittoClient::Configuration`, without what is only passed on. -/
structure ServerConfiguration where
  port : Nat
  address : Str
  username : Str
  password : Str
  deriving DecidableEq

/-- The tickets of the client, with what libmosquitto knows: whether a
connection was asked for and is not there yet, and whether one is up. -/
structure Connection where
  /-- Null before the first `connect`. -/
  connectTicket : Option Ticket
  disconnectTicket : Ticket
  requested : Bool
  up : Bool
  deriving DecidableEq

/-- What the client hears of the network; `established` and `lost` have no
callback of their own. -/
inductive NetworkEvent where
  | established
  | onConnected (rc : Int)
  | lost
  | onDisconnected (reason : Int)
  deriving DecidableEq

namespace Connection

def create : Connection := ⟨none, .create, false, false⟩

/-- The text of the exception when `mosquitto_connect_async` returns `retVal`. -/
def canNotConnect (strerror : Int → Str) (config : ServerConfiguration) (retVal : Int) : Str :=
  "Can not connect to ".toList ++ config.address ++ ":".toList ++ (toString config.port).toList ++
    " ".toList ++ config.username ++ ":".toList ++ config.password ++ " errcode:".toList ++
    strerror retVal

/-- The arguments after the configuration are what `mosquitto_username_pw_set`
and `mosquitto_connect_async` return. -/
def connect (strerror : Int → Str) (config : ServerConfiguration) (passwordSet connectAsync : Int) :
    EStateM Error Connection Unit := do
  modify fun c => { c with connectTicket := some .create }
  if config.username ≠ [] ∧ passwordSet ≠ 0 then
    throw (.client "Can not set a username + password")
  else if connectAsync ≠ 0 then
    throw (.client (String.ofList (canNotConnect strerror config connectAsync)))
  else modify fun c => { c with requested := true }

/-- `mosquitto_disconnect`: `MOSQ_ERR_NO_CONN` without a connection. -/
def mosquittoDisconnect (c : Connection) : Int := if c.up then 0 else 4

/-- The text of the exception when `mosquitto_disconnect` returns `retVal`. -/
def canNotDisconnect (strerror : Int → Str) (retVal : Int) : Str :=
  "Can not disconnect, errcode:".toList ++ strerror retVal

def disconnect (strerror : Int → Str) : EStateM Error Connection Unit := do
  modify fun c => { c with disconnectTicket := .create }
  let c ← get
  let retVal := c.mosquittoDisconnect
  if retVal ≠ 0 then
    throw (.client (String.ofList (canNotDisconnect strerror retVal)))

/-- The return code of the connection is not looked at. -/
def onConnected (c : Connection) (_rc : Int) : Connection :=
  { c with connectTicket := c.connectTicket.map Ticket.trigger }

def onDisconnected (c : Connection) (_reason : Int) : Connection :=
  { c with disconnectTicket := c.disconnectTicket.trigger }

/-- A connection comes up only when it was asked for, and a broker answers only
on a connection. -/
def network (c : Connection) : NetworkEvent → Option Connection
  | .established => if c.requested then some { c with requested := false, up := true } else none
  | .onConnected rc => if c.up then some (c.onConnected rc) else none
  | .lost => some { c with up := false }
  | .onDisconnected reason => some (c.onDisconnected reason)

theorem connect_spec (strerror : Int → Str) (config : ServerConfiguration)
    (passwordSet connectAsync : Int) (c : Connection) :
    (connect strerror config passwordSet connectAsync c =
        .ok () { c with connectTicket := some .create, requested := true }) ∨
      ∃ what, connect strerror config passwordSet connectAsync c =
        .error (.client what) { c with connectTicket := some .create } := by
  unfold connect
  by_cases hpassword : config.username ≠ [] ∧ passwordSet ≠ 0
  · rw [if_pos hpassword]
    exact Or.inr ⟨_, rfl⟩
  · rw [if_neg hpassword]
    by_cases hconnect : connectAsync ≠ 0
    · rw [if_pos hconnect]
      exact Or.inr ⟨_, rfl⟩
    · rw [if_neg hconnect]
      exact Or.inl rfl

/-- A call replaces the ticket, and raises without a connection. -/
theorem disconnect_spec (strerror : Int → Str) (c : Connection) :
    disconnect strerror c =
      if c.up then .ok () { c with disconnectTicket := .create }
      else .error (.client (String.ofList (canNotDisconnect strerror 4)))
        { c with disconnectTicket := .create } := by
  obtain ⟨connectTicket, disconnectTicket, requested, up⟩ := c
  cases up with
  | true => rfl
  | false => rfl

/-- Which events concern the connection, and which the tickets. -/
theorem network_spec {c c' : Connection} {e : NetworkEvent} (h : c.network e = some c') :
    (c'.up = true ↔ e = .established ∨ (e ≠ .lost ∧ c.up = true)) ∧
      (c'.disconnectTicket.ready = true ↔
        (∃ reason, e = .onDisconnected reason) ∨ c.disconnectTicket.ready = true) := by
  cases e with
  | established =>
    simp only [network] at h
    split at h
    · cases h
      simp
    · cases h
  | onConnected rc =>
    simp only [network] at h
    split at h
    · cases h
      simp [onConnected]
    · cases h
  | lost =>
    cases h
    simp
  | onDisconnected reason =>
    cases h
    simp [onDisconnected]

end Connection

end MqttExporter
