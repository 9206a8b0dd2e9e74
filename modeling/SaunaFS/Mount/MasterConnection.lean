/-
The connection of a mount to the master (`mount/mastercomm.cc`). Request threads, the keep-alive thread and the
receiving thread interleave; a step is what one of them does under `fdMutex`. A connection counts from its registration
on, and it is given up when `disconnect` is raised.
-/
import SaunaFS.Lib.Stepwise

namespace SaunaFS.Mount.MasterConnection

open Stepwise

structure State where
  /-- `fd` is a registered connection -/
  connected : Bool := false
  disconnect : Bool := false
  sessionlost : Bool := false
  /-- `sessionid` is not zero -/
  session : Bool := false
  /-- a connection was given up, and `masterDisconnectedCallback` has not been called since -/
  owed : Bool := false
  /-- how often the first packet on a connection was sent with a call owed -/
  unnotified : ℕ := 0

/-- `fs_init_master_connection`, after a successful `fs_connect` unless that is delayed -/
def init (delayedInit : Bool) : State :=
  if delayedInit then { sessionlost := true } else { connected := true, session := true }

/-- how an attempt to connect ends: before a packet is sent, after it (the session may be called lost), or registered -/
inductive Attempt
  | unreached
  | refused (lost : Bool)
  | registered

namespace State

variable (s : State)

/-- `disconnect = true`, outside of `setDisconnect` -/
def raise : State := { s with disconnect := true, owed := s.owed || !s.disconnect }

def setDisconnect : State := { s with disconnect := true, owed := false }

def firstPacket : State := { s with unnotified := s.unnotified + s.owed.toNat, owed := false }

def fsThrecFlush (written : Bool) : State := if s.sessionlost || !s.connected || written then s else s.raise

/-- a round of `fs_nop_thread`; for both packets whether it can be written, if it is due -/
def fsNopThread (nop reserved : Option Bool) : State :=
  if s.disconnect || !s.connected then s
  else
    let s := if nop = some false then s.raise else s
    if reserved = some false then s.raise else s

def fsReconnect (attempt : Attempt) : State :=
  if s.session then
    match attempt with
    | .unreached => s
    | .refused lost => { s.firstPacket with sessionlost := s.sessionlost || lost }
    | .registered => { s.firstPacket with connected := true }
  else s

def fsConnect : Attempt → State
  | .unreached => s
  | .refused _ => s.firstPacket
  | .registered => { s.firstPacket with connected := true, session := true, sessionlost := false }

/-- a round of `fs_receive_thread` up to where it reads a packet -/
def fsReceiveThread (first : Attempt) (resolved : Bool) (second : Attempt) : State :=
  let s := if s.disconnect then { s with connected := false, disconnect := false } else s
  let s := if s.connected then s else s.fsReconnect first
  if s.connected then s
  else if s.sessionlost then s.fsConnect second
  else if resolved then s.fsReconnect second
  else s

end State

/-- all other steps of the threads leave this state alone, or call `setDisconnect(true)` -/
inductive Event
  | flush (written : Bool)
  | nop (nop reserved : Option Bool)
  | receive (first : Attempt) (resolved : Bool) (second : Attempt)
  | setDisconnect

def step (s : State) : Event → State
  | .flush written => s.fsThrecFlush written
  | .nop nop reserved => s.fsNopThread nop reserved
  | .receive first resolved second => s.fsReceiveThread first resolved second
  | .setDisconnect => s.setDisconnect

/-- a packet can be written unless the connection has been given up already -/
def Writes (s : State) : Event → Prop
  | .flush written => s.connected → s.sessionlost ∨ s.disconnect ∨ written
  | .nop nop reserved => s.connected → s.disconnect ∨ nop ≠ some false ∧ reserved ≠ some false
  | _ => True

/-- no call is owed, and none was when a first packet was sent -/
def Notified (s : State) : Prop := s.owed = false ∧ s.unnotified = 0

variable {s : State}

theorem Notified.firstPacket (h : Notified s) : Notified s.firstPacket := by
  simp [Notified, State.firstPacket, h.1, h.2]

theorem Notified.fsReconnect (h : Notified s) (attempt : Attempt) : Notified (s.fsReconnect attempt) := by
  unfold State.fsReconnect
  split_ifs
  · cases attempt with
    | unreached => exact h
    | refused lost | registered => exact h.firstPacket
  · exact h

theorem Notified.fsConnect (h : Notified s) (attempt : Attempt) : Notified (s.fsConnect attempt) := by
  cases attempt with
  | unreached => exact h
  | refused lost | registered => exact h.firstPacket

theorem Notified.step (h : Notified s) {event : Event} (hw : Writes s event) : Notified (step s event) := by
  cases event with
  | flush written =>
    change Notified (if _ then _ else _)
    split_ifs with hi
    · exact h
    · simp only [Bool.or_eq_true, Bool.not_eq_true', not_or, Bool.not_eq_false] at hi
      have hd : s.disconnect := ((hw hi.1.2).resolve_left (by simp [hi.1.1])).resolve_right hi.2
      simp [Notified, State.raise, h.1, h.2, hd]
  | nop nop reserved =>
    change Notified (s.fsNopThread nop reserved)
    unfold State.fsNopThread
    by_cases hi : s.disconnect || !s.connected
    · rwa [if_pos hi]
    · rw [if_neg hi]
      simp only [Bool.or_eq_true, Bool.not_eq_true', not_or, Bool.not_eq_false] at hi
      obtain ⟨hn, hr⟩ := (hw hi.2).resolve_left hi.1
      simpa [hn, hr] using h
  | receive first resolved second =>
    change Notified (s.fsReceiveThread first resolved second)
    unfold State.fsReceiveThread
    extract_lets t u
    have ht : Notified t := by
      unfold t
      split_ifs <;> exact h
    have hu : Notified u := by
      unfold u
      split_ifs
      · exact ht
      · exact ht.fsReconnect first
    split_ifs
    · exact hu
    · exact hu.fsConnect second
    · exact hu.fsReconnect second
    · exact hu
  | setDisconnect => exact ⟨rfl, h.2⟩

/-- **Every lost connection is reported.** In a run in which packets can be written on a connection until it is given
up, the callback has been called before the first packet on the next one. -/
theorem lost_connection_reported {delayedInit : Bool} {es : List Event} (h : Along step Writes (init delayedInit) es) :
    (run step (init delayedInit) es).unnotified = 0 := by
  have h0 : Notified (init delayedInit) := by cases delayedInit <;> exact ⟨rfl, rfl⟩
  exact (inv_run (P := Notified) (fun _ _ hw hn => hn.step hw) (init delayedInit) es h h0).2

theorem lost_connection_reported_cut_off :
    (run step (init false) [.setDisconnect, .receive .registered false .unreached]).unnotified = 0 :=
  lost_connection_reported ⟨trivial, trivial, trivial⟩

/-- **A lost connection that nobody hears of.** A request or a keep-alive packet can not be written; the receiving
thread has just got its packet and reconnects. -/
theorem lost_connection_unreported :
    (run step (init false) [.flush false, .receive .registered false .unreached]).unnotified = 1 ∧
    (run step (init false) [.nop (some false) none, .receive .registered false .unreached]).unnotified = 1 := by
  decide

end SaunaFS.Mount.MasterConnection
