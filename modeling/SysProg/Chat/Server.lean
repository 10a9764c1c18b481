/-
  SysProg.Chat.Server — charming_chatroom/server.c: the slots of the connections, and what the
  threads do with them.

  `run_server` accepts a connection when `clientsCount` leaves room, gives it the first free
  slot under the mutex and starts its thread. The thread reads messages from the descriptor in
  its slot and broadcasts each under the mutex; when its stream ends it closes the descriptor,
  then takes the mutex and clears the slot. `mutex` says where its holder is between lock and
  unlock. A broadcast comes to the slots in order, and to each open one with a header and, if
  that was sent, a payload; what it wrote is its log, with the connection that each
  descriptor was then open for, if any. `names` is the table of descriptors: `accept` may give
  any number that is not open.

  A connection has the number of those accepted before it, and its thread the same. The
  session is not ended, `pthread_create` succeeds, and how a message is read is
  `SysProg.Chat.ProcessClient`.
-/

import Mathlib.Logic.Function.Basic
import SysProg.Chat.Utils
import SysProg.Lib.Run

namespace SysProg.Chat

open Function (update)

def maxClients : Nat := 8

inductive Main where
  | idle
  | accepting
  | accepted (c fd : Nat)
  | inside
  deriving DecidableEq

inductive Stage where
  | absent
  | reading
  | writing (msg : Text)
  | closed
  | done
  deriving DecidableEq

structure Thread where
  slot : Nat
  stage : Stage
  deriving DecidableEq

/-- One call of `write_message_size` or `write_all_to_socket`, and whether it sent its text. -/
structure Write where
  fd : Nat
  conn : Option Nat
  text : Text
  sent : Bool
  deriving DecidableEq

/-- `write_to_clients` at slot `i`, where the header has been sent if `headed`. -/
structure Broadcast where
  client : Nat
  msg : Text
  i : Nat
  headed : Bool
  writes : List Write
  deriving DecidableEq

inductive Critical where
  | assign (c fd : Nat)
  | count (c i : Nat)
  | assigned
  | broadcast (b : Broadcast)
  | clear (c : Nat)
  | uncount
  | cleared
  deriving DecidableEq

structure Server where
  clients : List (Option Nat)
  clientsCount : Int
  mutex : Option Critical
  main : Main
  threads : Nat → Thread
  names : Nat → Option Nat
  accepted : Nat

inductive Move where
  | check
  | accept (fd : Nat)
  | lockMain
  | message (c : Nat) (msg : Text)
  | close (c : Nat)
  | lock (c : Nat)
  /-- The holder of the mutex takes its next step; a write it makes goes through if `ok`. -/
  | inside (ok : Bool)
  deriving DecidableEq

def start : Server := ⟨List.replicate maxClients none, 0, none, .idle, fun _ => ⟨0, .absent⟩, fun _ => none, 0⟩

def Server.setStage (s : Server) (c : Nat) (stage : Stage) : Server :=
  { s with threads := update s.threads c ⟨(s.threads c).slot, stage⟩ }

def Broadcast.write (b : Broadcast) (fd : Nat) (conn : Option Nat) (ok : Bool) : Broadcast :=
  let sent := ok && conn.isSome
  { b with
    i := if b.headed || !sent then b.i + 1 else b.i
    headed := !b.headed && sent
    writes := b.writes ++ [⟨fd, conn, if b.headed then b.msg else sizeBytes b.msg.length, sent⟩] }

def broadcastStep (s : Server) (b : Broadcast) (ok : Bool) : Server :=
  if b.i = maxClients then { s.setStage b.client .reading with mutex := none }
  else match s.clients.getD b.i none with
    | none => { s with mutex := some (.broadcast { b with i := b.i + 1 }) }
    | some fd => { s with mutex := some (.broadcast (b.write fd (s.names fd) ok)) }

/-- `clients[i] = clientSocket`. -/
def Server.place (s : Server) (c fd i : Nat) : Server :=
  { s with clients := s.clients.set i (some fd), mutex := some (.count c i) }

/-- `clientsCount++`, and the thread. -/
def Server.begin (s : Server) (c i : Nat) : Server :=
  { s with clientsCount := s.clientsCount + 1, threads := update s.threads c ⟨i, .reading⟩, mutex := some .assigned }

/-- `clients[clientId] = -1`. -/
def Server.clearSlot (s : Server) (c : Nat) : Server :=
  { s.setStage c .done with clients := s.clients.set (s.threads c).slot none, mutex := some .uncount }

def insideStep (s : Server) (ok : Bool) : Critical → Server
  | .assign c fd => match s.clients.findIdx? Option.isNone with
    | some i => s.place c fd i
    | none => { s with mutex := some .assigned }
  | .count c i => s.begin c i
  | .assigned => { s with mutex := none, main := .idle }
  | .broadcast b => broadcastStep s b ok
  | .clear c => s.clearSlot c
  | .uncount => { s with clientsCount := s.clientsCount - 1, mutex := some .cleared }
  | .cleared => { s with mutex := none }

def Server.closeSlot (s : Server) (i : Nat) : Server :=
  match s.clients.getD i none with
  | some fd => { s with names := update s.names fd none }
  | none => s

def Server.accept (s : Server) (fd : Nat) : Server :=
  { s with names := update s.names fd (some s.accepted), main := .accepted s.accepted fd, accepted := s.accepted + 1 }

def step (s : Server) : Move → Option Server
  | .check =>
    if s.main = .idle then some { s with main := if s.clientsCount < maxClients then .accepting else .idle } else none
  | .accept fd => if s.main = .accepting ∧ s.names fd = none then some (s.accept fd) else none
  | .lockMain => match s.main, s.mutex with
    | .accepted c fd, none => some { s with main := .inside, mutex := some (.assign c fd) }
    | _, _ => none
  | .message c msg =>
    if (s.threads c).stage = .reading ∧ msg ≠ [] then some (s.setStage c (.writing msg)) else none
  | .close c =>
    if (s.threads c).stage = .reading then some ((s.closeSlot (s.threads c).slot).setStage c .closed) else none
  | .lock c => match (s.threads c).stage, s.mutex with
    | .writing msg, none => some { s with mutex := some (.broadcast ⟨c, msg, 0, false, []⟩) }
    | .closed, none => some { s with mutex := some (.clear c) }
    | _, _ => none
  | .inside ok => s.mutex.map (insideStep s ok)

def server : Run.Sys Server Move := Run.ofFun (fun s => s = start) step

end SysProg.Chat
