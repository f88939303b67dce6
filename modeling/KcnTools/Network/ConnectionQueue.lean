import Mathlib.Data.List.Basic

/-!
The connection queue of `network/connection.c`: `check_queue` starts waiting connections and suspends
less urgent ones for them. A connection is in the state `S_WAIT` exactly when it is not running.
-/

namespace KcnTools.Network

def PRIORITIES : Nat := 7

/-- What `check_queue` reads of a connection; the owners give the priority. -/
structure Connection (Host : Type) where
  priority : Fin PRIORITIES
  host : Option Host
  post : Bool
  running : Bool

def PRI_CANCEL : Fin PRIORITIES := ⟨6, by decide⟩

/-- The options `max_connections_to_host` and `max_connections` are at least one. -/
structure Limits where
  maxConnsToHost : Nat
  maxConns : Nat
  hostPositive : 0 < maxConnsToHost
  positive : 0 < maxConns

variable {Host : Type}

def Connection.suspend (conn : Connection Host) : Connection Host := { conn with running := false }

def Connection.run (conn : Connection Host) : Connection Host := { conn with running := true }

inductive Event (Host : Type)
  | started (conn : Connection Host)
  | suspended (victim conn : Connection Host)

def activeConnections (queue : List (Connection Host)) : Nat := queue.countP fun conn => conn.running

def hostConnections [DecidableEq Host] (queue : List (Connection Host)) (host : Host) : Nat :=
  queue.countP fun conn => conn.running && conn.host = some host

variable [DecidableEq Host]

def suspendBack (priority : Fin PRIORITIES) (host : Option Host) :
    List (Connection Host) → Option (List (Connection Host) × Connection Host)
  | [] => none
  | conn :: rest =>
      if conn.priority ≤ priority then none
      else if conn.running = false ∨ (conn.post = true ∧ conn.priority < PRI_CANCEL) ∨
          (host ≠ none ∧ conn.host ≠ host) then
        (suspendBack priority host rest).map fun found => (conn :: found.1, found.2)
      else some (conn.suspend :: rest, conn)

def tryToSuspendConnection (conn : Connection Host) (host : Option Host) (queue : List (Connection Host)) :
    Option (List (Connection Host) × Event Host) :=
  (suspendBack conn.priority host queue.reverse).map fun found => (found.1.reverse, .suspended found.2 conn)

def hostFull (limits : Limits) (queue : List (Connection Host)) : Option Host → Bool
  | none => false
  | some host => hostConnections queue host ≠ 0 && limits.maxConnsToHost ≤ hostConnections queue host

/-- The result is `none` where nothing could be done. -/
def tryConnection (limits : Limits) (queue : List (Connection Host)) (index : Nat) (conn : Connection Host) :
    Option (List (Connection Host) × Event Host) :=
  if hostFull limits queue conn.host then tryToSuspendConnection conn conn.host queue
  else if limits.maxConns ≤ activeConnections queue then tryToSuspendConnection conn none queue
  else some (queue.modify index Connection.run, .started conn)

/-- One of the loops over the connections of a priority, from a position of the queue on. -/
def scanGroup (limits : Limits) (queue : List (Connection Host)) (wanted : Nat → Bool) :
    Nat → List (Connection Host) → Option (List (Connection Host) × Event Host)
  | _, [] => none
  | index, conn :: rest =>
      if conn.running = false ∧ wanted index = true then
        (tryConnection limits queue index conn).or (scanGroup limits queue wanted (index + 1) rest)
      else scanGroup limits queue wanted (index + 1) rest

def scanQueue (limits : Limits) (queue : List (Connection Host)) (keepalive : Nat → Bool) :
    Nat → Nat → List (Connection Host) → Option (List (Connection Host) × Event Host)
  | 0, _, _ => none
  | _ + 1, _, [] => none
  | fuel + 1, index, conn :: rest =>
      let group := (conn :: rest).takeWhile fun c => c.priority = conn.priority
      ((scanGroup limits queue keepalive index group).or (scanGroup limits queue (fun _ => true) index group)).or
        (scanQueue limits queue keepalive fuel (index + group.length) ((conn :: rest).drop group.length))

/-- The scan starts again after each success. Which connections have a keep-alive connection may
change from pass to pass; `none` is too little fuel. -/
def checkLoop (limits : Limits) (keepalive : Nat → Nat → Bool) :
    Nat → Nat → List (Connection Host) → Option (List (Connection Host) × List (Event Host))
  | 0, _, _ => none
  | fuel + 1, pass, queue =>
      match scanQueue limits queue (keepalive pass) queue.length 0 queue with
      | none => some (queue, [])
      | some (queue, event) =>
          (checkLoop limits keepalive fuel (pass + 1) queue).map fun result => (result.1, event :: result.2)

omit [DecidableEq Host] in
/-- The last loop, over the reversed queue: connections nobody waits for are dropped. -/
def interruptBack : List (Connection Host) → List (Connection Host)
  | [] => []
  | conn :: rest =>
      if conn.priority < PRI_CANCEL then conn :: rest
      else if conn.running then conn :: interruptBack rest
      else interruptBack rest

omit [DecidableEq Host] in
def dropInterrupted (queue : List (Connection Host)) : List (Connection Host) :=
  (interruptBack queue.reverse).reverse

def checkQueue (limits : Limits) (keepalive : Nat → Nat → Bool) (fuel : Nat) (queue : List (Connection Host)) :
    Option (List (Connection Host) × List (Event Host)) :=
  (checkLoop limits keepalive fuel 0 queue).map fun result => (dropInterrupted result.1, result.2)

end KcnTools.Network
