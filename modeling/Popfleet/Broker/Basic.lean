import Mathlib.Data.Vector.Basic
import Popfleet.Proto.Msg
import Popfleet.Store.Basic
import Popfleet.Lib.Interleaving

open Proto Store

namespace Broker

def keyTTL : Time := 60 * 10 ^ 9
def queueLen : Nat := 256

abbrev Digest := Vector UInt8 32

-- A websocket with its outbound queue: all the frames ever put on the queue, oldest first, how many of
-- them the writer goroutine has taken off it, and whether the queue is closed.
structure Conn where
  out    : List Msg := []
  taken  : Nat := 0
  closed : Bool := false
  deriving DecidableEq

namespace Conn

def full (c : Conn) : Bool :=
  queueLen ≤ c.out.length - c.taken

-- Returns whether the frame was enqueued.
def send (c : Conn) (m : Msg) : Conn × Bool :=
  if c.closed || c.full then (c, false) else ({ c with out := c.out ++ [m] }, true)

def close (c : Conn) (final : Option Msg) : Conn :=
  if c.closed then c
  else
    match final with
    | none   => { c with closed := true }
    | some m => { (c.send m).1 with closed := true }

-- The writer goroutine takes the next frame off the queue.
def drain (c : Conn) : Conn :=
  if c.taken < c.out.length then { c with taken := c.taken + 1 } else c

end Conn

-- A pointer to an `agentConn`, with the field that is never assigned again.
structure AgentConn where
  ptr : Nat
  mid : String
  deriving DecidableEq

-- A pointer to a `session`, with the fields that are never assigned again.
structure Session where
  ptr : Nat
  sid : String
  mid : String
  deriving DecidableEq

structure PendKey where
  keySum : Digest
  mid    : String
  cmd    : String
  exp    : Time
  deriving DecidableEq

-- What is recorded of a run besides the state of the broker.
inductive Event
  | machine (id : String)
  | minted (sid key : String) (p : PendKey)
  | accepted (sid k : String) (time : Time)
  | refused (sid k : String)
  | attached (s : Session)
  | opened (s : Session) (ac : AgentConn)
  | read (ac : AgentConn) (f : Msg)
  | revoked (id : String)
  deriving DecidableEq

-- The store, the maps of the broker, the connections behind the pointers, the number of pointers
-- handed out so far, the clock, and the events so far, newest first.
structure State where
  st         : Machines
  agents     : GoMap String AgentConn := ∅
  pend       : GoMap String PendKey := ∅
  sess       : GoMap String Session := ∅
  agentConns : AgentConn → Conn := fun _ => {}
  sessConns  : Session → Conn := fun _ => {}
  next       : Nat := 0
  now        : Time := 0
  log        : List Event := []

namespace State

-- The sid, the key and the record of each session minted.
def mints (σ : State) : List (String × String × PendKey) :=
  σ.log.filterMap fun | .minted sid key p => some (sid, key, p) | _ => none

-- The sid and the key of each request accepted, and when that was.
def accepts (σ : State) : List (String × String × Time) :=
  σ.log.filterMap fun | .accepted sid k t => some (sid, k, t) | _ => none

def attaches (σ : State) : List Session :=
  σ.log.filterMap fun | .attached s => some s | _ => none

def opens (σ : State) : List (Session × AgentConn) :=
  σ.log.filterMap fun | .opened s ac => some (s, ac) | _ => none

-- The ids of the machines whose deletion was answered with 204.
def revocations (σ : State) : List String :=
  σ.log.filterMap fun | .revoked id => some id | _ => none

-- No sid was drawn twice.
def FreshSids (σ : State) : Prop :=
  (σ.mints.map (·.1)).Nodup

end State

-- The sections of the handlers: what runs under one lock, and the calls that wait for the network.
inductive Op
  -- wsAgent
  | byToken (hello : Msg)
  | touch (mid name ver : String)
  | register (mid : String)
  | closeAgent (ac : AgentConn)
  | closeSess (s : Session) (final : Option Msg)
  | sendAgent (ac : AgentConn) (m : Msg)
  | readAgent (ac : AgentConn)
  | toBrowser (ac : AgentConn) (sid : String) (m : Msg)
  | sendBrowser (s : Session) (m : Msg)
  | ended (ac : AgentConn) (f : Msg)
  | dropAgent (ac : AgentConn) (why : String)
  | endSession (s : Session) (final : Option Msg) (notifyAgent : Bool)
  -- wsTerm
  | consume (sid k : String)
  | upgrade (sid : String) (p : PendKey) (ac : Option AgentConn)
  | attach (sid : String) (p : PendKey) (ac : Option AgentConn)
  | sendOpen (s : Session) (ac : Option AgentConn) (cmd : String)
  | readTerm (s : Session) (ac : AgentConn)
  | relay (s : Session) (ac : AgentConn) (m : Msg)
  -- the API and the sweep
  | mint (m : Machine) (saved : Bool)
  | byID (id cmd sid key : String)
  | mintKey (id cmd sid key : String)
  | delete (id : String)
  | revoke (id : String)
  | respond (id : String)
  | sweepAt (now : Time)
  deriving DecidableEq

-- A request, with what it will draw at random, or something that happens to the broker.
inductive Req
  | wsAgent (hello : Msg)
  | wsTerm (sid k : String)
  | apiMint (name id token : String) (saved : Bool)
  | apiTerm (id cmd sid key : String)
  | apiDelete (id : String)
  | sweep
  | tick (d : Time)
  | drainAgent (ac : AgentConn)
  | drainSess (s : Session)

-- What a section that waits for the network gets.
inductive Input
  | done
  | frame (f : Msg)
  | failed

end Broker
