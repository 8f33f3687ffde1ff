import Popfleet.Broker.Basic

open Proto Program

-- A `conn` step by step: what its methods do under its mutex, and what the channel of the queue does.
namespace Broker.Queue

inductive Call
  | send (m : Msg)
  | close (final : Option Msg)
  | take

-- Whether the mutex is held, the field `closed`, the frames ever put on the channel, how many of them
-- were received, whether the channel was closed, and whether a goroutine panicked. The calls are in the
-- order in which they took effect, the latest first.
structure State where
  locked   : Bool := false
  closed   : Bool := false
  out      : List Msg := []
  taken    : Nat := 0
  ended    : Bool := false
  panicked : Bool := false
  calls    : List Call := []

inductive Op
  | lockSend (m : Msg)
  | send (m : Msg)
  | enqueue (m : Msg)
  | lockClose (final : Option Msg)
  | close (final : Option Msg)
  | enqueueFinal (m : Msg)
  | closeOut
  | unlock

namespace State

def record (σ : State) (call : Call) : State :=
  { σ with calls := call :: σ.calls }

def full (σ : State) : Bool :=
  queueLen ≤ σ.out.length - σ.taken

-- `select` with the frame as the only case besides the default. A send on a closed channel panics.
def select (σ : State) (m : Msg) : State :=
  if σ.ended then { σ with panicked := true }
  else if σ.full then σ
  else { σ with out := σ.out ++ [m] }

end State

def start (σ : State) : Call → Option (State × List Op)
  | .send m      => some (σ, [.lockSend m])
  | .close final => some (σ, [.lockClose final])
  | .take        =>
    if σ.taken < σ.out.length then some ({ σ with taken := σ.taken + 1 }.record .take, []) else none

def exec (σ : State) : Op → Unit → Option (State × List Op)
  | .lockSend m, _ =>
    if σ.locked then none else some ({ σ with locked := true }, [.send m, .unlock])
  | .send m, _ => if σ.closed then some (σ.record (.send m), []) else some (σ, [.enqueue m])
  | .enqueue m, _ => some ((σ.select m).record (.send m), [])
  | .lockClose final, _ =>
    if σ.locked then none else some ({ σ with locked := true }, [.close final, .unlock])
  | .close final, _ =>
    if σ.closed then some (σ.record (.close final), [])
    else
      match final with
      | none   => some ({ σ with closed := true }.record (.close none), [.closeOut])
      | some m => some ({ σ with closed := true }, [.enqueueFinal m, .closeOut])
  | .enqueueFinal m, _ => some ((σ.select m).record (.close (some m)), [])
  -- `close` of a closed channel panics, too.
  | .closeOut, _ =>
    some (if σ.ended then { σ with panicked := true } else { σ with ended := true }, [])
  | .unlock, _ => some ({ σ with locked := false }, [])

def program : Program State Call Op Unit where
  Init σ := σ = {}
  start  := start
  exec   := exec

end Broker.Queue
