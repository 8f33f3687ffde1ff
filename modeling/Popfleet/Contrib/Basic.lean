import Popfleet.Lib.GoMap
import Popfleet.Lib.Transition
import Popfleet.Proto.Msg
import Popfleet.V1e.Codec

open Proto V1e

namespace Contrib

def FLUSH_BYTES : Nat := 4096

-- What `json.loads` returns. Of a float there is whether it is zero and what `int` makes of it, which
-- raises on infinities and on NaN.
inductive Value
  | none
  | bool (b : Bool)
  | int (n : Int)
  | float (zero : Bool) (trunc : Option Int)
  | str (s : String)
  | list (empty : Bool)
  | dict (fields : List (String × Value))

namespace Value

def truthy : Value → Bool
  | none         => false
  | bool b       => b
  | int n        => n ≠ 0
  | float zero _ => !zero
  | str s        => s ≠ ""
  | list empty   => !empty
  | dict fields  => !fields.isEmpty

-- A value that is no key of a dict raises where it is looked up.
def hashable : Value → Bool
  | list _ | dict _ => false
  | _               => true

-- The sid of an open frame is a number, which no relay sends.
def numbered : Value → Bool
  | dict fields =>
    match fields.lookup "t", fields.lookup "sid" with
    | some (str "open"), some (bool b)       => b
    | some (str "open"), some (int n)        => n ≠ 0
    | some (str "open"), some (float zero _) => !zero
    | _, _                                   => false
  | _ => false

-- `int(v)`, where `parse` is what it makes of a string.
def toInt (parse : String → Option Int) : Value → Option Int
  | bool b        => some (if b then 1 else 0)
  | int n         => some n
  | float _ trunc => trunc
  | str s         => parse s
  | _             => Option.none

end Value

-- A `Pty` object. No two of them have the same number.
structure Pty where
  ptr : Nat
  sid : String
  deriving DecidableEq

-- What is recorded of a run: the process of a PTY with the `cmd` of its frame and the command line that
-- it is to run, the child of a PTY that raised in `_exec` with the PTYs whose processes it killed then,
-- what a PTY was read, written and resized, the exit code of a PTY that was killed, the frames put on the
-- outbox, and those that the socket took.
inductive Event
  | spawned (p : Pty) (cmd : Value) (cmdline : Bytes)
  | unwound (p : Pty) (killed : List Pty)
  | read (p : Pty) (data : Bytes)
  | wrote (p : Pty) (data : Bytes)
  | resized (p : Pty) (cols rows : Int)
  | killed (p : Pty) (code : Int)
  | queued (f : Msg)
  | sent (f : Msg)

-- An `Agent` with what it registered at the event loop: the timers that are to call `flush`, and the
-- file descriptors that are to call `drain`, each with its sid. `pumping` says whether `pump_in` still
-- runs.
structure State where
  ptys     : GoMap String Pty := ∅
  enc      : GoMap String Contrib.E2E := ∅
  obuf     : GoMap String Bytes := ∅
  oflush   : GoMap String Nat := ∅
  timers   : GoMap Nat String := ∅
  readers  : GoMap Pty String := ∅
  outbox   : List Msg := []
  enrolled : Bool := false
  pumping  : Bool := true
  next     : Nat := 0
  log      : List Event := []

-- What `os.urandom(12)` returns.
abbrev Nonce := { nonce : Bytes // nonce.length = nonceLen }

-- What a callback gets from the system: whether `pty.fork` succeeds, how many bytes `os.write` takes if
-- it does not raise, the exit code of a PTY that is killed, and the nonce for what is sealed of a sid.
structure Env where
  fork  : Bool := true
  write : Option Nat := none
  code  : Pty → Int := fun _ => 137
  nonce : String → Nonce

-- A callback of the event loop, or a step of one of the tasks. `readable` has what `os.read` returns,
-- which is `none` where it would block.
inductive Label
  | frame (m : Value) (env : Env)
  | readable (p : Pty) (data : Option Bytes) (env : Env)
  | timer (id : Nat) (env : Env)
  | heartbeat
  | pumpOut
  | disconnected
  | shutdown (env : Env)

end Contrib
