import Mathlib.Algebra.Ring.Int.Defs
import Popfleet.Contrib.Basic

open Proto V1e

namespace Contrib

variable (H : Mac 32) (G : Gcm tagLen) (int : String → Option Int) (fleetKey : Option Bytes)

-- `os.execvp` raises a `TypeError` on a command that is no string, and a `ValueError` on one with a NUL.
def unexecutable (cmd : Value) (cmdline : Bytes) : Bool :=
  match cmd with
  | .str _ => 0 ∈ cmdline
  | cmd    => cmd.truthy

namespace State

def record (σ : State) (e : Event) : State :=
  { σ with log := e :: σ.log }

def send (σ : State) (f : Msg) : State :=
  { σ with outbox := σ.outbox ++ [f] }.record (.queued f)

def cancelTimer (σ : State) (sid : String) : State :=
  { σ with
    timers := match σ.oflush.get? sid with
      | some id => σ.timers.delete id
      | none    => σ.timers
    oflush := σ.oflush.delete sid }

-- `seal` does not raise with a nonce of this size.
def flush (σ : State) (sid : String) (nonce : Nonce) : State :=
  let σ := σ.cancelTimer sid
  match σ.obuf.get? sid with
  | none     => σ
  | some buf =>
    let σ := { σ with obuf := σ.obuf.delete sid }
    if buf = [] then σ
    else
      let wire := match σ.enc.get? sid with
        | some enc => enc.sealPlain G nonce.val buf
        | none     => some (Base64.encode buf)
      match wire with
      | some data => σ.send { t := "out", sid, data }
      | none      => σ

def reap (σ : State) (sid : String) (notify : Bool) (env : Env) : State :=
  match σ.ptys.get? sid with
  | none   => σ
  | some p =>
    let σ := { σ with ptys := σ.ptys.delete sid }.flush G sid (env.nonce sid)
    let σ := { σ with enc := σ.enc.delete sid, readers := σ.readers.delete p }
    let σ := σ.record (.killed p (env.code p))
    if notify then σ.send { t := "exit", sid, code := some (env.code p) } else σ

def e2eKill (σ : State) (sid why : String) (env : Env) : State :=
  ({ σ with obuf := σ.obuf.delete sid }.send { t := "err", sid, msg := why }).reap G sid false env

def shutdown (σ : State) (env : Env) : State :=
  (σ.ptys.keys).foldl (fun σ sid => σ.reap G sid false env) σ

def drain (σ : State) (sid : String) (data : Option Bytes) (env : Env) : State :=
  match σ.ptys.get? sid, data with
  | none, _           => σ
  | some _, none      => σ
  | some _, some []   => σ.reap G sid true env
  | some p, some data =>
    let buf := (σ.obuf.get? sid).getD [] ++ data
    let σ := { σ with obuf := σ.obuf.set sid buf }.record (.read p data)
    if FLUSH_BYTES ≤ buf.length then σ.flush G sid (env.nonce sid)
    else if (σ.oflush.get? sid).isSome then σ
    else { σ with
      oflush := σ.oflush.set sid σ.next, timers := σ.timers.set σ.next sid, next := σ.next + 1 }

-- What `Pty.write` does, which ignores how much the PTY takes.
def write (σ : State) (p : Pty) (data : Bytes) (env : Env) : State :=
  match env.write with
  | some n => σ.record (.wrote p (data.take n))
  | none   => σ

-- What the agent does with a `Pty` that it got.
def insert (σ : State) (sid : String) (cmd : Value) (cmdline : Bytes) (enc : Option Contrib.E2E) : State :=
  let p : Pty := { ptr := σ.next, sid }
  { σ with
    ptys    := σ.ptys.set sid p
    enc     := match enc with
      | some enc => σ.enc.set sid enc
      | none     => σ.enc
    readers := σ.readers.set p sid
    next    := σ.next + 1 }.record (.spawned p cmd cmdline)

-- A `Pty` is started on the command line. Where `os.execvp` raises what is no `OSError`, the child unwinds
-- to `run_connection`, whose `shutdown` kills the processes of all the PTYs that there were.
def spawn (σ : State) (sid : String) (cmd : Value) (cmdline : Bytes) (enc : Option Contrib.E2E)
    (env : Env) : State :=
  if env.fork then
    let σ' := σ.insert sid cmd cmdline enc
    if unexecutable cmd cmdline then σ'.record (.unwound { ptr := σ.next, sid } σ.ptys.values) else σ'
  else
    σ.send { t := "exit", sid, code := some 127 }

end State

-- `enc.open(v)`, which returns None for what is no string.
def openValue (enc : Contrib.E2E) : Value → Option Bytes
  | .str wire => enc.openWire G wire
  | _         => none

-- `base64.b64decode(v)`, which raises on what is no string.
def b64decode : Value → Option Bytes
  | .str s => Base64.b64decode s
  | _      => none

-- What is handed to the shell of a command line, as the bytes that it is decoded from. A relay without
-- end-to-end encryption sends a string.
def cmdline : Value → Bytes
  | .str cmd => utf8 cmd
  | _        => []

-- The handlers return `none` where they raise, which they do before they change anything.

-- Such a relay also names each session by a string. With a fleet key, `encode` raises on any other sid.
def openPty (σ : State) (sid cmd : Value) (env : Env) : Option State :=
  match sid with
  | .str sid =>
    if sid = "" ∨ (σ.ptys.get? sid).isSome then some σ
    else
      match fleetKey with
      | none          => some (σ.spawn sid cmd (cmdline cmd) none env)
      | some fleetKey => do
        let enc ← Contrib.E2E.init H fleetKey sid
        if cmd.truthy then
          match openValue G enc cmd with
          | some plain => return σ.spawn sid cmd plain (some enc) env
          | none       =>
            let msg := "e2e decrypt failed (key mismatch or tampered cmd)"
            return σ.send { t := "err", sid, msg }
        else
          return σ.spawn sid cmd [] (some enc) env
  | sid => if sid.truthy then none else some σ

def handleIn (σ : State) (sid data : Value) (env : Env) : Option State :=
  match sid with
  | .str sid =>
    match σ.ptys.get? sid with
    | none   => some σ
    | some p =>
      match σ.enc.get? sid with
      | some enc =>
        match openValue G enc data with
        | some b => some (σ.write p b env)
        | none   => some (σ.e2eKill G sid "e2e decrypt failed (tampered frame)" env)
      | none => do return σ.write p (← b64decode data) env
  | sid => if sid.hashable then some σ else none

-- `struct.pack` takes 16 bits.
def handleResize (σ : State) (sid c r : Value) : Option State :=
  match sid with
  | .str sid =>
    match σ.ptys.get? sid with
    | none   => some σ
    | some p => do
      let cols ← c.toInt int
      let rows ← r.toInt int
      if 0 ≤ cols ∧ cols < 2 ^ 16 ∧ 0 ≤ rows ∧ rows < 2 ^ 16 then
        return σ.record (.resized p cols rows)
      else
        none
  | sid => if sid.hashable then some σ else none

def handleClose (σ : State) (sid : Value) (env : Env) : Option State :=
  match sid with
  | .str sid => some (σ.reap G sid true env)
  | sid      => if sid.hashable then some σ else none

def handle (σ : State) (m : Value) (env : Env) : Option State :=
  match m with
  | .dict fields =>
    let get k default := (fields.lookup k).getD default
    let sid := get "sid" .none
    match get "t" .none with
    | .str "hello_ok" => some { σ with enrolled := true }
    | .str "open"     => openPty H G fleetKey σ sid (get "cmd" .none) env
    | .str "in"       => handleIn G σ sid (get "data" (.str "")) env
    | .str "resize"   => handleResize int σ sid (get "c" (.int 80)) (get "r" (.int 24))
    | .str "close"    => handleClose G σ sid env
    | _               => some σ
  | _ => none

-- Where a handler raises, `pump_in` ends. Without a fleet key, a number as the sid of an open frame would
-- become the key of a PTY.
def step (σ : State) : Label → Option State
  | .frame m env =>
    if σ.pumping ∧ ¬(fleetKey = none ∧ m.numbered) then
      some ((handle H G int fleetKey σ m env).getD { σ with pumping := false })
    else
      none
  | .readable p data env => do return σ.drain G (← σ.readers.get? p) data env
  | .timer id env => do
    let sid ← σ.timers.get? id
    return { σ with timers := σ.timers.delete id }.flush G sid (env.nonce sid)
  | .heartbeat => some (σ.send { t := "hb" })
  | .pumpOut =>
    match σ.outbox with
    | []          => none
    | f :: outbox => some ({ σ with outbox }.record (.sent f))
  | .disconnected => some { σ with pumping := false }
  | .shutdown env => some ({ σ with pumping := false }.shutdown G env)

def system : Transition State Label where
  Init σ := σ = {}
  step   := step H G int fleetKey

end Contrib
