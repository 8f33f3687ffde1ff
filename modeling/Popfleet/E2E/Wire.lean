import Popfleet.E2E.Step

open Proto Program

namespace E2E

-- An incarnation of a sid: what a session opens for it, by the number of the spawn. It counts too when
-- no shell could be spawned.
structure Incarnation where
  number : Nat
  conn   : Nat
  sid    : String
  deriving DecidableEq

-- An incarnation was opened, or a frame was given to the socket of a session, which took it or not. The
-- frame belongs to an incarnation if it is its output or tells its exit.
inductive Wire
  | opened (x : Incarnation)
  | frame (x : Option Incarnation) (conn : Nat) (m : Msg) (sent : Bool)
  deriving DecidableEq

-- What there is to tell of a run besides its configurations: the number of incarnations so far, that of
-- each PTY by its pointer, the incarnations whose exit frame is the next thing that a thread sends, and
-- the events so far, newest first.
structure Wired (κ : Type) where
  config  : Config (State κ) (Op κ)
  opens   : Nat := 0
  number  : Nat → Nat := fun _ => 0
  exiting : Tid → Option Incarnation := fun _ => none
  log     : List Wire := []

def Input.sent : Input → Bool
  | .failed => false
  | _       => true

variable {κ : Type} [DecidableEq κ] (hkdf : Bytes → String → κ) (e2eKey : Bytes)

namespace Wired

def incarnation (w : Wired κ) (p : Pty κ) : Incarnation where
  number := w.number p.ptr
  conn   := p.conn
  sid    := p.sid

-- What a section does on the wire.
def watch (w : Wired κ) (t : Tid) (i : Input) : Op κ → Wired κ
  | .spawn conn sid _ _ =>
    let x : Incarnation := { number := w.opens, conn, sid }
    let w' := { w with opens := w.opens + 1, log := .opened x :: w.log }
    if i.sent then { w' with number := Function.update w.number w.config.shared.next w.opens }
    else { w' with exiting := Function.update w.exiting t (some x) }
  | .sendOut p m _ => { w with log := .frame (some (w.incarnation p)) p.conn m i.sent :: w.log }
  | .forget p => { w with exiting := Function.update w.exiting t (some (w.incarnation p)) }
  | .send conn m =>
    { w with
      exiting := Function.update w.exiting t none
      log     := .frame (w.exiting t) conn m i.sent :: w.log }
  | _ => w

def watched (w : Wired κ) : Label (Req κ) Input → Wired κ
  | .start _ _ => w
  | .step t i  => (w.config.procs t).head?.elim w (w.watch t i)

def step (w : Wired κ) (l : Label (Req κ) Input) : Option (Wired κ) :=
  ((program hkdf e2eKey).step w.config l).map fun config => { w.watched l with config }

end Wired

-- The runs of the agents, with what happens on the wire.
def wired : Transition (Wired κ) (Label (Req κ) Input) where
  Init w := (program hkdf e2eKey).system.Init w.config ∧ w = { config := w.config }
  step   := Wired.step hkdf e2eKey

end E2E
