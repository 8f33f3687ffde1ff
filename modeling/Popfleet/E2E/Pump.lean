import Popfleet.E2E.Step

open Proto

namespace E2E

-- The size of the channel `chunks`.
def chunksCap : Nat := 32

-- What `pump` reads and does, in this order.
inductive PumpEvent
  | read (b : Bytes)
  | out (m : Msg) (sent : Bool)
  | forgot
  | exit (m : Msg)
  deriving DecidableEq

-- The goroutines of a call of `pump`. The loop and what follows it is the thread of the agent that has
-- the sections `ops` left to run. The reader fills the channel, and `chunks` has what it read that the
-- loop has not got, with the chunk that waits for a place in the channel.
structure Pump (κ : Type) where
  agent  : State κ
  ops    : List (Op κ)
  chunks : List Bytes := []
  closed : Bool := false
  log    : List PumpEvent := []

-- `read` has the bytes of a call of `p.f.Read`, of which there are some, `readErr` is one that fails,
-- and `drain` is a step of the goroutine that empties the channel after the loop. The other threads of
-- the agent run their sections between those of `pump`.
inductive PumpLabel (κ : Type)
  | read (b : Bytes)
  | readErr
  | step (i : Input)
  | drain
  | start (r : Req κ)
  | other (op : Op κ) (i : Input)

-- The loop still sends output.
def Op.looping {κ : Type} : Op κ → Bool
  | .pump _ _ _ | .flush _ _ _ | .sendOut _ _ _ => true
  | _ => false

-- What a section leaves of the channel, when it gets this from it.
def receive {κ : Type} (chunks : List Bytes) (closed : Bool) : Op κ → Input → Option (List Bytes)
  | .pump _ _ _, .chunk b =>
    match chunks with
    | []           => none
    | b' :: chunks => if b' = b then some chunks else none
  | .pump _ _ _, .eof => if chunks = [] ∧ closed then some [] else none
  | _, _ => some chunks

def pumpEvents {κ : Type} : Op κ → Input → List PumpEvent
  | .sendOut _ m _, .failed => [.out m false]
  | .sendOut _ m _, _       => [.out m true]
  | .forget _, _            => [.forgot]
  | .send _ m, _            => [.exit m]
  | _, _                    => []

variable {κ : Type} [DecidableEq κ] (hkdf : Bytes → String → κ) (e2eKey : Bytes)

namespace Pump

def step (s : Pump κ) : PumpLabel κ → Option (Pump κ)
  | .read b =>
    if b ≠ [] ∧ s.chunks.length ≤ chunksCap ∧ !s.closed then
      some { s with chunks := s.chunks ++ [b], log := s.log ++ [.read b] }
    else
      none
  | .readErr => if s.closed then none else some { s with closed := true }
  | .step i =>
    match s.ops with
    | []         => none
    | op :: rest => do
      let chunks ← receive s.chunks s.closed op i
      let (agent, ops) ← exec hkdf e2eKey s.agent op i
      return { s with agent, ops := ops ++ rest, chunks, log := s.log ++ pumpEvents op i }
  | .drain => if s.ops.any Op.looping then none else some { s with chunks := s.chunks.tail }
  | .start r => (E2E.start e2eKey s.agent r).map fun (agent, _) => { s with agent }
  | .other op i => (exec hkdf e2eKey s.agent op i).map fun (agent, _) => { s with agent }

def system (p : Pty κ) : Transition (Pump κ) (PumpLabel κ) where
  Init s := ∃ σ, s = { agent := σ, ops := [.pump p [] false] }
  step   := step hkdf e2eKey

end Pump

end E2E
