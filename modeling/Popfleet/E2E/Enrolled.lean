import Popfleet.E2E.Wire

open Proto Program

namespace E2E

-- An agent without a fleet key at its end of one websocket, with what there is to tell of it: the frames
-- that it read, the ones that it gave to the websocket and the ones that this took, whether a write to
-- it failed, and what was got from the shells of a sid, with their exit codes and whether the output of
-- one was at its end or could not be sent.
structure Enrolled where
  agent   : State Unit := {}
  heard   : List Msg := []
  tried   : List Msg := []
  sents   : List Msg := []
  lost    : Bool := false
  printed : String → Bytes := fun _ => []
  drained : String → Bool := fun _ => false
  codes   : String → List Int := fun _ => []

-- The frame that a section reads, the frame that it gives to the websocket, and what it gets from a shell
-- of a sid, or that it gets no more.

def Op.heard : Op Unit → Input → Option Msg
  | .helloOk _, .frame m | .readJSON _, .frame m => some m
  | _, _ => none

def Op.gives : Op Unit → Option Msg
  | .send _ m | .sendOut _ m _ => some m
  | _                          => none

def Op.read (sid : String) : Op Unit → Input → Bytes
  | .pump p _ _, .chunk b => if p.sid = sid then b else []
  | _, _ => []

def Op.drains (sid : String) : Op Unit → Input → Bool
  | .pump p _ _, .eof | .sendOut p _ _, .failed => p.sid = sid
  | _, _ => false

def Op.exited (sid : String) : Op Unit → Input → List Int
  | .wait p, .exit e => if p.sid = sid then [e.code] else []
  | _, _ => []

namespace Enrolled

def tell (s : Enrolled) (agent : State Unit) (op : Op Unit) (i : Input) : Enrolled where
  agent   := agent
  heard   := s.heard ++ (op.heard i).toList
  tried   := s.tried ++ op.gives.toList
  sents   := s.sents ++ if i.sent then op.gives.toList else []
  lost    := s.lost || op.gives.isSome && !i.sent
  printed := fun sid => s.printed sid ++ op.read sid i
  drained := fun sid => s.drained sid || op.drains sid i
  codes   := fun sid => s.codes sid ++ op.exited sid i

-- There is one session, and it starts the goroutines of its PTYs.
def starts (s : Enrolled) : Req Unit → Bool
  | .session _ _ _ => s.agent.next = 0
  | .pump _        => true
  | _              => false

def start (s : Enrolled) (r : Req Unit) : Option (Enrolled × List (Op Unit)) :=
  if s.starts r then (E2E.start [] s.agent r).map fun (agent, ops) => ({ s with agent }, ops) else none

-- When a write to a websocket failed, all later ones do.
def exec (s : Enrolled) (op : Op Unit) (i : Input) : Option (Enrolled × List (Op Unit)) :=
  if s.lost ∧ op.gives.isSome ∧ i.sent then
    none
  else
    (E2E.exec (fun _ _ => ()) [] s.agent op i).map fun (agent, ops) => (s.tell agent op i, ops)

end Enrolled

-- The frame that a step reads.
def heard (c : Config Enrolled (Op Unit)) : Label (Req Unit) Input → Option Msg
  | .start _ _ => none
  | .step t i  => (c.procs t).head?.bind (·.heard i)

def enrolled : Program Enrolled (Req Unit) (Op Unit) Input where
  Init s := s = {}
  start  := Enrolled.start
  exec   := Enrolled.exec

end E2E
