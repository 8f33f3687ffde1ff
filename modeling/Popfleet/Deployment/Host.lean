import Mathlib.Data.List.Forall2
import Popfleet.Lib.Base64
import Popfleet.Lib.Chunks
import Popfleet.Lib.Fifo
import Popfleet.Proto.Msg
import Popfleet.V1e.Codec

open Proto V1e Transition

-- A machine, the broker and a terminal page, linked by their websockets.
namespace Deployment

-- The frames about a session.

def opens (sid : String) (ms : List Msg) : List Msg :=
  ms.filter fun m => m.t = "open" ∧ m.sid = sid

def ins (sid : String) (ms : List Msg) : List Msg :=
  ms.filter fun m => m.t = "in" ∧ m.sid = sid

def outs (sid : String) (ms : List Msg) : List Msg :=
  ms.filter fun m => m.t = "out" ∧ m.sid = sid

-- An agent at its end of the websocket, when it has enrolled: the frame that a step takes off the
-- websocket, and the frames that it has put on it. Of the shells of a sid there are the command lines,
-- what they printed, the pieces of what they were given, and the exit codes.
structure Endpoint where
  State   : Type
  Label   : Type
  system  : Transition State Label
  frame   : State → Label → Option Msg
  sents   : State → List Msg
  ran     : State → String → List Bytes
  printed : State → String → Bytes
  given   : State → String → List Bytes
  codes   : State → String → List Int

-- The states of an endpoint with all that it has received.
def Endpoint.Got (A : Endpoint) : List Msg → A.State → Prop :=
  A.system.Observed fun σ l => (A.frame σ l).toList

-- What an agent without a fleet key is for. The last three say what becomes of a sid that is opened no
-- more than once.
structure Host extends Endpoint where
  grows {σ l σ'} : system.step σ l = some σ' → sents σ <+: sents σ'
  ran_le {ms σ} (sid) : toEndpoint.Got ms σ →
    (ran σ sid).Sublist ((opens sid ms).map (utf8 ·.cmd))
  answers {ms σ} : toEndpoint.Got ms σ → ∀ f ∈ sents σ, f.t ≠ "err" ∧
    (f.t = "out" ∨ f.t = "exit" → opens f.sid ms ≠ [])
  output {ms σ sid} : toEndpoint.Got ms σ → (opens sid ms).length ≤ 1 →
    ∃ b, Carries (Base64.decode ·.data) (outs sid (sents σ)) b ∧ b <+: printed σ sid
  exit {ms σ before f after} : toEndpoint.Got ms σ → (opens f.sid ms).length ≤ 1 →
    sents σ = before ++ f :: after → f.t = "exit" →
    Carries (Base64.decode ·.data) (outs f.sid before) (printed σ f.sid) ∧
      ∃ n, f.code = some n ∧ (n ∈ codes σ f.sid ∨ ran σ f.sid = [] ∧ n = 127)
  typed {ms σ sid chunks} : toEndpoint.Got ms σ → (opens sid ms).length ≤ 1 →
    (ins sid ms).map (·.data) = chunks.map Base64.encode →
    List.SublistForall₂ (· <+: ·) (given σ sid) chunks

end Deployment
