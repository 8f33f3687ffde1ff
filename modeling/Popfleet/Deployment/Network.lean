import Popfleet.Broker.Theorems.Wires
import Popfleet.Deployment.Host
import Popfleet.Panel.Theorems.Plain
import Popfleet.Proto.Parse

open Proto Program V1e Worker

namespace Deployment

-- The frames that the page has sent, the oldest first.
def sents (σ : Panel.State) : List Msg :=
  σ.sents.reverse

-- The broker, the agent at the other end of one of its connections, and the page at the other end of
-- another, with what each of them received over the two websockets and what the user typed into the
-- page.
structure Network (A : Host) where
  broker    : Config Broker.State Broker.Op
  agent     : A.State
  page      : Panel.State
  fromAgent : List Msg := []
  toAgent   : List Msg := []
  fromPage  : List Msg := []
  toPage    : List Msg := []
  keys      : List Bytes := []

inductive Label (A : Host)
  | broker (l : Program.Label Broker.Req Broker.Input)
  | agent (l : A.Label)
  | page (l : Panel.Label)
  | message (m : Msg)

-- What the page does by itself. The broker serves no /config.json.
def alone : Panel.Label → Bool
  | .message _         => false
  | .probe (.json _) _ => false
  | _                  => true

namespace Network

variable (sha256 : String → Broker.Digest) (H : Mac 32) (G : Gcm tagLen) (num : List Char → String)
  (A : Host) (ac : Broker.AgentConn) (s : Broker.Session)

-- All the other connections of the broker may bring anything.
def step (n : Network A) : Label A → Option (Network A)
  | .broker l => do
    let broker ← (Broker.program sha256).step n.broker l
    let fromAgent ← Fifo.receive (A.sents n.agent) n.fromAgent (Broker.agentReads ac n.broker l)
    let fromPage ← Fifo.receive (sents n.page) n.fromPage (Broker.termReads s n.broker l)
    return { n with broker, fromAgent, fromPage }
  | .agent l => do
    let agent ← A.system.step n.agent l
    let sent := (n.broker.shared.agentConns ac).written
    let toAgent ← Fifo.receive sent n.toAgent (A.frame n.agent l).toList
    return { n with agent, toAgent }
  | .message m => do
    let toPage ← Fifo.receive (n.broker.shared.sessConns s).written n.toPage [m]
    let page ← Panel.step H G s.sid n.page (.message (Json.parse num m.writeJSON))
    return { n with page, toPage }
  | .page l => do
    if alone l then
      let page ← Panel.step H G s.sid n.page l
      return { n with page, keys := n.keys ++ Panel.typing n.page l }
    else
      none

def system : Transition (Network A) (Label A) where
  Init n :=
    (Broker.program sha256).system.Init n.broker ∧ A.system.Init n.agent ∧
      (Panel.system H G s.sid).Init n.page ∧
      n = { broker := n.broker, agent := n.agent, page := n.page }
  step := step sha256 H G num A ac s

end Network

end Deployment
