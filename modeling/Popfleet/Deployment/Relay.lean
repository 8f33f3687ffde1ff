import Popfleet.Panel.Theorems.FailsClosed
import Popfleet.Worker.Theorems.Stream

open Proto Program V1e Worker

namespace Deployment

-- The relay, and a page at the other end of one of its terminals, with the frames that the page
-- received, and what the agents of the machine said.
structure Relay where
  worker : Config Worker.State Worker.Op
  page   : Panel.State
  toPage : List Frame := []
  said   : List Json := []

inductive Relay.Label
  | worker (l : Program.Label Worker.Req Worker.Input)
  | message
  | page (l : Panel.Label)

def Relay.Label.receives : Panel.Label → Bool
  | .message _ => true
  | _          => false

namespace Relay

variable (sha256hex : String → String) (H : Mac 32) (G : Gcm tagLen) (ws : Ws) (sid mid : String)

-- The websocket brings the frames in the order in which they were sent. All the other sockets of the
-- relay may bring anything, and so may the terminal.
def step (r : Relay) : Label → Option Relay
  | .worker l => do
    let worker ← (Worker.program sha256hex).system.step r.worker l
    return { r with worker, said := r.said ++ Worker.said mid r.worker l }
  | .message => do
    let f ← (r.worker.shared.socks ws).sent[r.toPage.length]?
    let page ← Panel.step H G sid r.page (.message (some f.json))
    return { r with page, toPage := r.toPage ++ [f] }
  | .page l => do
    if Label.receives l then
      none
    else
      let page ← Panel.step H G sid r.page l
      return { r with page }

-- The terminal was just accepted.
def system : Transition Relay Label where
  Init r :=
    (Worker.program sha256hex).system.Reachable r.worker ∧
      r.worker.shared.attachment ws = some (.term sid mid) ∧
      (r.worker.shared.socks ws).closed = none ∧ (r.worker.shared.socks ws).sent = [{ t := "e2e" }] ∧
      (Panel.system H G sid).Init r.page ∧ r = { worker := r.worker, page := r.page }
  step := step sha256hex H G ws sid mid

-- What the page does is as in `Panel.Intact`.
def Intact (r : Relay) : Label → Prop
  | .page l => Panel.Intact G r.page l
  | _       => True

end Relay

end Deployment
