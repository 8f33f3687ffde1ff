import Mathlib.Data.List.Sort
import Popfleet.Worker.Basic

open Program

namespace Worker

namespace State

def record (σ : State) (e : Event) : State :=
  { σ with log := e :: σ.log }

def setSock (σ : State) (ws : Ws) (s : Sock) : State :=
  { σ with socks := Function.update σ.socks ws s }

def attachment (σ : State) (ws : Ws) : Option Attachment :=
  (σ.socks ws).attachment

-- `serializeAttachment`.
def attach (σ : State) (ws : Ws) (a : Attachment) : State :=
  σ.setSock ws { σ.socks ws with attachment := some a }

-- `attach(ws).mid`.
def mid (σ : State) (ws : Ws) : Option String :=
  (σ.attachment ws).bind (·.mid)

-- `acceptWebSocket`.
def accept (σ : State) (tags : List Tag) : State × Ws :=
  let ws : Ws := { ptr := σ.next, tags }
  ({ σ with next := σ.next + 1, listed := σ.listed ++ [ws] }.setSock ws {}, ws)

def getWebSockets (σ : State) (tag : Tag) : List Ws :=
  σ.listed.filter (tag ∈ ·.tags)

-- A socket that was closed takes no more frames.
def wsSend (σ : State) (ws : Ws) (frame : Frame) : State :=
  match (σ.socks ws).closed with
  | some _ => σ
  | none   => σ.setSock ws { σ.socks ws with sent := (σ.socks ws).sent ++ [frame] }

def close (σ : State) (ws : Ws) (code : Nat) (reason : String) : State :=
  match (σ.socks ws).closed with
  | some _ => σ
  | none   => σ.setSock ws { σ.socks ws with closed := some (code, reason) }

def agentSocket (σ : State) (mid : String) : Option Ws :=
  (σ.getWebSockets .agent).find? (σ.mid · = some mid)

def termSockets (σ : State) (mid : Option String) : List Ws :=
  (σ.getWebSockets .term).filter (σ.mid · = mid)

def termBySid (σ : State) (sid : String) : Option Ws :=
  (σ.getWebSockets (.sid sid)).head?

def lastSeenOf (σ : State) (ws : Ws) : Time :=
  let seen := match σ.attachment ws with
    | some (.agent _ seen) => seen
    | _                    => 0
  max seen ((σ.socks ws).autoResponse.getD 0)

-- The last sign of life of a machine, by its row and its socket.
def lastOf (σ : State) (m : Machine) : Time :=
  max m.lastSeen ((σ.agentSocket m.id).elim 0 σ.lastSeenOf)

-- `GET /api/machines`.
def apiMachines (σ : State) : List Row :=
  let row (m : Machine) : Row :=
    let last := σ.lastOf m
    { id       := m.id
      name     := m.name
      online   := (σ.agentSocket m.id).isSome && σ.now - last < offlineMs
      lastSeen := if last = 0 then none else some last
      agentVer := Json.or (some m.agentVer) (.str "")
      sessions := (σ.termSockets (some m.id)).length }
  (σ.machine.values.map row).insertionSort (·.id ≤ ·.id)

def armAlarm (σ : State) : State :=
  match σ.alarm with
  | some _ => σ
  | none   => { σ with alarm := some (σ.now + sweepMs) }

-- An err frame for each terminal of a machine, which is closed then.
def closeTerms (σ : State) (mid : Option String) (why : String) : State :=
  (σ.termSockets mid).foldl
    (fun σ t => (σ.wsSend t { t := "err", msg := some (.str why) }).close t 1000 why) σ

def dropAgent (σ : State) (ws : Ws) (why : String) : State :=
  ((σ.closeTerms (σ.mid ws) why).attach ws .replaced).close ws 1000 why

-- The `lastSeen` of a machine whose agent is gone.
def touchLastSeen (σ : State) (mid : String) (ws : Ws) : State :=
  match σ.machine.get? mid with
  | none   => σ
  | some m =>
    let m := { m with lastSeen := max m.lastSeen (σ.lastSeenOf ws) }
    { σ with machine := σ.machine.set mid m }

-- A handler that ends with an exception.
def throw (σ : State) : State :=
  { σ with uncaught := σ.uncaught + 1 }

end State

variable (sha256hex : String → String)

-- `webSocketMessage` on an agent socket, for a frame with a `sid`. The terminal must be of the machine.
def fromAgentTo (σ : State) (mid sid : String) (t : Option Json) (m : Json) : State :=
  match (σ.termBySid sid).filter (σ.mid · = some mid) with
  | none    => σ
  | some ws =>
    let field (k : String) := (m.field k).join
    if Json.is t "out" then
      σ.wsSend ws { t := "out", data := field "data" }
    else if Json.is t "exit" then
      (σ.wsSend ws { t := "exit", code := field "code" }).close ws 1000 "shell exited"
    else
      let msg := Json.or (field "msg") (.str "session error")
      (σ.wsSend ws { t := "err", msg := some msg }).close ws 1000 "agent error"

def fromAgent (σ : State) (ws : Ws) (mid : String) (m : Json) : State :=
  match m.field "t" with
  | none   => σ.throw
  | some t =>
    if Json.is t "hb" then
      σ.attach ws (.agent mid σ.now)
    else if Json.is t "out" ∨ Json.is t "exit" ∨ Json.is t "err" then
      match Json.key (m.field "sid").join with
      | none     => σ.throw
      | some sid => fromAgentTo σ mid sid t m
    else
      σ

-- `webSocketMessage` on a terminal socket.
def fromTerm (σ : State) (sid mid : String) (m : Json) : State :=
  match σ.agentSocket mid with
  | none       => σ
  | some agent =>
    match m.field "t" with
    | none   => σ.throw
    | some t =>
      let field (k : String) := (m.field k).join
      if Json.is t "in" then
        σ.wsSend agent { t := "in", sid := some sid, data := field "data" }
      else if Json.is t "resize" then
        σ.wsSend agent { t := "resize", sid := some sid, c := field "c", r := field "r" }
      else
        σ

-- `hello` until it awaits the digest of the token.
def hello (σ : State) (ws : Ws) (m : Json) : State × List Op :=
  match m.field "t" with
  | none   => (σ.throw, [])
  | some t =>
    if Json.is t "hello" then
      match (Json.or (m.field "token").join (.str "")).text with
      | none   => (σ.throw, [])
      | some _ => (σ, [.hello ws m])
    else
      (σ.close ws 1002 "first frame must be hello", [])

def noE2E : String :=
  "this relay requires end-to-end encryption: upgrade the agent to v2 " ++
    "and set POPFLEET_E2E_KEY (or run the v1 Go broker on your LAN)"

-- The zombie that a new agent of the machine replaces, with its terminals.
def replace (σ : State) (mid : String) : State :=
  match σ.agentSocket mid with
  | none     => σ
  | some old =>
    ((σ.attach old .replaced).closeTerms (some mid) "agent reconnected").close old 1000
      "replaced by a newer connection"

-- `hello` once it has the digest.
def helloDigest (σ : State) (ws : Ws) (m : Json) (sum : String) : State :=
  let field (k : String) := (m.field k).join
  match σ.tok.get? sum with
  | none     => σ.close ws 1008 "unknown or revoked token"
  | some mid =>
    if Json.truthy (field "e2e") then
      let σ := (replace σ mid).attach ws (.agent mid σ.now)
      let σ := match σ.machine.get? mid with
        | none         => σ
        | some machine =>
          let machine := { machine with
            name     := Json.or (field "name") machine.name
            agentVer := Json.or (field "ver") machine.agentVer
            lastSeen := σ.now }
          { σ with machine := σ.machine.set mid machine }
      (σ.wsSend ws { t := "hello_ok", id := some mid, e2e := true }).armAlarm
    else
      (σ.wsSend ws { t := "err", msg := some (.str noE2E) }).close ws 1008 "e2e required"

def reap (σ : State) (ws : Ws) : State :=
  match σ.attachment ws with
  | some (.term sid mid) =>
    match σ.agentSocket mid with
    | none       => σ
    | some agent => σ.wsSend agent { t := "close", sid := some sid }
  | some (.agent mid _) => (σ.dropAgent ws "agent went offline").touchLastSeen mid ws
  | _ => σ

-- What the sweep does with a socket, and whether it keeps the alarm armed.
def sweep (now : Time) (s : State × Bool) (ws : Ws) : State × Bool :=
  let (σ, live) := s
  match σ.attachment ws with
  | some (.pending since) =>
    if now - since > helloMs then (σ.close ws 1002 "no hello", live) else (σ, true)
  | some (.agent mid _) =>
    if now - σ.lastSeenOf ws > deadMs then
      ((σ.dropAgent ws "agent went offline").touchLastSeen mid ws, live)
    else
      (σ, true)
  | some (.term _ _) => (σ, true)
  | _ => (σ, live)

def alarm (σ : State) : State :=
  let now := σ.now
  let swept := { σ with
    alarm := none
    pend  := σ.pend.deleteWhere fun _ p => now > p.exp }
  let (σ', live) := σ.listed.foldl (sweep now) (swept, σ.pend.entries.length > 0)
  if live then { σ' with alarm := some (now + sweepMs) } else σ'

-- A socket is listed until its close event was handled.
def closed (σ : State) (ws : Ws) : Option (State × List Op) :=
  if ws ∈ σ.listed then
    let σ := reap σ ws
    some ({ σ with listed := σ.listed.filter (· ≠ ws) }, [])
  else
    none

def start (σ : State) : Req → Option (State × List Op)
  | .apiTokens => some (σ, [.tokensBody])
  | .apiTerm mid => some (σ, if (σ.machine.get? mid).isSome then [.termBody mid] else [])
  | .apiDelete mid =>
    match σ.machine.get? mid with
    | none   => some (σ, [])
    | some m =>
      let σ := { σ with machine := σ.machine.delete mid, tok := σ.tok.delete m.tokenSum }
      let σ := match σ.agentSocket mid with
        | none    => σ
        | some ws => σ.dropAgent ws "machine revoked"
      some (σ.record (.deleted mid), [])
  | .upgradeAgent =>
    let (σ', ws) := σ.accept [.agent]
    some ((σ'.attach ws (.pending σ.now)).armAlarm, [])
  | .upgradeTerm sid k => some (σ, [.upgradeTerm sid k (σ.pend.get? sid)])
  | .webSocketMessage ws m =>
    if ws ∈ σ.listed then
      match m with
      | none   => some (σ, [])
      | some m =>
        match σ.attachment ws with
        | some (.pending _)    => some (hello σ ws m)
        | some (.agent mid _)  => some (fromAgent σ ws mid m, [])
        | some (.term sid mid) => some (fromTerm σ sid mid m, [])
        | _                    => some (σ, [])
    else
      none
  | .webSocketClose ws => closed σ ws
  | .webSocketError ws => closed σ ws
  | .alarm =>
    match σ.alarm with
    | none   => none
    | some t => if t ≤ σ.now then some (alarm σ, []) else none
  | .autoResponse ws =>
    if ws ∈ σ.listed then
      some (σ.setSock ws { σ.socks ws with autoResponse := some σ.now }, [])
    else
      none
  | .tick d => some ({ σ with now := σ.now + d }, [])

-- The end of `upgradeTerm`, for a valid key.
def attachTerm (σ : State) (sid k : String) (p : Pend) : State :=
  let (σ', ws) := { σ with pend := σ.pend.delete sid }.accept [.term, .sid sid, .mid p.mid]
  let σ' := (σ'.attach ws (.term sid p.mid)).wsSend ws { t := "e2e" }
  match σ'.agentSocket p.mid with
  | none =>
    let offline : Frame := { t := "err", msg := some (.str "agent is offline") }
    ((σ'.wsSend ws offline).close ws 1000 "agent is offline").record (.accepted sid k none)
  | some agent =>
    (σ'.wsSend agent { t := "open", sid := some sid, cmd := some p.cmd }).record
      (.accepted sid k (some p.cmd))

-- The test of the one-time key on the record that was read before the digest.
def valid (σ : State) (k : String) (pend : Option Pend) : Option Pend :=
  pend.filter fun p => σ.now < p.exp ∧ sha256hex k = p.keySum

def exec (σ : State) : Op → Input → Option (State × List Op)
  | .tokensBody, .body body id token =>
    match (body.getD (.obj [])).field "name" with
    | none      => some (σ.throw, [])
    | some name =>
      let m : Machine := { id, name := Json.or name (.str ""), tokenSum := sha256hex token }
      some (σ, [.tokensPut m token])
  | .tokensPut m token, _ =>
    let σ := { σ with machine := σ.machine.set m.id m, tok := σ.tok.set m.tokenSum m.id }
    some (σ.record (.enrolled m.id token), [])
  | .termBody mid, .body body id key =>
    let body := body.getD (.obj [])
    match body.field "sid" with
    | none     => some (σ.throw, [])
    | some sid =>
      let cmd := Json.or (body.field "cmd").join (.str "")
      if Json.truthy sid then
        match Json.key sid with
        | none     => some (σ.throw, [])
        | some sid =>
          match σ.pend.get? sid with
          | none      => some (σ, [])
          | some prev =>
            if prev.mid ≠ mid ∨ σ.now > prev.exp then some (σ, [])
            else some (σ, [.termPut false sid key mid cmd])
      else
        some (σ, [.termPut true id key mid cmd])
  | .termPut first sid key mid cmd, _ =>
    let p : Pend := { keySum := sha256hex key, mid, cmd, exp := σ.now + keyTTL }
    let σ := { σ with pend := σ.pend.set sid p }
    some ((σ.record (.minted first sid key cmd)).armAlarm, [])
  | .upgradeTerm sid k pend, _ =>
    match valid sha256hex σ k pend with
    | none   => some (σ, [])
    | some p => some (attachTerm σ sid k p, [])
  | .hello ws m, _ =>
    match (Json.or (m.field "token").join (.str "")).text with
    | none       => some (σ.throw, [])
    | some token => some (helloDigest σ ws m (sha256hex token), [])
  | _, .done => none

-- The Durable Object. Its handlers interleave where they await something else than the storage.
def program : Program State Req Op Input where
  Init σ := ∃ now, σ = { now }
  start  := start
  exec   := exec sha256hex

end Worker
