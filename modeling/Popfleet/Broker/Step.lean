import Popfleet.Broker.Basic

open Proto Store Program

namespace Broker

namespace State

def record (σ : State) (e : Event) : State :=
  { σ with log := e :: σ.log }

def sendAgent (σ : State) (ac : AgentConn) (m : Msg) : State :=
  { σ with agentConns := Function.update σ.agentConns ac ((σ.agentConns ac).send m).1 }

def sendBrowser (σ : State) (s : Session) (m : Msg) : State :=
  { σ with sessConns := Function.update σ.sessConns s ((σ.sessConns s).send m).1 }

def closeAgent (σ : State) (ac : AgentConn) : State :=
  { σ with agentConns := Function.update σ.agentConns ac ((σ.agentConns ac).close none) }

def closeSess (σ : State) (s : Session) (final : Option Msg) : State :=
  { σ with sessConns := Function.update σ.sessConns s ((σ.sessConns s).close final) }

-- The sessions of a machine, which a replacement or a drop takes out of the map.
def victims (σ : State) (mid : String) : List Session :=
  σ.sess.valuesWhere fun _ s => s.mid = mid

def evict (σ : State) (mid : String) : State :=
  { σ with sess := σ.sess.deleteWhere fun _ s => s.mid = mid }

-- `newConn` and the struct around it.
def newAgent (σ : State) (mid : String) : State × AgentConn :=
  let ac : AgentConn := { ptr := σ.next, mid }
  ({ σ with next := σ.next + 1, agentConns := Function.update σ.agentConns ac {} }, ac)

def newSession (σ : State) (sid mid : String) : State × Session :=
  let s : Session := { ptr := σ.next, sid, mid }
  ({ σ with next := σ.next + 1, sessConns := Function.update σ.sessConns s {} }, s)

end State

variable (sha256 : String → Digest)

def start (σ : State) : Req → Option (State × List Op)
  | .wsAgent hello             => some (σ, if hello.t = "hello" then [.byToken hello] else [])
  | .wsTerm sid k              => some (σ, [.consume sid k])
  | .apiMint name id tok saved => some (σ, [.mint { id, name, token := tok } saved])
  | .apiTerm id cmd sid key    => some (σ, [.byID id cmd sid key])
  | .apiDelete id              => some (σ, [.delete id])
  | .sweep                     => some (σ, [.sweepAt σ.now])
  | .tick d                    => some ({ σ with now := σ.now + d }, [])
  | .drainAgent ac             =>
    some ({ σ with agentConns := Function.update σ.agentConns ac (σ.agentConns ac).drain }, [])
  | .drainSess s               =>
    some ({ σ with sessConns := Function.update σ.sessConns s (σ.sessConns s).drain }, [])

-- What the frame loop of `wsAgent` does with a frame, before it reads the next one.
def handleAgent (ac : AgentConn) (f : Msg) : List Op :=
  match f.t with
  | "hb"   => [.touch ac.mid "" ""]
  | "out"  => [.toBrowser ac f.sid { t := "out", data := f.data }]
  | "exit" => [.ended ac f]
  | "err"  => [.ended ac f]
  | _      => []

-- The final frame for the browser when the agent ended its session.
def endedMsg (f : Msg) : Msg :=
  if f.t = "err" then { t := "err", msg := f.msg } else { t := "exit", code := f.code }

-- What the frame loop of `wsTerm` does with a frame.
def handleTerm (s : Session) (ac : AgentConn) (f : Msg) : List Op :=
  match f.t with
  | "in"     => [.relay s ac { t := "in", sid := s.sid, data := f.data }]
  | "resize" => [.relay s ac { t := "resize", sid := s.sid, c := f.c, r := f.r }]
  | _        => []

-- The test of the one-time key, which reads the zero `pendKey` when there is none.
def valid (σ : State) (sid k : String) : Option PendKey :=
  (σ.pend.get? sid).filter fun p => σ.now < p.exp ∧ sha256 k = p.keySum

def exec (σ : State) : Op → Input → Option (State × List Op)
  | .byToken hello, _ =>
    match σ.st.byToken hello.token with
    | none   => some (σ, [])
    | some m => some (σ, [.touch m.id hello.name hello.ver, .register m.id])
  | .touch mid name ver, _ => some ({ σ with st := σ.st.touch mid name ver σ.now }, [])
  | .register mid, _ =>
    let (σ', ac) := σ.newAgent mid
    let σ' := { σ' with agents := σ.agents.set mid ac }
    let greet := [.sendAgent ac { t := "hello_ok", id := mid }, .readAgent ac]
    match σ.agents.get? mid with
    | none     => some (σ', greet)
    | some old =>
      let banner : Msg := { t := "err", msg := "agent reconnected" }
      let close := .closeAgent old :: (σ.victims mid).map (.closeSess · banner)
      some (σ'.evict mid, close ++ greet)
  | .closeAgent ac, _ => some (σ.closeAgent ac, [])
  | .closeSess s final, _ => some (σ.closeSess s final, [])
  | .sendAgent ac m, _ => some (σ.sendAgent ac m, [])
  | .readAgent ac, .frame f => some (σ.record (.read ac f), handleAgent ac f ++ [.readAgent ac])
  | .readAgent ac, _ => some (σ, [.dropAgent ac "agent went offline"])
  | .toBrowser ac sid m, _ =>
    match σ.sess.get? sid with
    | none   => some (σ, [])
    | some s => some (σ, if s.mid = ac.mid then [.sendBrowser s m] else [])
  | .sendBrowser s m, _ =>
    let final : Msg := { t := "err", msg := "session dropped: browser too slow" }
    some (σ.sendBrowser s m,
      if ((σ.sessConns s).send m).2 then [] else [.endSession s final true])
  | .ended ac f, _ =>
    match σ.sess.get? f.sid with
    | none   => some (σ, [])
    | some s =>
      if s.mid = ac.mid then
        some ({ σ with sess := σ.sess.delete f.sid }, [.closeSess s (endedMsg f)])
      else
        some (σ, [])
  | .dropAgent ac why, _ =>
    let banner : Msg := { t := "err", msg := why }
    if σ.agents.get? ac.mid = some ac then
      some ({ σ.evict ac.mid with agents := σ.agents.delete ac.mid },
        .closeAgent ac :: (σ.victims ac.mid).map (.closeSess · banner))
    else
      some (σ, [.closeAgent ac])
  | .endSession s final notifyAgent, _ =>
    let σ' := if σ.sess.get? s.sid = some s then { σ with sess := σ.sess.delete s.sid } else σ
    let notify := match σ.agents.get? s.mid with
      | some ac => if notifyAgent then [.sendAgent ac { t := "close", sid := s.sid }] else []
      | none    => []
    some (σ', .closeSess s final :: notify)
  | .consume sid k, _ =>
    match valid sha256 σ sid k with
    | none   => some (σ.record (.refused sid k), [])
    | some p =>
      let σ' := { σ with pend := σ.pend.delete sid }
      some (σ'.record (.accepted sid k σ.now), [.upgrade sid p (σ.agents.get? p.mid)])
  | .upgrade _ _ _, .failed => some (σ, [])
  | .upgrade sid p ac, _ => some (σ, [.attach sid p ac])
  | .attach sid p ac, _ =>
    let (σ', s) := σ.newSession sid p.mid
    some ({ σ' with sess := σ.sess.set sid s }.record (.attached s), [.sendOpen s ac p.cmd])
  | .sendOpen s ac cmd, _ =>
    let offline : Msg := { t := "err", msg := "agent is offline" }
    match ac with
    | none    => some (σ, [.endSession s offline false])
    | some ac =>
      let m : Msg := { t := "open", sid := s.sid, cmd }
      if ((σ.agentConns ac).send m).2 then
        some ((σ.sendAgent ac m).record (.opened s ac), [.readTerm s ac])
      else
        some (σ, [.endSession s offline false])
  | .readTerm s ac, .frame f => some (σ, handleTerm s ac f ++ [.readTerm s ac])
  | .readTerm s _, _ => some (σ, [.endSession s none true])
  | .relay _ ac m, _ => some (σ.sendAgent ac m, [])
  | .mint m saved, _ =>
    if saved then
      some ({ σ with st := σ.st.insert m }.record (.machine m.id), [])
    else
      some ({ σ with st := (σ.st.insert m).erase m.id }, [])
  | .byID id cmd sid key, _ =>
    match σ.st.byID id with
    | none   => some (σ, [])
    | some _ => some (σ, [.mintKey id cmd sid key])
  | .mintKey id cmd sid key, _ =>
    let p : PendKey := { keySum := sha256 key, mid := id, cmd, exp := σ.now + keyTTL }
    some ({ σ with pend := σ.pend.set sid p }.record (.minted sid key p), [])
  | .delete id, _ =>
    match σ.st.get? id with
    | none   => some (σ, [])
    | some _ => some ({ σ with st := σ.st.erase id }, [.revoke id, .respond id])
  | .revoke id, _ =>
    match σ.agents.get? id with
    | none    => some (σ, [])
    | some ac => some (σ, [.dropAgent ac "machine revoked"])
  | .respond id, _ => some (σ.record (.revoked id), [])
  | .sweepAt now, _ =>
    some ({ σ with pend := σ.pend.deleteWhere fun _ p => p.exp < now }, [])

-- The broker after `New`, on a store with any machines.
def program : Program State Req Op Input where
  Init σ := ∃ st now, σ = { st, now }
  start  := start
  exec   := exec sha256

def initial : Config State Op where
  shared := { st := ∅ }
  procs  := fun _ => []

theorem initial_init : (program sha256).system.Init initial :=
  ⟨⟨∅, 0, rfl⟩, fun _ => rfl⟩

-- SHA-256 on the key "9f" and on the empty one.
def sampleSum (k : String) : Digest :=
  if k = "9f" then
    #v[178, 84, 119, 130, 12, 49, 182, 30, 103, 196, 20, 162, 74, 136, 123, 250,
      214, 68, 170, 10, 192, 37, 165, 250, 91, 205, 140, 71, 26, 240, 57, 16]
  else
    #v[227, 176, 196, 66, 152, 252, 28, 20, 154, 251, 244, 200, 153, 111, 185, 36,
      39, 174, 65, 228, 100, 155, 147, 76, 164, 149, 153, 27, 120, 82, 184, 85]

end Broker
