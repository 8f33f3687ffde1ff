import Popfleet.Lib.GoMap
import Popfleet.Lib.Interleaving
import Popfleet.Worker.Json

namespace Worker

-- Milliseconds, as `Date.now` counts them.
abbrev Time := Nat

def keyTTL : Time := 60000
def offlineMs : Time := 25000
def deadMs : Time := 35000
def helloMs : Time := 10000
def sweepMs : Time := 15000

-- The tags of a socket are the strings "agent", "term", "sid:" + sid and "mid:" + mid.
inductive Tag
  | agent
  | term
  | sid (sid : String)
  | mid (mid : String)
  deriving DecidableEq

-- A server socket, with the tags that it was accepted under.
structure Ws where
  ptr  : Nat
  tags : List Tag
  deriving DecidableEq

-- The attachment of a socket, by its `kind`.
inductive Attachment
  | pending (since : Time)
  | agent (mid : String) (seen : Time)
  | term (sid mid : String)
  | replaced
  deriving DecidableEq

def Attachment.mid : Attachment → Option String
  | .agent mid _ => some mid
  | .term _ mid  => some mid
  | _            => none

-- A frame of the relay. The fields that it copies from a frame of a client can be anything.
structure Frame where
  t    : String
  id   : Option String := none
  e2e  : Bool := false
  sid  : Option String := none
  data : Option Json := none
  cmd  : Option Json := none
  code : Option Json := none
  c    : Option Json := none
  r    : Option Json := none
  msg  : Option Json := none

-- The JSON text of a frame. A field that is undefined is left out.
def Frame.json (f : Frame) : Json :=
  let value (k : String) (v : Option Json) := (v.map fun v => (k, v.printed)).toList
  .obj (("t", .str f.t) :: value "id" (f.id.map .str) ++ (if f.e2e then [("e2e", .bool true)] else []) ++
    value "sid" (f.sid.map .str) ++ value "data" f.data ++ value "cmd" f.cmd ++ value "code" f.code ++
    value "c" f.c ++ value "r" f.r ++ value "msg" f.msg)

-- What the relay knows of a socket and did with it: the frames it sent, and the code and the reason it
-- closed it with.
structure Sock where
  attachment   : Option Attachment := none
  autoResponse : Option Time := none
  sent         : List Frame := []
  closed       : Option (Nat × String) := none

structure Machine where
  id       : String
  name     : Json
  tokenSum : String
  lastSeen : Time := 0
  agentVer : Json := .str ""

-- What `GET /api/machines` lists of a machine. `lastSeen` is the time whose ISO text it gives, and none
-- for the empty text.
structure Row where
  id       : String
  name     : Json
  online   : Bool
  lastSeen : Option Time
  agentVer : Json
  sessions : Nat

structure Pend where
  keySum : String
  mid    : String
  cmd    : Json
  exp    : Time

-- What is recorded of a run besides the state of the relay.
inductive Event
  | enrolled (id token : String)
  | minted (first : Bool) (sid key : String) (cmd : Json)
  | accepted (sid k : String) (opened : Option Json)
  | deleted (id : String)

-- The storage, by the prefix of its keys, the sockets that `getWebSockets` lists, what is known of every
-- socket, the number of sockets and of uncaught exceptions so far, the clock, and the events so far,
-- newest first.
structure State where
  tok      : GoMap String String := ∅
  machine  : GoMap String Machine := ∅
  pend     : GoMap String Pend := ∅
  alarm    : Option Time := none
  listed   : List Ws := []
  socks    : Ws → Sock := fun _ => {}
  next     : Nat := 0
  uncaught : Nat := 0
  now      : Time := 0
  log      : List Event := []

namespace State

-- The ids and the tokens of the machines enrolled.
def enrolled (σ : State) : List (String × String) :=
  σ.log.filterMap fun | .enrolled id token => some (id, token) | _ => none

def accepts (σ : State) : List (String × String) :=
  σ.log.filterMap fun | .accepted sid k _ => some (sid, k) | _ => none

def deletions (σ : State) : List String :=
  σ.log.filterMap fun | .deleted id => some id | _ => none

end State

-- How a handler goes on after it awaited something else than the storage.
inductive Op
  | tokensBody
  | tokensPut (m : Machine) (token : String)
  | termBody (mid : String)
  | termPut (first : Bool) (sid key mid : String) (cmd : Json)
  | upgradeTerm (sid k : String) (pend : Option Pend)
  | hello (ws : Ws) (m : Json)

-- An event of the Durable Object.
inductive Req
  | apiTokens
  | apiTerm (mid : String)
  | apiDelete (mid : String)
  | upgradeAgent
  | upgradeTerm (sid k : String)
  | webSocketMessage (ws : Ws) (m : Option Json)
  | webSocketClose (ws : Ws)
  | webSocketError (ws : Ws)
  | alarm
  | autoResponse (ws : Ws)
  | tick (d : Time)

-- What a handler gets: the body of a request, where it is JSON, and what it draws at random.
inductive Input
  | done
  | body (body : Option Json) (id key : String)

end Worker
