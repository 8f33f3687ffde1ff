import Popfleet.Panel.Basic

open Proto V1e Worker

namespace Panel

variable (H : Mac 32) (G : Gcm tagLen) (sid : String)

-- The fleet key of a text.
def rawKey (b64 : String) : Option Bytes :=
  (Base64.atob b64).filter (·.length = keyLen)

-- The loop of `enableE2E` up to where it waits for the key: what is left in `localStorage`, and the text
-- with its bytes, unless the user declines.
def ask (stored : Option String) (b64 : String) (answers : List String) :
    Option (Option String × Option (String × Bytes)) :=
  match rawKey b64 with
  | some raw => some (stored, some (b64, raw))
  | none     =>
    let stored := if b64 = "" then stored else none
    match answers with
    | []             => none
    | b64 :: answers => if b64 = "" then some (stored, none) else ask stored b64 answers

namespace State

def record (σ : State) (e : Event) : State :=
  { σ with log := e :: σ.log }

-- The first cause wins. A message that has no text throws once `ended` is set.
def banner (σ : State) (msg : Option String) : State :=
  if σ.ended then σ
  else { σ with
    ended := true, text := msg.map (· ++ " — close this tab or reopen from the panel") }

def connect (σ : State) : State :=
  { σ with ws := .connecting, init := .returned }

-- `enableE2E` in `init` and in `handleFrame`.

def enableInit (σ : State) (b64 : String) (answers : List String) : Option State := do
  let (stored, asked) ← ask σ.stored b64 answers
  match asked with
  | some (b64, raw) => return { σ with stored, init := .importing b64 raw }
  | none            =>
    return { σ with stored, init := .returned }.banner "no fleet key: cannot decrypt this session"

def enableFrame (σ : State) (b64 : String) (answers : List String) : Option State := do
  let (stored, asked) ← ask σ.stored b64 answers
  match asked with
  | some (b64, raw) => return { σ with stored, handling := some (.importing b64 raw) }
  | none            =>
    return { σ with stored, handling := none }.banner "no fleet key: cannot decrypt this session"

-- A frame that throws is dropped.
def handleFrame (σ : State) (m : Option Json) (answers : List String) : Option State :=
  match m.bind fun m => m.field "t" with
  | none   => some σ
  | some t =>
    let field k := (m.bind fun m => m.field k).join
    if Json.is t "e2e" then
      match σ.aead with
      | some _ => some σ
      | none   => σ.enableFrame (σ.stored.getD "") answers
    else if Json.is t "out" then
      let data := Json.key (field "data")
      match σ.aead with
      | some key => some { σ with handling := some (.unsealing key data) }
      | none     =>
        match data.bind Base64.atob with
        | some b => some { σ with term := σ.term ++ [b] }
        | none   => some σ
    else if Json.is t "exit" then
      match Json.key (field "code") with
      | some code => some (σ.banner ("session ended (exit " ++ code ++ ")"))
      | none      => some σ
    else if Json.is t "err" then
      some (σ.banner (Json.key (some (Json.or (field "msg") (.str "session error")))))
    else
      some σ

def settle (σ : State) (answers : List String) : Option State :=
  match σ.handling with
  | none                      => none
  | some (.importing b64 raw) =>
    match V1e.Panel.deriveKey H raw sid with
    | some key => some { σ with aead := some key, stored := some b64, handling := none }
    | none     => { σ with stored := none }.enableFrame "" answers
  | some (.unsealing key data) =>
    match data.bind (V1e.Panel.unsealed G key) with
    | some b => some { σ with term := σ.term ++ [b], handling := none }
    | none   =>
      let msg := "e2e decrypt failed (wrong fleet key or tampered frame) — session killed"
      let ws  := match σ.ws with
        | .closed => Socket.closed
        | _       => .closing
      some { { σ with stored := none, handling := none }.banner msg with ws }

end State

def step (σ : State) : Label → Option State
  | .probe p answers =>
    match σ.init with
    | .probing =>
      match p with
      | .json cfg =>
        match cfg.field "e2e" with
        | none     => some { σ with init := .returned }
        | some e2e =>
          let σ := σ.record (.probed (Json.truthy e2e))
          if Json.truthy e2e then σ.enableInit (σ.stored.getD "") answers else some σ.connect
      | _ => some (σ.record (.probed false)).connect
    | _ => none
  | .derived answers =>
    match σ.init with
    | .importing b64 raw =>
      match V1e.Panel.deriveKey H raw sid with
      | some key => some { σ with aead := some key, stored := some b64 }.connect
      | none     => { σ with stored := none }.enableInit "" answers
    | _ => none
  | .opened c r =>
    if σ.ws = .connecting then some ({ σ with ws := .opened }.record (.sent { t := "resize", c, r }))
    else none
  | .message m =>
    if σ.ws = .opened then some ({ σ with recv := σ.recv ++ [m] }.record (.received m)) else none
  | .handle answers =>
    match σ.handling, σ.recv with
    | none, m :: recv => { σ with recv }.handleFrame m answers
    | _, _            => none
  | .settle answers => σ.settle H G sid answers
  | .onData bytes => some { σ with typed := σ.typed ++ [bytes] }
  | .send =>
    match σ.sending, σ.typed with
    | none, bytes :: typed =>
      if σ.ws = .opened then
        match σ.aead with
        | some key => some { σ with typed, sending := some (key, bytes) }
        | none     => some ({ σ with typed }.record (.sent { t := "in", data := Base64.encode bytes }))
      else
        some { σ with typed }
    | _, _ => none
  -- A socket that is not open any more drops what is sent.
  | .encrypted nonce =>
    match σ.sending with
    | some (key, bytes) =>
      if nonce.length = nonceLen then
        let σ := { σ with sending := none }
        let data := V1e.Panel.sealPlain G key nonce bytes
        some (if σ.ws = .opened then σ.record (.sent { t := "in", data }) else σ)
      else
        none
    | none => none
  | .resize c r =>
    some (if σ.ws = .opened then σ.record (.sent { t := "resize", c, r }) else σ)
  | .closed =>
    if σ.ws = .null then none
    else some ({ σ with ws := .closed }.banner "disconnected from broker")

-- A page that may have a key in `localStorage`.
def system : Transition State Label where
  Init σ := ∃ stored, σ = { stored }
  step   := step H G sid

end Panel
