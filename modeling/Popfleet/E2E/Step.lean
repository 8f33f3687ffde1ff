import Popfleet.E2E.Basic

open Proto Program

namespace E2E

variable {κ : Type} [DecidableEq κ]

namespace State

def record (σ : State κ) (e : Event) : State κ :=
  { σ with log := e :: σ.log }

def setPage (σ : State κ) (pg : Page) (p : PageState) : State κ :=
  { σ with pages := Function.update σ.pages pg p }

def setProcess (σ : State κ) (p : Pty κ) (pr : Process) : State κ :=
  { σ with processes := Function.update σ.processes p pr }

def setPtys (σ : State κ) (conn : Nat) (m : GoMap String (Pty κ)) : State κ :=
  { σ with ptys := Function.update σ.ptys conn m }

-- The first banner wins.
def banner (σ : State κ) (pg : Page) (msg : String) : State κ :=
  let p := σ.pages pg
  let text := msg ++ " — close this tab or reopen from the panel"
  σ.setPage pg { p with banner := some (p.banner.getD text) }

end State

def Exit.code : Exit → Int
  | .exited code     => code
  | .signaled signal => 128 + signal
  | .other           => 1

variable (hkdf : Bytes → String → κ) (e2eKey : Bytes)

def start (σ : State κ) : Req κ → Option (State κ × List (Op κ))
  | .session token name ver =>
    let hello : Msg := { t := "hello", token, name, ver, e2e := e2eKey.length > 0 }
    some ({ σ with next := σ.next + 1 }, [.hello σ.next hello])
  | .pump p =>
    if p ∈ σ.pumps then some ({ σ with pumps := σ.pumps.erase p }, [.pump p [] false]) else none
  | .page sid =>
    let pg : Page := { ptr := σ.next, sid }
    some ({ σ with next := σ.next + 1 }.setPage pg {}, [.config pg])
  | .onData pg b =>
    some (σ.setPage pg { σ.pages pg with sends := (σ.pages pg).sends ++ [b] }, [])
  | .sendNext pg =>
    match (σ.pages pg).sends with
    | []         => none
    | b :: sends =>
      if (σ.pages pg).sending then none
      else some (σ.setPage pg { σ.pages pg with sends, sending := true }, [.sealIn pg b])
  | .sendResize pg c r =>
    if (σ.pages pg).ws then some (σ.record (.shown { t := "resize", c, r }), []) else some (σ, [])
  | .sealCmd fleetKey sid cmd => some (σ, [.sealCmd fleetKey sid cmd])
  | .closed pg =>
    some ((σ.setPage pg { σ.pages pg with ws := false }).banner pg "disconnected from broker", [])

-- What the loop of `session` does with a frame, before it reads the next one.
def handle (conn : Nat) (m : Msg) : List (Op κ) :=
  match m.t with
  | "open"   => [.openPty conn m]
  | "in"     => [.lookup conn m]
  | "resize" => [.setsize conn m]
  | "close"  => [.closePty conn m]
  | _        => []

-- The command line of an open frame with the AEAD of its session, or none where it cannot be
-- authenticated.
def cmdline (σ : State κ) (m : Msg) : Option (Option κ × Bytes) :=
  if e2eKey.length > 0 then do
    let k ← newSession hkdf e2eKey m.sid
    if m.cmd = "" then return (some k, [])
    return (some k, ← openWire σ.aead k m.cmd)
  else
    some (none, m.cmd.toUTF8.toList)

def exec (σ : State κ) : Op κ → Input → Option (State κ × List (Op κ))
  | .hello _ _, .failed => some (σ, [])
  | .hello conn m, _ => some (σ.record (.shown m), [.helloOk conn])
  | .helloOk conn, .frame m => some (σ, if m.t = "hello_ok" then [.readJSON conn] else [])
  | .helloOk _, _ => some (σ, [])
  | .readJSON conn, .frame m => some (σ, handle conn m ++ [.readJSON conn])
  | .readJSON conn, _ => some (σ, [.killAll conn])
  | .send _ _, .failed => some (σ, [])
  | .send _ m, _ => some (σ.record (.shown m), [])
  | .openPty conn m, _ =>
    match (σ.ptys conn).get? m.sid with
    | some _ => some (σ, [])
    | none   => some (σ, [.openCmd conn m])
  | .openCmd conn m, _ =>
    match cmdline hkdf e2eKey σ m with
    | some (enc, cmdline) => some (σ, [.spawn conn m.sid enc cmdline])
    | none                =>
      let msg := "e2e decrypt failed (key mismatch or tampered cmd)"
      some (σ, [.send conn { t := "err", sid := m.sid, msg }])
  | .spawn conn sid _ _, .failed =>
    some (σ, [.send conn { t := "exit", sid, code := some 127 }])
  | .spawn conn sid enc cmdline, _ =>
    let p : Pty κ := { ptr := σ.next, conn, sid, enc }
    some (({ σ with next := σ.next + 1 }.setProcess p {}).record (.spawned sid cmdline), [.insert p])
  | .insert p, _ => some (σ.setPtys p.conn ((σ.ptys p.conn).set p.sid p), [.goPump p])
  | .goPump p, _ => some ({ σ with pumps := p :: σ.pumps }, [])
  | .lookup conn m, _ =>
    match (σ.ptys conn).get? m.sid with
    | none   => some (σ, [])
    | some p => some (σ, [.write p m.data])
  | .write p data, _ =>
    match p.enc with
    | some k =>
      match openWire σ.aead k data with
      | some b => some (if (σ.processes p).closed then σ else σ.record (.wrote p.sid b), [])
      | none   =>
        let msg := "e2e decrypt failed (tampered frame)"
        some (σ, [.send p.conn { t := "err", sid := p.sid, msg }, .kill p])
    | none =>
      match Base64.decode data with
      | some b => some (if (σ.processes p).closed then σ else σ.record (.wrote p.sid b), [])
      | none   => some (σ, [])
  | .setsize conn m, _ =>
    match (σ.ptys conn).get? m.sid with
    | none   => some (σ, [])
    | some p =>
      let size := (UInt16.ofInt m.c, UInt16.ofInt m.r)
      some (σ.setProcess p { σ.processes p with size }, [])
  | .closePty conn m, _ =>
    match (σ.ptys conn).get? m.sid with
    | none   => some (σ, [])
    | some p => some (σ.setProcess p { σ.processes p with killed := true }, [])
  | .kill p, _ => some (σ.setProcess p { σ.processes p with killed := true }, [])
  | .killAll conn, _ =>
    let killed := (σ.ptys conn).values.foldl
      (fun σ p => σ.setProcess p { σ.processes p with killed := true, closed := true }) σ
    some (killed.setPtys conn ∅, [])
  | .pump p buf _, .chunk b =>
    let buf := buf ++ b
    some (σ, if flushBytes ≤ buf.length then [.flush p buf false] else [.pump p buf true])
  | .pump p buf true, .deadline => some (σ, [.flush p buf false])
  | .pump p buf _, .eof => some (σ, [.flush p buf true])
  | .pump _ _ _, _ => none
  | .flush p buf last, i =>
    if buf = [] then some (σ, if last then [.wait p] else [.pump p [] false])
    else
      let out (data : String) : Msg := { t := "out", sid := p.sid, data }
      match p.enc, i with
      | none, _ => some (σ, [.sendOut p (out (Base64.encode buf)) last])
      | some k, .drawn nonce => do
        let (aead, data) ← sealPlain σ.aead k nonce buf
        return ({ σ with aead }.record (.sealed .out e2eKey p.sid buf), [.sendOut p (out data) last])
      | some _, _ => none
  | .sendOut p _ _, .failed => some (σ, [.wait p])
  | .sendOut p m last, _ =>
    some (σ.record (.shown m), if last then [.wait p] else [.pump p [] false])
  | .wait p, .exit e =>
    some (σ.setProcess p { σ.processes p with closed := true },
      [.forget p, .send p.conn { t := "exit", sid := p.sid, code := some e.code }])
  | .wait _, _ => none
  | .forget p, _ => some (σ.setPtys p.conn ((σ.ptys p.conn).delete p.sid), [])
  | .config pg, .config e2e => some (σ, if e2e then [.enableE2E pg true] else [.connect pg])
  | .config _, _ => none
  | .enableE2E pg connect, .key b64 =>
    let next := if connect then [.connect pg] else []
    if (σ.pages pg).fleetKey.isSome then some (σ, next)
    else if b64 = "" then some (σ.banner pg "no fleet key: cannot decrypt this session", [])
    else
      match (Base64.atob b64).filter (·.length = keyLen) with
      | none     => some (σ, [.enableE2E pg connect])
      | some raw => some (σ.setPage pg { σ.pages pg with fleetKey := some raw }, next)
  | .enableE2E _ _, _ => none
  | .connect pg, _ => some (σ.setPage pg { σ.pages pg with ws := true }, [.onMessage pg])
  | .onMessage pg, .frame m =>
    match m.t with
    | "e2e"  => some (σ, [.enableE2E pg false, .onMessage pg])
    | "out"  => some (σ, [.unseal pg m.data, .onMessage pg])
    | "exit" =>
      let code := (m.code.map toString).getD "undefined"
      some (σ.banner pg ("session ended (exit " ++ code ++ ")"), [.onMessage pg])
    | "err"  => some (σ.banner pg (if m.msg = "" then "session error" else m.msg), [.onMessage pg])
    | _      => some (σ, [.onMessage pg])
  | .onMessage _, _ => none
  | .unseal pg data, _ =>
    let p := σ.pages pg
    match p.fleetKey with
    | none =>
      match Base64.atob data with
      | none   => some (σ, [])
      | some b => some (σ.setPage pg { p with term := p.term ++ [b] }, [])
    | some fleetKey =>
      match unsealed σ.aead (hkdf fleetKey pg.sid) data with
      | some b => some (σ.setPage pg { p with term := p.term ++ [b] }, [])
      | none   =>
        let msg := "e2e decrypt failed (wrong fleet key or tampered frame) — session killed"
        let σ' := σ.banner pg msg
        some (σ'.setPage pg { σ'.pages pg with ws := false }, [])
  | .sealIn pg b, i =>
    let p := σ.pages pg
    if p.ws then
      match p.fleetKey, i with
      | none, _ => some (σ, [.sendIn pg { t := "in", data := Base64.encode b }])
      | some fleetKey, .drawn nonce => do
        let (aead, data) ← sealPlain σ.aead (hkdf fleetKey pg.sid) nonce b
        return ({ σ with aead }.record (.sealed .keys fleetKey pg.sid b),
          [.sendIn pg { t := "in", data }])
      | some _, _ => none
    else
      some (σ.setPage pg { p with sending := false }, [])
  | .sendIn pg m, _ =>
    let p := σ.pages pg
    let σ' := if p.ws then σ.record (.shown m) else σ
    some (σ'.setPage pg { p with sending := false }, [])
  | .sealCmd fleetKey sid cmd, .drawn nonce => do
    let (aead, wire) ← sealPlain σ.aead (hkdf fleetKey sid) nonce cmd
    return (({ σ with aead }.record (.sealed .cmd fleetKey sid cmd)).record
      (.shown { t := "", sid, cmd := wire }), [])
  | .sealCmd _ _ _, _ => none

-- The agents with one fleet key, the pages and the callers of the API. The relay is what the sections
-- that read a frame get it from. The block cipher may be any.
def program : Program (State κ) (Req κ) (Op κ) Input where
  Init σ := ∃ cipher, σ = { aead := { cipher } }
  start  := start e2eKey
  exec   := exec hkdf e2eKey

end E2E
