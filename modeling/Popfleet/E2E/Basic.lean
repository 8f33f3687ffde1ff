import Popfleet.E2E.Session
import Popfleet.Lib.GoMap
import Popfleet.Lib.Interleaving
import Popfleet.Proto.Msg

open Proto

namespace E2E

def flushBytes : Nat := 4 * 1024

-- A pointer to a `ptySession` of the agent, with the connection and the sid that it was opened for and
-- its AEAD.
structure Pty (κ : Type) where
  ptr  : Nat
  conn : Nat
  sid  : String
  enc  : Option κ
  deriving DecidableEq

-- The process behind a `ptySession`: whether the agent killed it, whether the PTY is closed, and the
-- size of its window.
structure Process where
  killed : Bool := false
  closed : Bool := false
  size   : UInt16 × UInt16 := (0, 0)

-- How a process ended, as `cmd.Wait` tells.
inductive Exit
  | exited (code : Int)
  | signaled (signal : Int)
  | other

-- A terminal page.
structure Page where
  ptr : Nat
  sid : String
  deriving DecidableEq

-- The state of a terminal page: the fleet key that its `aead` was derived from, whether its socket is
-- open, the keystrokes in `sendChain`, and whether one of them is being sent.
structure PageState where
  fleetKey : Option Bytes := none
  ws       : Bool := false
  sends    : List Bytes := []
  sending  : Bool := false
  term     : List Bytes := []
  banner   : Option String := none

-- What a sealed value was sealed as.
inductive Use
  | cmd
  | keys
  | out
  deriving DecidableEq

-- What is recorded of a run. The relay sees the frames that the agent and the pages send, and the
-- commands posted for a session.
inductive Event
  | sealed (use : Use) (fleetKey : Bytes) (sid : String) (plain : Bytes)
  | shown (m : Msg)
  | spawned (sid : String) (cmdline : Bytes)
  | wrote (sid : String) (b : Bytes)
  deriving DecidableEq

-- All that was sealed, the agents with their PTYs by connection, the goroutines `go` has started that
-- did not run yet, the pages, the number of pointers handed out, and the events, newest first.
structure State (κ : Type) where
  aead      : Aead κ tagLen := {}
  ptys      : Nat → GoMap String (Pty κ) := fun _ => ∅
  processes : Pty κ → Process := fun _ => {}
  pumps     : List (Pty κ) := []
  pages     : Page → PageState := fun _ => {}
  next      : Nat := 0
  log       : List Event := []

-- The sections of the agent, of the page and of a caller of the API.
inductive Op (κ : Type)
  -- session
  | hello (conn : Nat) (m : Msg)
  | helloOk (conn : Nat)
  | readJSON (conn : Nat)
  | send (conn : Nat) (m : Msg)
  | openPty (conn : Nat) (m : Msg)
  | openCmd (conn : Nat) (m : Msg)
  | spawn (conn : Nat) (sid : String) (enc : Option κ) (cmdline : Bytes)
  | insert (p : Pty κ)
  | goPump (p : Pty κ)
  | lookup (conn : Nat) (m : Msg)
  | write (p : Pty κ) (data : String)
  | setsize (conn : Nat) (m : Msg)
  | closePty (conn : Nat) (m : Msg)
  | kill (p : Pty κ)
  | killAll (conn : Nat)
  -- pump
  | pump (p : Pty κ) (buf : Bytes) (deadline : Bool)
  | flush (p : Pty κ) (buf : Bytes) (last : Bool)
  | sendOut (p : Pty κ) (m : Msg) (last : Bool)
  | wait (p : Pty κ)
  | forget (p : Pty κ)
  -- the page
  | config (pg : Page)
  | enableE2E (pg : Page) (connect : Bool)
  | connect (pg : Page)
  | onMessage (pg : Page)
  | unseal (pg : Page) (data : String)
  | sealIn (pg : Page) (b : Bytes)
  | sendIn (pg : Page) (m : Msg)
  -- the API
  | sealCmd (fleetKey : Bytes) (sid : String) (cmd : Bytes)
  deriving DecidableEq

-- What a party starts to do.
inductive Req (κ : Type)
  | session (token name ver : String)
  | pump (p : Pty κ)
  | page (sid : String)
  | onData (pg : Page) (b : Bytes)
  | sendNext (pg : Page)
  | sendResize (pg : Page) (c r : Int)
  | sealCmd (fleetKey : Bytes) (sid : String) (cmd : Bytes)
  | closed (pg : Page)

-- What a section gets from the relay, the process, the user or the random source.
inductive Input
  | done
  | failed
  | frame (f : Msg)
  | chunk (b : Bytes)
  | deadline
  | eof
  | exit (e : Exit)
  | config (e2e : Bool)
  | key (b64 : String)
  | drawn (nonce : Bytes)

end E2E
