import Popfleet.Lib.Transition
import Popfleet.Proto.Msg
import Popfleet.V1e.Codec
import Popfleet.Worker.Json

open Proto V1e Worker

namespace Panel

-- A websocket by its `readyState`, or null.
inductive Socket
  | null
  | connecting
  | opened
  | closing
  | closed
  deriving DecidableEq

-- What `init` waits for: /config.json, the derivation of the key from a text and its 32 bytes, or
-- nothing.
inductive Init
  | probing
  | importing (b64 : String) (raw : Bytes)
  | returned

-- What the frame at the head of `recvChain` waits for: the derivation of the key, or the decryption of a
-- value under it, where the value is none if it has no text.
inductive Handling
  | importing (b64 : String) (raw : Bytes)
  | unsealing (key : Bytes) (data : Option String)

-- What is recorded of a run: whether the probe found e2e, the frames received, which are none where they
-- are no JSON, and the frames sent.
inductive Event
  | probed (e2e : Bool)
  | received (m : Option Json)
  | sent (m : Msg)

-- The page with what it has in `localStorage`, the frames and the keystrokes that are still in the two
-- chains, what is being handled and sent, and what was written to the terminal.
structure State where
  init     : Init := .probing
  stored   : Option String := none
  aead     : Option Bytes := none
  ws       : Socket := .null
  recv     : List (Option Json) := []
  handling : Option Handling := none
  typed    : List Bytes := []
  sending  : Option (Bytes × Bytes) := none
  term     : List Bytes := []
  ended    : Bool := false
  text     : Option String := none
  log      : List Event := []

-- What the probe gets: the JSON of an answer that is ok, another answer, or an error of the network or
-- of the parser.
inductive Probe
  | json (cfg : Json)
  | notOk
  | failed

-- A task of the event loop, with the trimmed answers to the prompts that it shows. `handle` takes the
-- next frame off `recvChain`, and `settle` goes on with it when its promise is settled. `send` and
-- `encrypted` do so for the keystrokes.
inductive Label
  | probe (p : Probe) (answers : List String)
  | derived (answers : List String)
  | opened (cols rows : Int)
  | message (m : Option Json)
  | handle (answers : List String)
  | settle (answers : List String)
  | onData (bytes : Bytes)
  | send
  | encrypted (nonce : Bytes)
  | resize (cols rows : Int)
  | closed

end Panel
