import Popfleet.Lib.Base64
import Popfleet.Lib.Gcm
import Popfleet.Lib.Hkdf

-- The payload encryption of protocol v1e, as e2e.go, agent.py and term.js compute it. `H` is
-- HMAC-SHA256, `G` is AES-GCM, and a random nonce is an argument.
namespace V1e

abbrev Bytes := List UInt8

def keyLen : Nat := 32
def nonceLen : Nat := 12
def tagLen : Nat := 16

def info : String := "popfleet-v2"

-- What `[]byte(s)`, `s.encode()` and `new TextEncoder().encode(s)` make of a string.
def utf8 (s : String) : Bytes :=
  s.toUTF8.data.toList

theorem toList_loop {bs : ByteArray} {i : Nat} {r : Bytes} :
    ByteArray.toList.loop bs i r = r.reverse ++ bs.data.toList.drop i := by
  fun_induction ByteArray.toList.loop bs i r
  case case1 i r lt hi =>
    have lt : i < bs.data.size := lt
    rw [hi, @List.drop_eq_getElem_cons _ i _ (by simpa using lt)]
    simp [ByteArray.get!, getElem!_pos bs.data i lt]
  case case2 i r ge =>
    rw [List.drop_of_length_le (by simpa using ge), List.append_nil]

theorem toList_toUTF8 {s : String} : s.toUTF8.toList = utf8 s :=
  toList_loop.trans (by simp [utf8])

variable (H : Mac 32) (G : Gcm tagLen)

namespace Go

-- A call returns a value or an error, or it panics.
inductive Outcome (α : Type)
  | ok (a : α)
  | error
  | panicked
  deriving DecidableEq

instance : Monad Outcome where
  pure := .ok
  bind x f := match x with
    | .ok a     => f a
    | .error    => .error
    | .panicked => .panicked

def Outcome.of {α : Type} : Option α → Outcome α
  | some a => .ok a
  | none   => .error

-- `b[lo:hi]`.
def slice (b : Bytes) (lo hi : Nat) : Outcome Bytes :=
  if lo ≤ hi ∧ hi ≤ b.length then .ok ((b.take hi).drop lo) else .panicked

-- The `cipher.AEAD` of a session, by its key.
structure Session where
  aead : Bytes
  deriving DecidableEq

def newCipher (key : Bytes) : Outcome Session :=
  if key.length ∈ [16, 24, 32] then .ok ⟨key⟩ else .error

def newSession (fleetKey : Bytes) (sid : String) : Outcome Session :=
  if fleetKey.length ≠ keyLen then .error
  else do
    let k ← .of (Hkdf.key H fleetKey (utf8 sid) (utf8 info) keyLen)
    newCipher k

-- `aead.Seal`, which appends to `dst`, and `aead.Open`. Both panic on a nonce of the wrong size.

def aeadSeal (key dst nonce plain : Bytes) : Outcome Bytes :=
  if nonce.length ≠ nonceLen then .panicked else .ok (dst ++ G.encrypt key nonce plain)

def aeadOpen (key nonce ct : Bytes) : Outcome Bytes :=
  if nonce.length ≠ nonceLen then .panicked
  else if ct.length < tagLen then .error
  else .of (G.decrypt key nonce ct)

def sealPlain (s : Session) (nonce plain : Bytes) : Outcome String := do
  let out := nonce
  let out ← aeadSeal G s.aead out (← slice out 0 nonceLen) plain
  return Base64.encode out

def openWire (s : Session) (wire : String) : Outcome Bytes := do
  let raw ← .of (Base64.decode wire)
  if raw.length < nonceLen then .error
  else aeadOpen G s.aead (← slice raw 0 nonceLen) (← slice raw nonceLen raw.length)

end Go

-- An exception is `none`.
namespace Contrib

-- `AESGCM(key)`, by its key, with `encrypt` and `decrypt`.
structure AESGCM where
  key : Bytes
  deriving DecidableEq

namespace AESGCM

def init (key : Bytes) : Option AESGCM :=
  if key.length ∈ [16, 24, 32] then some ⟨key⟩ else none

def encrypt (a : AESGCM) (nonce data : Bytes) : Option Bytes :=
  if 8 ≤ nonce.length ∧ nonce.length ≤ 128 then some (G.encrypt a.key nonce data) else none

def decrypt (a : AESGCM) (nonce data : Bytes) : Option Bytes :=
  if 8 ≤ nonce.length ∧ nonce.length ≤ 128 then
    if data.length < tagLen then none else G.decrypt a.key nonce data
  else
    none

end AESGCM

structure E2E where
  aead : AESGCM
  deriving DecidableEq

namespace E2E

def init (fleetKey : Bytes) (sid : String) : Option E2E := do
  let prk := H.mac (utf8 sid) fleetKey
  let okm := H.mac prk (utf8 "popfleet-v2\x01")
  return ⟨← AESGCM.init okm⟩

def sealPlain (e : E2E) (nonce data : Bytes) : Option String := do
  return Base64.encode (nonce ++ (← e.aead.encrypt G nonce data))

-- The handler returns None for every exception.
def openWire (e : E2E) (wire : String) : Option Bytes := do
  let raw ← Base64.b64decode wire
  e.aead.decrypt G (raw.take 12) (raw.drop 12)

end E2E

end Contrib

-- A promise that is rejected is `none`.
namespace Panel

-- The key that `enableE2E` derives from the fleet key.
def deriveKey (raw : Bytes) (sid : String) : Option Bytes :=
  Hkdf.key H raw (utf8 sid) (utf8 "popfleet-v2") (256 / 8)

-- What `enableE2E` tries with the text that it was given.
def importKey (b64 sid : String) : Option Bytes := do
  let raw ← Base64.atob b64
  if raw.length ≠ 32 then none else deriveKey H raw sid

def sealPlain (aead nonce bytes : Bytes) : String :=
  Base64.encode (nonce ++ G.encrypt aead nonce bytes)

-- `crypto.subtle.decrypt`.
def decrypt (aead iv data : Bytes) : Option Bytes :=
  if data.length < tagLen then none else G.decrypt aead iv data

-- `unseal`.
def unsealed (aead : Bytes) (wire : String) : Option Bytes := do
  let raw ← Base64.atob wire
  decrypt G aead (raw.take 12) (raw.drop 12)

end Panel

end V1e
