import Popfleet.Broker.Step
import Popfleet.Lib.Base64
import Popfleet.Proto.Theorems.RoundTrip

open Proto

namespace Broker

variable {ac : AgentConn} {s : Session} {data : String}

-- The frames of the relay hold no integers.
theorem fits_payload {t sid : String} : Msg.Fits { t, sid, data } :=
  have zero : Msg.Int64 0 := by decide
  ⟨by simp, zero, zero⟩

theorem handleAgent_out {sid : String} :
    handleAgent ac { t := "out", sid, data } = [.toBrowser ac sid { t := "out", data }] :=
  rfl

theorem handleTerm_in :
    handleTerm s ac { t := "in", data } = [.relay s ac { t := "in", sid := s.sid, data }] :=
  rfl

theorem encode_ne_empty {b : List UInt8} (hb : b ≠ []) : Base64.encode b ≠ "" := by
  intro none
  have bytes : Base64.decode "" = some b := none ▸ Base64.decode_encode
  exact hb (Option.some.inj bytes).symm

-- A frame that is written is read again as it was, with the fields that are left out of the text. So the
-- bytes that one side of the relay encodes are those that the other decodes, although the broker builds
-- a new frame from the one it reads. The browser has its own writer and reader of the texts.
theorem transparent (sha256 : String → Digest) :
    (∀ m : Msg, m.Fits → Msg.unmarshal m.marshal = some m ∧ Msg.readJSON m.writeJSON = some m) ∧
    (∀ (b : List UInt8) (s : Session) (ac : AgentConn), ∃ f m g,
      Msg.readJSON (Msg.writeJSON { t := "out", sid := s.sid, data := Base64.encode b }) = some f ∧
      (∀ σ, exec sha256 σ (.readAgent ac) (.frame f) =
        some (σ.record (.read ac f), [.toBrowser ac s.sid m, .readAgent ac])) ∧
      (∀ σ i, σ.sess.get? s.sid = some s → s.mid = ac.mid →
        exec sha256 σ (.toBrowser ac s.sid m) i = some (σ, [.sendBrowser s m])) ∧
      Msg.readJSON m.writeJSON = some g ∧
      g.t = "out" ∧ Base64.decode g.data = some b ∧ Base64.atob g.data = some b ∧
      (b ≠ [] → JsonText.read m.writeJSON = some
        (.obj [(['t'], .str ['o', 'u', 't']), (['d', 'a', 't', 'a'], .str g.data.toList)], ['\n']))) ∧
    (∀ (b : List UInt8) (s : Session) (ac : AgentConn), ∃ f m g,
      Msg.readJSON (Msg.writeJSON { t := "in", data := Base64.encode b }) = some f ∧
      Msg.readJSON (Msg.stringify (Base64.encode b)) = some f ∧
      (∀ σ, exec sha256 σ (.readTerm s ac) (.frame f) =
        some (σ, [.relay s ac m, .readTerm s ac])) ∧
      (∀ σ i, exec sha256 σ (.relay s ac m) i = some (σ.sendAgent ac m, [])) ∧
      Msg.readJSON m.writeJSON = some g ∧
      g.t = "in" ∧ g.sid = s.sid ∧ Base64.decode g.data = some b) := by
  refine ⟨fun m hm => ⟨Msg.unmarshal_marshal hm, Msg.readJSON_writeJSON hm⟩, ?_, ?_⟩
  case refine_1 =>
    intro b s ac
    let m : Msg := { t := "out", data := Base64.encode b }
    refine ⟨_, m, m, Msg.readJSON_writeJSON fits_payload, ?_, ?_, Msg.readJSON_writeJSON fits_payload,
      rfl, Base64.decode_encode, Base64.atob_encode, fun hb => Msg.read_out (encode_ne_empty hb)⟩
    case refine_1 =>
      intro σ
      rw [exec, handleAgent_out]
      rfl
    case refine_2 =>
      intro σ i registered owned
      simp only [exec, registered, owned, if_pos]
  case refine_2 =>
    intro b s ac
    let m : Msg := { t := "in", sid := s.sid, data := Base64.encode b }
    refine ⟨_, m, m, Msg.readJSON_writeJSON fits_payload, Msg.readJSON_stringify, ?_, fun _ _ => rfl,
      Msg.readJSON_writeJSON fits_payload, rfl, rfl, Base64.decode_encode⟩
    intro σ
    rw [exec, handleTerm_in]
    rfl

section Sample

def sampleExit : Msg :=
  { t := "exit", sid := "a0", code := some 0 }

def sampleSession : Session :=
  { ptr := 1, sid := "a0", mid := "m0" }

def sampleAgent : AgentConn :=
  { ptr := 0, mid := "m0" }

def sampleAttached : State :=
  { st := ∅, sess := (∅ : GoMap String Session).set "a0" sampleSession }

theorem transparent_sample :
    Msg.readJSON sampleExit.writeJSON = some sampleExit ∧
    ∃ f m g,
      Msg.readJSON (Msg.writeJSON { t := "out", sid := "a0", data := Base64.encode [255, 0, 27] }) =
        some f ∧
      exec sampleSum sampleAttached (.toBrowser sampleAgent "a0" m) .done =
        some (sampleAttached, [.sendBrowser sampleSession m]) ∧
      Msg.readJSON m.writeJSON = some g ∧ Base64.decode g.data = some [255, 0, 27] ∧
      JsonText.read m.writeJSON = some
        (.obj [(['t'], .str ['o', 'u', 't']), (['d', 'a', 't', 'a'], .str g.data.toList)], ['\n']) := by
  have ⟨frames, out, _⟩ := transparent sampleSum
  have fits : sampleExit.Fits := ⟨by decide, by decide, by decide⟩
  obtain ⟨f, m, g, sent, _, routed, received, _, bytes, _, members⟩ :=
    out [255, 0, 27] sampleSession sampleAgent
  exact ⟨(frames sampleExit fits).right, f, m, g, sent, routed sampleAttached .done (by decide) rfl,
    received, bytes, members (by decide)⟩

end Sample

end Broker
