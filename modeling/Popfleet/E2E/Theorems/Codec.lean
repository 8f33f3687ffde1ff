import Popfleet.E2E.Theorems.Authenticity
import Popfleet.E2E.Theorems.Printed
import Popfleet.V1e.Theorems.Interop

open Proto Program V1e

namespace E2E

variable {H : Mac 32} {G : Gcm V1e.tagLen} {T : Aead Bytes tagLen}
  {e2eKey fleetKey key nonce plain raw b : Bytes} {sid wire : String} {decode : String → Option Bytes}
  {chunks : List (Pty Bytes × Bytes)} {σ : State Bytes} {line : Bytes}
  {c : Config (State Bytes) (Op Bytes)} {m : Msg}

-- The value of a text is one that was sealed under its nonce.
def SealedAs (T : Aead Bytes tagLen) (key : Bytes) (decode : String → Option Bytes) (wire : String)
    (plain : Bytes) : Prop :=
  ∃ nonce ct, decode wire = some (nonce ++ ct) ∧ nonce.length = nonceLen ∧ (key, nonce, plain) ∈ T.sealed

theorem decrypt_nonce (h : ¬nonceLen ≤ raw.length) : G.decrypt key nonce (raw.drop nonceLen) = none :=
  G.decrypt_short (drop_short h)

-- The ideal scheme opens a decoded text that the cipher opens, if its value was sealed.
theorem decrypt?_decoded (h : T.cipher = G.cipher) (hd : decode wire = some raw) :
    T.decrypt? key (raw.take nonceLen) (raw.drop nonceLen) = some b ↔
      V1e.Authentic G key decode wire b ∧ SealedAs T key decode wire b := by
  rw [Gcm.decrypt?_iff h]
  constructor
  case mp =>
    rintro ⟨opens, hm⟩
    have long : nonceLen ≤ raw.length := by
      by_contra short
      simp [decrypt_nonce short] at opens
    refine ⟨(authentic_iff hd).mpr ⟨long, opens⟩, _, raw.drop nonceLen, ?_, List.length_take_of_le long, hm⟩
    rw [hd, List.take_append_drop]
  case mpr =>
    rintro ⟨authentic, nonce, ct, decoded, len, hm⟩
    cases Option.some.inj (hd.symm.trans decoded)
    exact ⟨((authentic_iff hd).mp authentic).right, (List.take_left' len).symm ▸ hm⟩

section Codec

-- The sessions of the agent and the page, and those of e2e.go and term.js. The keys are derived as there,
-- and the scheme encrypts as the cipher does.

theorem newSession_eq_some :
    newSession (sessionKey H) fleetKey sid = some key ↔ Go.newSession H fleetKey sid = .ok ⟨key⟩ := by
  by_cases len : fleetKey.length = keyLen
  case pos => simp [newSession, if_pos len, Go.newSession_eq len]
  case neg =>
    have other : fleetKey.length ≠ V1e.keyLen := len
    simp [newSession, Go.newSession, if_neg len, other]

theorem sealPlain_eq (h : T.cipher = G.cipher) (hn : nonce.length = nonceLen) :
    (sealPlain T key nonce plain).map (·.2) = some wire ↔ Go.sealPlain G ⟨key⟩ nonce plain = .ok wire := by
  rw [Go.sealPlain_eq hn]
  simp [sealPlain, if_pos hn, Aead.encrypt, h, Gcm.cipher]

theorem sealPlain_panel (h : T.cipher = G.cipher) (hn : nonce.length = nonceLen) :
    (sealPlain T key nonce plain).map (·.2) = some (Panel.sealPlain G key nonce plain) := by
  simp [sealPlain, if_pos hn, Aead.encrypt, h, Gcm.cipher, Panel.sealPlain]

theorem openWire_iff (h : T.cipher = G.cipher) :
    openWire T key wire = some b ↔
      Go.openWire G ⟨key⟩ wire = .ok b ∧ SealedAs T key Base64.decode wire b := by
  rw [Go.openWire_ok_iff]
  cases hd : Base64.decode wire
  case none => simp [openWire, hd, not_authentic hd]
  case some raw =>
    rw [← decrypt?_decoded h hd, openWire, hd, Option.bind_eq_bind, Option.bind_some]
    by_cases short : raw.length < nonceLen
    case pos =>
      simp [short, Gcm.decrypt?_iff h, decrypt_nonce (Nat.not_le.mpr short)]
    case neg => rw [if_neg short]

theorem unsealed_iff (h : T.cipher = G.cipher) :
    unsealed T key wire = some b ↔
      Panel.unsealed G key wire = some b ∧ SealedAs T key Base64.atob wire b := by
  rw [Panel.unsealed_eq_some]
  cases hd : Base64.atob wire
  case none => simp [unsealed, hd, not_authentic hd]
  case some raw => rw [← decrypt?_decoded h hd, unsealed, hd, Option.bind_eq_bind, Option.bind_some]

end Codec

-- The command that the agent starts a process for is what e2e.go opens.
theorem cmdline_interop (hk : 0 < e2eKey.length) (hc : σ.aead.cipher = G.cipher) :
    cmdline (sessionKey H) e2eKey σ m = some (some key, line) ↔
      Go.newSession H e2eKey m.sid = .ok ⟨key⟩ ∧
        if m.cmd = "" then line = []
        else Go.openWire G ⟨key⟩ m.cmd = .ok line ∧ SealedAs σ.aead key Base64.decode m.cmd line := by
  rw [← newSession_eq_some, ← openWire_iff hc, cmdline, if_pos hk]
  cases newSession (sessionKey H) e2eKey m.sid
  case none => simp
  case some k =>
    by_cases empty : m.cmd = ""
    case pos => simp [empty, eq_comm]
    case neg =>
      simp only [empty, if_false, Option.bind_eq_bind, Option.bind_some, Option.bind_eq_some_iff]
      constructor
      case mp =>
        rintro ⟨_, opens, same⟩
        cases same
        exact ⟨rfl, opens⟩
      case mpr =>
        rintro ⟨same, opens⟩
        cases same
        exact ⟨line, opens, rfl⟩

-- The output that the agent sends is sealed by e2e.go, and the page opens it with term.js.
theorem out_interop (len : e2eKey.length = keyLen)
    (h : (program (sessionKey H) e2eKey).system.Observed (fun c l => (chunk c l).toList) chunks c)
    (hc : c.shared.aead.cipher = G.cipher) (hm : .shown m ∈ c.shared.log) (ht : m.t = "out") :
    ∃ p nonce b, p.sid = m.sid ∧ b <:+: printed p chunks ∧
      Go.sealPlain G ⟨sessionKey H e2eKey m.sid⟩ nonce b = .ok m.data ∧
      Panel.unsealed G (sessionKey H e2eKey m.sid) m.data = some b := by
  have ⟨nonce, b, logged, sealed, _⟩ := (guarded_reachable len h.reachable).shown m hm ht
  have ⟨p, hs, hb⟩ := (prints_observed h).sealed _ _ _ logged
  have ⟨⟨_, _⟩, e, _⟩ := Option.map_eq_some_iff.mp sealed
  have ⟨hn, _, _⟩ := sealPlain_eq_some e
  have wire := (sealPlain_eq hc hn).mp sealed
  rw [Go.sealPlain_eq hn] at wire
  refine ⟨p, nonce, b, hs, hb, (sealPlain_eq hc hn).mp sealed, Panel.unsealed_eq_some.mpr ?_⟩
  rw [← Go.Outcome.ok.inj wire]
  exact ⟨nonce, _, Base64.atob_encode, hn, G.decrypt_encrypt⟩

end E2E
