import Mathlib.Logic.Equiv.Basic
import Popfleet.V1e.Codec

namespace V1e

-- The key of a session as the three implementations derive it.
def sessionKey (H : Mac 32) (fleetKey : Bytes) (sid : String) : Bytes :=
  H.mac (H.mac (utf8 sid) fleetKey) (utf8 info ++ [1])

-- A text decodes to a nonce and a ciphertext with a valid tag.
def Authentic (G : Gcm tagLen) (key : Bytes) (decode : String → Option Bytes) (wire : String)
    (plain : Bytes) : Prop :=
  ∃ nonce ct, decode wire = some (nonce ++ ct) ∧ nonce.length = nonceLen ∧
    G.decrypt key nonce ct = some plain

variable {H : Mac 32} {G : Gcm tagLen} {fleetKey key nonce plain raw b : Bytes} {sid wire : String}
  {decode : String → Option Bytes}

theorem length_sessionKey : (sessionKey H fleetKey sid).length = keyLen :=
  H.length_mac

-- HKDF with its salt and info, for a key of one block.
theorem hkdf_key : Hkdf.key H fleetKey (utf8 sid) (utf8 info) 32 = some (sessionKey H fleetKey sid) :=
  Hkdf.expand_block (by decide)

-- The value of a decoded text, for a decoder of each implementation.
theorem authentic_iff (h : decode wire = some raw) :
    Authentic G key decode wire plain ↔
      nonceLen ≤ raw.length ∧ G.decrypt key (raw.take nonceLen) (raw.drop nonceLen) = some plain := by
  constructor
  case mp =>
    rintro ⟨nonce, ct, hd, len, he⟩
    cases Option.some.inj (h.symm.trans hd)
    rw [List.take_left' len, List.drop_left' len]
    exact ⟨by rw [List.length_append]; omega, he⟩
  case mpr =>
    rintro ⟨long, he⟩
    refine ⟨_, _, ?_, List.length_take_of_le long, he⟩
    rw [h, List.take_append_drop]

-- Where the nonce or the tag does not fit in, there is nothing to decrypt.
theorem authentic_long (h : Authentic G key decode wire plain) (hd : decode wire = some raw) :
    nonceLen + tagLen ≤ raw.length := by
  obtain ⟨nonce, ct, hw, len, he⟩ := h
  cases Option.some.inj (hd.symm.trans hw)
  have tag : ¬ct.length < tagLen := fun short => by simp [G.decrypt_short short] at he
  rw [List.length_append]
  omega

theorem not_authentic (h : decode wire = none) : ¬Authentic G key decode wire plain := by
  rintro ⟨_, _, hd, _⟩
  simp [h] at hd

theorem drop_short (h : ¬nonceLen ≤ raw.length) : (raw.drop 12).length < tagLen := by
  simp only [nonceLen, Nat.not_le] at h
  simp [Nat.sub_eq_zero_of_le (Nat.le_of_lt h), tagLen]

namespace Go

theorem newSession_eq (h : fleetKey.length = keyLen) :
    newSession H fleetKey sid = .ok ⟨sessionKey H fleetKey sid⟩ := by
  have k : Hkdf.key H fleetKey (utf8 sid) (utf8 info) keyLen = some (sessionKey H fleetKey sid) :=
    hkdf_key
  rw [newSession, if_neg (not_not.mpr h), k]
  show newCipher _ = _
  rw [newCipher, if_pos (by rw [length_sessionKey]; decide)]

theorem sealPlain_eq (h : nonce.length = nonceLen) :
    sealPlain G ⟨key⟩ nonce plain = .ok (Base64.encode (nonce ++ G.encrypt key nonce plain)) := by
  have whole : slice nonce 0 nonceLen = .ok nonce := by
    rw [slice, if_pos ⟨Nat.zero_le _, Nat.le_of_eq h.symm⟩, List.drop_zero,
      List.take_of_length_le (Nat.le_of_eq h)]
  simp only [sealPlain, whole, bind, pure, aeadSeal, if_neg (not_not.mpr h)]

theorem openWire_none (h : Base64.decode wire = none) : openWire G ⟨key⟩ wire = .error := by
  simp [openWire, h, bind, Outcome.of]

-- The slices are within bounds, and the nonce has the size that `Open` wants.
theorem openWire_some (h : Base64.decode wire = some raw) :
    openWire G ⟨key⟩ wire =
      if nonceLen ≤ raw.length then .of (G.decrypt key (raw.take nonceLen) (raw.drop nonceLen))
      else .error := by
  simp only [openWire, h, bind, Outcome.of]
  split
  case isTrue short => rw [if_neg (Nat.not_le.mpr short)]
  case isFalse long =>
    replace long := Nat.not_lt.mp long
    have nonce : slice raw 0 nonceLen = .ok (raw.take nonceLen) := by
      rw [slice, if_pos ⟨Nat.zero_le _, long⟩, List.drop_zero]
    have ct : slice raw nonceLen raw.length = .ok (raw.drop nonceLen) := by
      rw [slice, if_pos ⟨long, Nat.le_refl _⟩, List.take_length]
    simp only [nonce, ct, aeadOpen, List.length_take_of_le long, ne_eq, not_true_eq_false, if_false,
      if_pos long]
    split
    case isTrue short => rw [G.decrypt_short short]
    case isFalse      => rfl

theorem openWire_ok_iff :
    openWire G ⟨key⟩ wire = .ok plain ↔ Authentic G key Base64.decode wire plain := by
  cases e : Base64.decode wire
  case none => simp [openWire_none e, not_authentic e]
  case some raw =>
    rw [openWire_some e, authentic_iff e]
    by_cases long : nonceLen ≤ raw.length
    case neg => simp [long]
    case pos => cases G.decrypt key (raw.take nonceLen) (raw.drop nonceLen) <;> simp [long, Outcome.of]

theorem openWire_ne_panicked : openWire G ⟨key⟩ wire ≠ .panicked := by
  cases e : Base64.decode wire
  case none => simp [openWire_none e]
  case some raw =>
    rw [openWire_some e]
    split
    case isFalse => simp
    case isTrue  => cases G.decrypt key (raw.take nonceLen) (raw.drop nonceLen) <;> simp [Outcome.of]

end Go

namespace Contrib.E2E

theorem init_eq : init H fleetKey sid = some ⟨⟨sessionKey H fleetKey sid⟩⟩ := by
  have once : utf8 "popfleet-v2\x01" = utf8 info ++ [1] := by decide
  simp only [init, once, AESGCM.init, H.length_mac]
  rfl

theorem sealPlain_eq (h : nonce.length = nonceLen) :
    sealPlain G ⟨⟨key⟩⟩ nonce plain = some (Base64.encode (nonce ++ G.encrypt key nonce plain)) := by
  simp [sealPlain, AESGCM.encrypt, h, nonceLen]

-- With a nonce that is too short for GCM, there is no ciphertext left.
theorem openWire_some (h : Base64.b64decode wire = some raw) :
    openWire G ⟨⟨key⟩⟩ wire =
      if nonceLen ≤ raw.length then G.decrypt key (raw.take nonceLen) (raw.drop nonceLen)
      else none := by
  rw [openWire, h, Option.bind_eq_bind, Option.bind_some, AESGCM.decrypt, G.ite_short]
  by_cases long : nonceLen ≤ raw.length
  case neg => rw [if_neg long, G.decrypt_short (drop_short long), ite_self]
  case pos =>
    have len : (raw.take 12).length = 12 := List.length_take_of_le long
    rw [if_pos long, if_pos (by rw [len]; decide)]
    rfl

theorem openWire_eq_some :
    openWire G ⟨⟨key⟩⟩ wire = some plain ↔ Authentic G key Base64.b64decode wire plain := by
  cases e : Base64.b64decode wire
  case none => simp [openWire, e, not_authentic e]
  case some raw => simp [openWire_some e, authentic_iff e]

end Contrib.E2E

namespace Panel

theorem deriveKey_eq : deriveKey H fleetKey sid = some (sessionKey H fleetKey sid) :=
  hkdf_key

theorem unsealed_some (h : Base64.atob wire = some raw) :
    unsealed G key wire =
      if nonceLen ≤ raw.length then G.decrypt key (raw.take nonceLen) (raw.drop nonceLen)
      else none := by
  rw [unsealed, h, Option.bind_eq_bind, Option.bind_some, decrypt, G.ite_short]
  by_cases long : nonceLen ≤ raw.length
  case pos => rw [if_pos long]; rfl
  case neg => rw [if_neg long, G.decrypt_short (drop_short long)]

theorem unsealed_eq_some :
    unsealed G key wire = some plain ↔ Authentic G key Base64.atob wire plain := by
  cases e : Base64.atob wire
  case none => simp [unsealed, e, not_authentic e]
  case some raw => simp [unsealed_some e, authentic_iff e]

end Panel

-- A text that decodes to less than a nonce and a tag.
def Short (decode : String → Option Bytes) (wire : String) : Prop :=
  ∀ raw, decode wire = some raw → raw.length < nonceLen + tagLen

theorem Short.not_authentic (h : Short decode wire) : ¬Authentic G key decode wire plain := by
  intro authentic
  have ⟨_, _, decoded, _⟩ := authentic
  exact absurd (authentic_long authentic decoded) (Nat.not_le.mpr (h _ decoded))

theorem Short.of_length (h : wire.length < nonceLen + tagLen) :
    Short Base64.decode wire ∧ Short Base64.b64decode wire ∧ Short Base64.atob wire := by
  refine ⟨fun raw hd => ?_, fun raw hd => ?_, fun raw hd => ?_⟩
  case refine_1 => exact Nat.lt_of_le_of_lt (Base64.length_decode hd) h
  case refine_2 => exact Nat.lt_of_le_of_lt (Base64.length_b64decode hd) h
  case refine_3 =>
    have := Base64.length_atob hd
    simp only [nonceLen, tagLen] at h ⊢
    omega

theorem Go.openWire_error (h : ∀ plain, ¬Authentic G key Base64.decode wire plain) :
    openWire G ⟨key⟩ wire = .error := by
  cases e : openWire G ⟨key⟩ wire
  case ok plain => exact absurd (openWire_ok_iff.mp e) (h plain)
  case error    => rfl
  case panicked => exact absurd e openWire_ne_panicked

-- All three derive the same key of a session, seal alike and open what any of them sealed. They open no
-- other texts than those that decode to a nonce and a ciphertext with a valid tag, and the Go code does
-- not panic on the others.
theorem interop (H : Mac 32) (G : Gcm tagLen) {fleetKey nonce : Bytes} (sid : String) (plain : Bytes)
    (hk : fleetKey.length = keyLen) (hn : nonce.length = nonceLen) :
    ∃ key wire,
      (Go.newSession H fleetKey sid = .ok ⟨key⟩ ∧ Contrib.E2E.init H fleetKey sid = some ⟨⟨key⟩⟩ ∧
        Panel.importKey H (Base64.encode fleetKey) sid = some key) ∧
      (Go.sealPlain G ⟨key⟩ nonce plain = .ok wire ∧ Contrib.E2E.sealPlain G ⟨⟨key⟩⟩ nonce plain = some wire ∧
        Panel.sealPlain G key nonce plain = wire) ∧
      (Go.openWire G ⟨key⟩ wire = .ok plain ∧ Contrib.E2E.openWire G ⟨⟨key⟩⟩ wire = some plain ∧
        Panel.unsealed G key wire = some plain) ∧
      (∀ w b, (Go.openWire G ⟨key⟩ w = .ok b ↔ Authentic G key Base64.decode w b) ∧
        (Contrib.E2E.openWire G ⟨⟨key⟩⟩ w = some b ↔ Authentic G key Base64.b64decode w b) ∧
        (Panel.unsealed G key w = some b ↔ Authentic G key Base64.atob w b)) ∧
      (∀ w, Go.openWire G ⟨key⟩ w ≠ .panicked) ∧
      ∀ w, (Short Base64.decode w → Go.openWire G ⟨key⟩ w = .error) ∧
        (Short Base64.b64decode w → Contrib.E2E.openWire G ⟨⟨key⟩⟩ w = none) ∧
        (Short Base64.atob w → Panel.unsealed G key w = none) ∧
        (w.length < nonceLen + tagLen →
          Short Base64.decode w ∧ Short Base64.b64decode w ∧ Short Base64.atob w) := by
  let key := sessionKey H fleetKey sid
  let ct := G.encrypt key nonce plain
  have imported : Panel.importKey H (Base64.encode fleetKey) sid = some key := by
    simp [Panel.importKey, Base64.atob_encode, hk, keyLen, Panel.deriveKey_eq, key]
  have authentic {decode : String → Option Bytes}
      (h : decode (Base64.encode (nonce ++ ct)) = some (nonce ++ ct)) :
      Authentic G key decode (Base64.encode (nonce ++ ct)) plain :=
    ⟨nonce, ct, h, hn, G.decrypt_encrypt⟩
  refine ⟨key, Base64.encode (nonce ++ ct), ⟨Go.newSession_eq hk, Contrib.E2E.init_eq, imported⟩,
    ⟨Go.sealPlain_eq hn, Contrib.E2E.sealPlain_eq hn, rfl⟩, ⟨?_, ?_, ?_⟩,
    fun w b => ⟨Go.openWire_ok_iff, Contrib.E2E.openWire_eq_some, Panel.unsealed_eq_some⟩,
    fun w => Go.openWire_ne_panicked,
    fun w => ⟨fun short => ?_, fun short => ?_, fun short => ?_, Short.of_length⟩⟩
  case refine_1 => exact Go.openWire_ok_iff.mpr (authentic Base64.decode_encode)
  case refine_2 => exact Contrib.E2E.openWire_eq_some.mpr (authentic Base64.b64decode_encode)
  case refine_3 => exact Panel.unsealed_eq_some.mpr (authentic Base64.atob_encode)
  case refine_4 => exact Go.openWire_error fun b => short.not_authentic
  case refine_5 =>
    refine Option.eq_none_iff_forall_not_mem.mpr fun b hb => ?_
    exact short.not_authentic (Contrib.E2E.openWire_eq_some.mp hb)
  case refine_6 =>
    refine Option.eq_none_iff_forall_not_mem.mpr fun b hb => ?_
    exact short.not_authentic (Panel.unsealed_eq_some.mp hb)

-- HMAC-SHA256 on what the key of session a0 is derived from.
def sampleMac : Mac 32 where
  mac key _ :=
    if key = utf8 "a0" then
      [58, 174, 134, 219, 134, 180, 92, 223, 25, 243, 133, 81, 185, 92, 104, 182,
        31, 128, 111, 231, 228, 82, 6, 247, 25, 164, 185, 217, 203, 254, 120, 103]
    else
      [119, 182, 22, 10, 92, 127, 128, 253, 241, 147, 118, 135, 69, 229, 163, 34,
        147, 199, 182, 28, 230, 33, 60, 183, 210, 240, 96, 142, 202, 145, 242, 4]
  length_mac {key _} := by split <;> rfl

-- A cipher that only appends a tag of zeros.
def sampleTag : Gcm tagLen where
  encrypt _ _ plain := plain ++ .replicate tagLen 0
  decrypt _ _ ct :=
    let plain := ct.take (ct.length - tagLen)
    if ct = plain ++ .replicate tagLen 0 then some plain else none
  decrypt_iff {_ _ ct plain} := by
    constructor
    case mp =>
      intro h
      have ⟨he, h⟩ := Option.ite_none_right_eq_some.mp h
      exact Option.some.inj h ▸ he
    case mpr =>
      rintro rfl
      simp
  length_encrypt := by simp

-- The same cipher, except that under one key and nonce the ciphertext of one text is the given one.
def withCt (G : Gcm tagLen) (key nonce plain ct : Bytes) (h : ct.length = plain.length + tagLen) :
    Gcm tagLen where
  encrypt k n p :=
    if k = key ∧ n = nonce then Equiv.swap (G.encrypt key nonce plain) ct (G.encrypt k n p)
    else G.encrypt k n p
  decrypt k n c :=
    if k = key ∧ n = nonce then G.decrypt k n (Equiv.swap (G.encrypt key nonce plain) ct c)
    else G.decrypt k n c
  decrypt_iff {k n c p} := by
    split
    case isTrue  => rw [G.decrypt_iff, Equiv.swap_apply_eq_iff]
    case isFalse => exact G.decrypt_iff
  length_encrypt {k n p} := by
    have same {c : Bytes} : (Equiv.swap (G.encrypt key nonce plain) ct c).length = c.length := by
      rw [Equiv.swap_apply_def]
      split
      case isTrue he => rw [he, G.length_encrypt, h]
      case isFalse =>
        split
        case isTrue he => rw [he, G.length_encrypt, h]
        case isFalse   => rfl
    split
    case isTrue  => rw [same, G.length_encrypt]
    case isFalse => exact G.length_encrypt

def sampleKey : Bytes := .replicate 32 7
def sampleNonce : Bytes := .replicate 12 0

-- AES-GCM on "ls" under that key and the nonce of zeros.
def sampleGcm : Gcm tagLen :=
  withCt sampleTag (sessionKey sampleMac sampleKey "a0") sampleNonce [108, 115]
    [232, 9, 125, 123, 68, 164, 59, 225, 130, 128, 206, 32, 18, 63, 182, 154, 91, 95] rfl

theorem interop_sample :
    ∃ key, Go.newSession sampleMac sampleKey "a0" = .ok ⟨key⟩ ∧
      Go.sealPlain sampleGcm ⟨key⟩ sampleNonce [108, 115] =
        .ok "AAAAAAAAAAAAAAAA6Al9e0SkO+GCgM4gEj+2mltf" ∧
      Contrib.E2E.openWire sampleGcm ⟨⟨key⟩⟩ "AAAAAAAAAAAAAAAA6Al9e0SkO+GCgM4gEj+2mltf" =
        some [108, 115] := by
  have hk : sampleKey.length = keyLen := by decide
  have hn : sampleNonce.length = nonceLen := by decide
  have ⟨key, wire, ⟨derived, _⟩, ⟨wired, _⟩, ⟨_, opened, _⟩, _⟩ :=
    interop sampleMac sampleGcm "a0" [108, 115] hk hn
  have same : sessionKey sampleMac sampleKey "a0" = key :=
    Go.Session.mk.inj (Go.Outcome.ok.inj ((Go.newSession_eq hk).symm.trans derived))
  subst same
  have text : Go.sealPlain sampleGcm ⟨sessionKey sampleMac sampleKey "a0"⟩ sampleNonce [108, 115] =
      .ok "AAAAAAAAAAAAAAAA6Al9e0SkO+GCgM4gEj+2mltf" := by
    decide
  injection wired.symm.trans text with wire_eq
  exact ⟨_, derived, text, wire_eq ▸ opened⟩

end V1e
