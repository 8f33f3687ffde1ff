import Popfleet.Lib.Aead
import Popfleet.Lib.Base64

namespace E2E

abbrev Bytes := List UInt8

def keyLen : Nat := 32
def nonceLen : Nat := 12
def tagLen : Nat := 16

variable {κ : Type} [DecidableEq κ]

-- `NewSession` derives the key of a sid from the fleet key. The AEAD under it is all there is to a
-- `Session`.
def newSession (hkdf : Bytes → String → κ) (fleetKey : Bytes) (sid : String) : Option κ :=
  if fleetKey.length = keyLen then some (hkdf fleetKey sid) else none

-- The wire form of a value is base64(nonce || ciphertext).
def sealPlain (T : Aead κ tagLen) (k : κ) (nonce plain : Bytes) : Option (Aead κ tagLen × String) :=
  if nonce.length = nonceLen then
    let (T', ct) := T.encrypt k nonce plain
    some (T', Base64.encode (nonce ++ ct))
  else
    none

def openWire (T : Aead κ tagLen) (k : κ) (wire : String) : Option Bytes := do
  let raw ← Base64.decode wire
  if raw.length < nonceLen then none else T.decrypt? k (raw.take nonceLen) (raw.drop nonceLen)

-- `unseal` of the terminal page.
def unsealed (T : Aead κ tagLen) (k : κ) (wire : String) : Option Bytes := do
  let raw ← Base64.atob wire
  T.decrypt? k (raw.take nonceLen) (raw.drop nonceLen)

variable {T T' : Aead κ tagLen} {k : κ} {nonce plain b : Bytes} {wire : String}

omit [DecidableEq κ] in
theorem sealPlain_eq_some (h : sealPlain T k nonce plain = some (T', wire)) :
    nonce.length = nonceLen ∧ T' = (T.encrypt k nonce plain).1 ∧
      wire = Base64.encode (nonce ++ (T.encrypt k nonce plain).2) := by
  have ⟨len, h⟩ := Option.ite_none_right_eq_some.mp h
  cases h
  exact ⟨len, rfl, rfl⟩

omit [DecidableEq κ] in
-- The cipher alone determines the wire form.
theorem sealPlain_wire (h : T'.cipher = T.cipher) :
    (sealPlain T' k nonce plain).map (·.2) = (sealPlain T k nonce plain).map (·.2) := by
  simp only [sealPlain, Aead.encrypt, h]
  split <;> rfl

theorem openWire_sealPlain (h : sealPlain T k nonce plain = some (T', wire)) :
    openWire T' k wire = some plain := by
  obtain ⟨len, rfl, rfl⟩ := sealPlain_eq_some h
  have long : ¬(nonce ++ (T.encrypt k nonce plain).2).length < nonceLen := by simp [len]
  have nonce_eq : (nonce ++ (T.encrypt k nonce plain).2).take nonceLen = nonce := List.take_left' len
  have ct_eq : (nonce ++ (T.encrypt k nonce plain).2).drop nonceLen = (T.encrypt k nonce plain).2 :=
    List.drop_left' len
  simp only [openWire, Base64.decode_encode, Option.bind_eq_bind, Option.bind_some, if_neg long, nonce_eq,
    ct_eq, Aead.decrypt?_encrypt]

theorem openWire_eq_some (h : openWire T k wire = some b) :
    ∃ nonce ct, nonce.length = nonceLen ∧ Base64.decode wire = some (nonce ++ ct) ∧
      T.decrypt? k nonce ct = some b := by
  have ⟨raw, decoded, h⟩ := Option.bind_eq_some_iff.mp h
  have ⟨long, h⟩ := Option.ite_none_left_eq_some.mp h
  exact ⟨_, _, List.length_take_of_le (Nat.le_of_not_lt long), by rw [List.take_append_drop, decoded], h⟩

-- A sealed value is longer than what it is the value of.
theorem openWire_ne_encode (h : openWire T k wire = some b) : wire ≠ Base64.encode b := by
  rintro rfl
  have ⟨nonce, ct, len, decoded, opens⟩ := openWire_eq_some h
  have same := congrArg List.length (Option.some.inj (Base64.decode_encode.symm.trans decoded))
  have tagged := Aead.length_of_decrypt? opens
  simp only [List.length_append, len, tagged, nonceLen, tagLen] at same
  omega

end E2E
