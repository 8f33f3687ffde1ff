import Popfleet.Lib.Aead

-- An authenticated cipher as a pair of functions of the key, the nonce and the message. Decryption
-- inverts encryption and rejects everything else, and a ciphertext is a tag longer than its plaintext.
structure Gcm (tagLen : Nat) where
  encrypt        : List UInt8 → List UInt8 → List UInt8 → List UInt8
  decrypt        : List UInt8 → List UInt8 → List UInt8 → Option (List UInt8)
  decrypt_iff    : ∀ {key nonce ct plain}, decrypt key nonce ct = some plain ↔ ct = encrypt key nonce plain
  length_encrypt : ∀ {key nonce plain}, (encrypt key nonce plain).length = plain.length + tagLen

namespace Gcm

variable {tagLen : Nat} {G : Gcm tagLen} {key nonce ct plain b : List UInt8} {T : Aead (List UInt8) tagLen}

@[simp]
theorem decrypt_encrypt : G.decrypt key nonce (G.encrypt key nonce plain) = some plain :=
  G.decrypt_iff.mpr rfl

-- A ciphertext without room for the tag is rejected.
theorem decrypt_short (h : ct.length < tagLen) : G.decrypt key nonce ct = none := by
  cases e : G.decrypt key nonce ct
  case none => rfl
  case some plain =>
    rw [G.decrypt_iff.mp e, G.length_encrypt] at h
    omega

-- So it makes no difference whether its length is checked first.
theorem ite_short :
    (if ct.length < tagLen then none else G.decrypt key nonce ct) = G.decrypt key nonce ct := by
  split
  case isTrue h  => exact (decrypt_short h).symm
  case isFalse   => rfl

-- The cipher of an ideal scheme.
def cipher (G : Gcm tagLen) : Cipher (List UInt8) tagLen where
  encrypt        := G.encrypt
  length_encrypt := G.length_encrypt
  injective {key nonce plain plain'} same := by
    have opened : G.decrypt key nonce (G.encrypt key nonce plain) = some plain' := G.decrypt_iff.mpr same
    exact Option.some.inj (decrypt_encrypt.symm.trans opened)

-- The ideal scheme opens what this one does and somebody sealed.
theorem decrypt?_iff (h : T.cipher = G.cipher) :
    T.decrypt? key nonce ct = some b ↔ G.decrypt key nonce ct = some b ∧ (key, nonce, b) ∈ T.sealed := by
  rw [Aead.decrypt?_eq_some, G.decrypt_iff, h, and_comm, eq_comm]
  rfl

end Gcm
