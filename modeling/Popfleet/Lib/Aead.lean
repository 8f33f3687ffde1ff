import Mathlib.Data.List.Basic
import Mathlib.Logic.Function.Basic

-- How a plaintext is encrypted under a key and a nonce. The ciphertext ends in a tag.
structure Cipher (κ : Type) (tagLen : Nat) where
  encrypt        : κ → List UInt8 → List UInt8 → List UInt8
  injective      : ∀ {k nonce}, Function.Injective (encrypt k nonce)
  length_encrypt : ∀ {k nonce plain}, (encrypt k nonce plain).length = plain.length + tagLen

instance {κ : Type} {tagLen : Nat} : Inhabited (Cipher κ tagLen) where
  default := {
    encrypt _ _ plain := plain ++ List.replicate tagLen 0
    injective         := List.append_cancel_right
    length_encrypt    := by simp }

-- An ideal authenticated encryption scheme: a cipher, with the key, the nonce and the plaintext of all
-- that was sealed. What was not sealed does not open.
structure Aead (κ : Type) (tagLen : Nat) where
  cipher : Cipher κ tagLen := default
  sealed : List (κ × List UInt8 × List UInt8) := []

namespace Aead

variable {κ : Type} [DecidableEq κ] {tagLen : Nat} {T : Aead κ tagLen} {k k' : κ}
  {nonce nonce' ct plain b : List UInt8}

def encrypt (T : Aead κ tagLen) (k : κ) (nonce plain : List UInt8) : Aead κ tagLen × List UInt8 :=
  ({ T with sealed := (k, nonce, plain) :: T.sealed }, T.cipher.encrypt k nonce plain)

def decrypt? (T : Aead κ tagLen) (k : κ) (nonce ct : List UInt8) : Option (List UInt8) :=
  T.sealed.findSome? fun (k', nonce', plain) =>
    if k' = k ∧ nonce' = nonce ∧ T.cipher.encrypt k nonce plain = ct then some plain else none

-- The plaintext of a ciphertext is the only one.
theorem decrypt?_eq_some :
    T.decrypt? k nonce ct = some b ↔ (k, nonce, b) ∈ T.sealed ∧ T.cipher.encrypt k nonce b = ct := by
  constructor
  case mp =>
    intro h
    have ⟨⟨k', nonce', plain⟩, hm, h⟩ := List.exists_of_findSome?_eq_some h
    obtain ⟨⟨rfl, rfl, hc⟩, hb⟩ := Option.ite_none_right_eq_some.mp h
    obtain rfl := Option.some.inj hb
    exact ⟨hm, hc⟩
  case mpr =>
    rintro ⟨hm, hc⟩
    cases h : T.decrypt? k nonce ct
    case none =>
      have none := List.findSome?_eq_none_iff.mp h _ hm
      simp [hc] at none
    case some plain =>
      have ⟨_, _, h⟩ := List.exists_of_findSome?_eq_some h
      have ⟨⟨_, _, same⟩, hb⟩ := Option.ite_none_right_eq_some.mp h
      exact hb ▸ congrArg some (T.cipher.injective (same.trans hc.symm))

theorem decrypt?_encrypt :
    (T.encrypt k nonce plain).1.decrypt? k nonce (T.encrypt k nonce plain).2 = some plain :=
  decrypt?_eq_some.mpr ⟨List.mem_cons_self, rfl⟩

theorem of_decrypt?_encrypt (h : (T.encrypt k nonce plain).1.decrypt? k' nonce' ct = some b) :
    (k' = k ∧ b = plain) ∨ T.decrypt? k' nonce' ct = some b := by
  have ⟨hm, hc⟩ := decrypt?_eq_some.mp h
  cases hm
  case head    => exact .inl ⟨rfl, rfl⟩
  case tail hm => exact .inr (decrypt?_eq_some.mpr ⟨hm, hc⟩)

-- What opens does so from then on.
theorem decrypt?_mono (h : T.decrypt? k' nonce' ct = some b) :
    (T.encrypt k nonce plain).1.decrypt? k' nonce' ct = some b :=
  have ⟨hm, hc⟩ := decrypt?_eq_some.mp h
  decrypt?_eq_some.mpr ⟨List.mem_cons_of_mem _ hm, hc⟩

theorem length_of_decrypt? (h : T.decrypt? k nonce ct = some b) : ct.length = b.length + tagLen :=
  have ⟨_, hc⟩ := decrypt?_eq_some.mp h
  hc ▸ T.cipher.length_encrypt

end Aead
