import Mathlib.Data.List.Basic

-- A message authentication code with tags of `n` bytes.
structure Mac (n : Nat) where
  mac        : List UInt8 → List UInt8 → List UInt8
  length_mac : ∀ {key msg}, (mac key msg).length = n

-- HKDF over any such code, which is to be HMAC with the hash function.
namespace Hkdf

variable {n : Nat} (H : Mac n) (prk info : List UInt8)

def extract (salt ikm : List UInt8) : List UInt8 :=
  H.mac salt ikm

-- `T(i)`, which is empty for 0.
def block : Nat → List UInt8
  | 0     => []
  | i + 1 => H.mac prk (block i ++ info ++ [.ofNat (i + 1)])

-- `T(1) | … | T(i)`.
def blocks : Nat → List UInt8
  | 0     => []
  | i + 1 => blocks i ++ block H prk info (i + 1)

def expand (len : Nat) : Option (List UInt8) :=
  if len ≤ 255 * n then some ((blocks H prk info ((len + n - 1) / n)).take len) else none

def key (ikm salt info : List UInt8) (len : Nat) : Option (List UInt8) :=
  expand H (extract H salt ikm) info len

variable {H prk info}

-- A key as long as a tag takes one round.
theorem expand_block (hn : 0 < n) : expand H prk info n = some (H.mac prk (info ++ [1])) := by
  have rounds : (n + n - 1) / n = 1 := Nat.div_eq_of_lt_le (by omega) (by omega)
  have one : blocks H prk info 1 = H.mac prk (info ++ [1]) := by simp [blocks, block]
  rw [expand, if_pos (by omega), rounds, one, List.take_of_length_le (Nat.le_of_eq H.length_mac)]

end Hkdf
