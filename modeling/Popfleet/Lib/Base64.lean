import Mathlib.Data.List.Basic

-- The standard base64 encoding with padding, as Go's `StdEncoding`, JavaScript's `btoa` and Python's
-- `b64encode` write it, and their three decoders. All ignore the unused bits of the last digit.
namespace Base64

-- The digit for a number below 64.
def digit (n : Nat) : Char :=
  if n < 26 then .ofNat ('A'.toNat + n)
  else if n < 52 then .ofNat ('a'.toNat + (n - 26))
  else if n < 62 then .ofNat ('0'.toNat + (n - 52))
  else if n = 62 then '+'
  else '/'

def value (c : Char) : Option Nat :=
  if 'A' ≤ c ∧ c ≤ 'Z' then some (c.toNat - 'A'.toNat)
  else if 'a' ≤ c ∧ c ≤ 'z' then some (c.toNat - 'a'.toNat + 26)
  else if '0' ≤ c ∧ c ≤ '9' then some (c.toNat - '0'.toNat + 52)
  else if c = '+' then some 62
  else if c = '/' then some 63
  else none

def digits : List UInt8 → List Char
  | []              => []
  | [a]             => [digit (a.toNat / 4), digit (a.toNat % 4 * 16), '=', '=']
  | [a, b]          =>
    [digit (a.toNat / 4), digit (a.toNat % 4 * 16 + b.toNat / 16), digit (b.toNat % 16 * 4), '=']
  | a :: b :: c :: bs =>
    [digit (a.toNat / 4), digit (a.toNat % 4 * 16 + b.toNat / 16),
      digit (b.toNat % 16 * 4 + c.toNat / 64), digit (c.toNat % 64)] ++ digits bs

def encode (bs : List UInt8) : String :=
  String.ofList (digits bs)

-- The bytes of two, three or four digits.

def one (a b : Nat) : List UInt8 :=
  [.ofNat (a * 4 + b / 16)]

def two (a b c : Nat) : List UInt8 :=
  one a b ++ [.ofNat (b % 16 * 16 + c / 4)]

def three (a b c d : Nat) : List UInt8 :=
  two a b c ++ [.ofNat (c % 4 * 64 + d)]

def bytes : List Char → Option (List UInt8)
  | []                 => some []
  | [a, b, '=', '=']   => do return one (← value a) (← value b)
  | [a, b, c, '=']     => do return two (← value a) (← value b) (← value c)
  | a :: b :: c :: d :: cs => do
    return three (← value a) (← value b) (← value c) (← value d) ++ (← bytes cs)
  | _                  => none

-- `DecodeString`, which skips line breaks.
def decode (s : String) : Option (List UInt8) :=
  bytes (s.toList.filter (· ∉ ['\r', '\n']))

-- The padding that a text without any lacks.
def pad (cs : List Char) : List Char :=
  if '=' ∈ cs then cs else cs ++ List.replicate ((4 - cs.length % 4) % 4) '='

-- `atob`, which skips all white space and does without the padding.
def atob (s : String) : Option (List UInt8) :=
  bytes (pad (s.toList.filter (· ∉ [' ', '\t', '\n', '\x0c', '\r'])))

-- `a2b_base64`, which skips what is no digit and stops where the padding is complete. There are `pos`
-- digits of the current group so far, with the bits `left` of the last one that are still to be written.
def a2b (pos left pads : Nat) : List Char → Option (List UInt8)
  | []      => if pos = 0 then some [] else none
  | c :: cs =>
    if c = '=' then
      if pos < 2 then a2b pos left pads cs
      else if 4 ≤ pos + pads + 1 then some []
      else a2b pos left (pads + 1) cs
    else
      match value c, pos with
      | none, _   => a2b pos left pads cs
      | some v, 0 => a2b 1 v 0 cs
      | some v, 1 => (a2b 2 (v % 16) 0 cs).map (.ofNat (left * 4 + v / 16) :: ·)
      | some v, 2 => (a2b 3 (v % 4) 0 cs).map (.ofNat (left * 16 + v / 4) :: ·)
      | some v, _ => (a2b 0 0 0 cs).map (.ofNat (left * 64 + v) :: ·)

-- `b64decode` of a string, which has to be ASCII.
def b64decode (s : String) : Option (List UInt8) :=
  if s.toList.all fun c => c.toNat < 128 then a2b 0 0 0 s.toList else none

variable {n : Nat} {bs : List UInt8}

theorem value_digit (h : n < 64) : value (digit n) = some n := by
  have all : ∀ k : Fin 64, value (digit k) = some k.val := by decide
  exact all ⟨n, h⟩

theorem digit_ne (h : n < 64) : digit n ≠ '=' ∧ digit n ≠ '\r' ∧ digit n ≠ '\n' := by
  have all : ∀ k : Fin 64, digit k ≠ '=' ∧ digit k ≠ '\r' ∧ digit k ≠ '\n' := by decide
  exact all ⟨n, h⟩

theorem bytes_cons {a b c d : Char} {cs : List Char} (hd : d ≠ '=') :
    bytes (a :: b :: c :: d :: cs) = (do
      return three (← value a) (← value b) (← value c) (← value d) ++ (← bytes cs)) := by
  rw [bytes] <;> simp [hd]

-- The bytes that the digits are made from.

variable {a b c : UInt8} {m : Nat}

theorem one_eq (h : m < 16) : one (a.toNat / 4) (a.toNat % 4 * 16 + m) = [a] := by
  have : a.toNat / 4 * 4 + (a.toNat % 4 * 16 + m) / 16 = a.toNat := by omega
  rw [one, this, UInt8.ofNat_toNat]

theorem two_eq (h : m < 4) :
    two (a.toNat / 4) (a.toNat % 4 * 16 + b.toNat / 16) (b.toNat % 16 * 4 + m) = [a, b] := by
  have := b.toNat_lt
  have hb : (a.toNat % 4 * 16 + b.toNat / 16) % 16 * 16 + (b.toNat % 16 * 4 + m) / 4 = b.toNat := by
    omega
  rw [two, one_eq (by omega), hb, UInt8.ofNat_toNat]
  rfl

theorem three_eq :
    three (a.toNat / 4) (a.toNat % 4 * 16 + b.toNat / 16) (b.toNat % 16 * 4 + c.toNat / 64)
      (c.toNat % 64) = [a, b, c] := by
  have := c.toNat_lt
  have hc : (b.toNat % 16 * 4 + c.toNat / 64) % 4 * 64 + c.toNat % 64 = c.toNat := by omega
  rw [three, two_eq (by omega), hc, UInt8.ofNat_toNat]
  rfl

theorem bytes_digits : bytes (digits bs) = some bs := by
  fun_induction digits bs
  case case1 => rfl
  case case2 a =>
    have := a.toNat_lt
    simp only [bytes, value_digit (n := a.toNat / 4) (by omega),
      value_digit (n := a.toNat % 4 * 16) (by omega)]
    exact congrArg some (one_eq (m := 0) (by omega))
  case case3 a b =>
    have := a.toNat_lt
    have := b.toNat_lt
    have ⟨hd, _⟩ := digit_ne (n := b.toNat % 16 * 4) (by omega)
    rw [bytes]
    · simp only [value_digit (n := a.toNat / 4) (by omega),
        value_digit (n := a.toNat % 4 * 16 + b.toNat / 16) (by omega),
        value_digit (n := b.toNat % 16 * 4) (by omega)]
      exact congrArg some (two_eq (m := 0) (by omega))
    · simp [hd]
  case case4 a b c bs hi =>
    have := a.toNat_lt
    have := b.toNat_lt
    have := c.toNat_lt
    have ⟨hd, _⟩ := digit_ne (n := c.toNat % 64) (by omega)
    simp only [List.cons_append, List.nil_append, bytes_cons hd, hi,
      value_digit (n := a.toNat / 4) (by omega),
      value_digit (n := a.toNat % 4 * 16 + b.toNat / 16) (by omega),
      value_digit (n := b.toNat % 16 * 4 + c.toNat / 64) (by omega),
      value_digit (n := c.toNat % 64) (by omega)]
    exact congrArg (some <| · ++ bs) three_eq

theorem mem_digits {d : Char} (h : d ∈ digits bs) : d = '=' ∨ ∃ n < 64, d = digit n := by
  fun_induction digits bs
  case case1 => contradiction
  case case2 a =>
    have := a.toNat_lt
    simp only [List.mem_cons, List.not_mem_nil, or_false] at h
    rcases h with rfl | rfl | rfl | rfl
    case inl => exact .inr ⟨_, by omega, rfl⟩
    case inr.inl => exact .inr ⟨_, by omega, rfl⟩
    all_goals exact .inl rfl
  case case3 a b =>
    have := a.toNat_lt
    have := b.toNat_lt
    simp only [List.mem_cons, List.not_mem_nil, or_false] at h
    rcases h with rfl | rfl | rfl | rfl
    case inr.inr.inr => exact .inl rfl
    all_goals exact .inr ⟨_, by omega, rfl⟩
  case case4 a b c bs hi =>
    have := a.toNat_lt
    have := b.toNat_lt
    have := c.toNat_lt
    simp only [List.cons_append, List.nil_append, List.mem_cons] at h
    rcases h with rfl | rfl | rfl | rfl | h
    case inr.inr.inr.inr => exact hi h
    all_goals exact .inr ⟨_, by omega, rfl⟩

theorem kept_digits {skip : List Char} (h : ∀ n < 64, digit n ∉ skip) (he : '=' ∉ skip) :
    (digits bs).filter (· ∉ skip) = digits bs :=
  List.filter_eq_self.mpr fun d hd => by
    cases mem_digits hd
    case inl hd => simpa [hd] using he
    case inr hd =>
      obtain ⟨n, hn, rfl⟩ := hd
      simpa using h n hn

theorem decode_encode : decode (encode bs) = some bs := by
  have kept : (digits bs).filter (· ∉ ['\r', '\n']) = digits bs :=
    kept_digits (fun n hn => by simp [digit_ne hn]) (by decide)
  rw [decode, encode, String.toList_ofList, kept, bytes_digits]

theorem length_digits : (digits bs).length % 4 = 0 := by
  fun_induction digits bs
  all_goals simp_all [Nat.add_mod]

theorem atob_encode : atob (encode bs) = some bs := by
  have kept : (digits bs).filter (· ∉ [' ', '\t', '\n', '\x0c', '\r']) = digits bs := by
    refine kept_digits (fun n hn => ?_) (by decide)
    have all : ∀ k : Fin 64, digit k ∉ [' ', '\t', '\n', '\x0c', '\r'] := by decide
    exact all ⟨n, hn⟩
  have padded : pad (digits bs) = digits bs := by
    unfold pad
    split
    case isTrue  => rfl
    case isFalse => simp [length_digits]
  rw [atob, encode, String.toList_ofList, kept, padded, bytes_digits]

theorem a2b_digit {pos left pads : Nat} {cs : List Char} (h : n < 64) :
    a2b pos left pads (digit n :: cs) =
      match pos with
      | 0 => a2b 1 n 0 cs
      | 1 => (a2b 2 (n % 16) 0 cs).map (.ofNat (left * 4 + n / 16) :: ·)
      | 2 => (a2b 3 (n % 4) 0 cs).map (.ofNat (left * 16 + n / 4) :: ·)
      | _ => (a2b 0 0 0 cs).map (.ofNat (left * 64 + n) :: ·) := by
  have ⟨hd, _⟩ := digit_ne h
  rcases pos with _ | _ | _ | _ <;> simp [a2b, hd, value_digit h]

theorem a2b_digits {pads : Nat} : a2b 0 0 pads (digits bs) = some bs := by
  fun_induction digits bs generalizing pads
  case case1 => rfl
  case case2 a =>
    have := a.toNat_lt
    rw [a2b_digit (by omega), a2b_digit (by omega)]
    exact congrArg some (one_eq (m := 0) (by omega))
  case case3 a b =>
    have := a.toNat_lt
    have := b.toNat_lt
    simp only [a2b_digit (n := a.toNat / 4) (by omega),
      a2b_digit (n := a.toNat % 4 * 16 + b.toNat / 16) (by omega),
      a2b_digit (n := b.toNat % 16 * 4) (by omega)]
    exact congrArg some (two_eq (m := 0) (by omega))
  case case4 a b c bs hi =>
    have := a.toNat_lt
    have := b.toNat_lt
    have := c.toNat_lt
    simp only [List.cons_append, List.nil_append, a2b_digit (n := a.toNat / 4) (by omega),
      a2b_digit (n := a.toNat % 4 * 16 + b.toNat / 16) (by omega),
      a2b_digit (n := b.toNat % 16 * 4 + c.toNat / 64) (by omega),
      a2b_digit (n := c.toNat % 64) (by omega), hi]
    exact congrArg (some <| · ++ bs) three_eq

theorem digit_ascii (h : n < 64) : (digit n).toNat < 128 := by
  have all : ∀ k : Fin 64, (digit k).toNat < 128 := by decide
  exact all ⟨n, h⟩

theorem b64decode_encode : b64decode (encode bs) = some bs := by
  have ascii : (encode bs).toList.all fun c => c.toNat < 128 := by
    rw [encode, String.toList_ofList]
    refine List.all_eq_true.mpr fun c hc => decide_eq_true ?_
    cases mem_digits hc
    case inl hc =>
      subst hc
      decide
    case inr hc =>
      obtain ⟨n, hn, rfl⟩ := hc
      exact digit_ascii hn
  rw [b64decode, if_pos ascii, encode, String.toList_ofList, a2b_digits]

-- A text is longer than what it decodes to.

theorem length_bytes {cs : List Char} (h : bytes cs = some bs) : 4 * bs.length ≤ 3 * cs.length := by
  fun_induction bytes cs generalizing bs
  case case1 => cases h; simp
  case case5 => contradiction
  all_goals
    simp only [Option.pure_def, Option.bind_eq_bind, Option.bind_eq_some_iff, Option.some.injEq] at h
  case case2 =>
    obtain ⟨_, _, _, _, rfl⟩ := h
    simp [one]
  case case3 =>
    obtain ⟨_, _, _, _, _, _, rfl⟩ := h
    simp [one, two]
  case case4 hi =>
    obtain ⟨_, _, _, _, _, _, _, _, bs', h, rfl⟩ := h
    have := hi h
    simp only [three, two, one, List.length_append, List.length_cons, List.length_nil]
    omega

theorem length_decode {s : String} (h : decode s = some bs) : bs.length ≤ s.length := by
  have := length_bytes h
  have := List.length_filter_le (· ∉ ['\r', '\n']) s.toList
  rw [String.length_toList] at this
  omega

theorem length_atob {s : String} (h : atob s = some bs) : 4 * bs.length ≤ 3 * (s.length + 3) := by
  have := length_bytes h
  have := List.length_filter_le (· ∉ [' ', '\t', '\n', '\x0c', '\r']) s.toList
  rw [String.length_toList] at this
  have padded (cs : List Char) : (pad cs).length ≤ cs.length + 3 := by
    unfold pad
    split
    case isTrue  => omega
    case isFalse => rw [List.length_append, List.length_replicate]; omega
  have := padded (s.toList.filter (· ∉ [' ', '\t', '\n', '\x0c', '\r']))
  omega

theorem length_a2b {pos left pads : Nat} {cs : List Char} (h : a2b pos left pads cs = some bs) :
    bs.length ≤ cs.length := by
  fun_induction a2b pos left pads cs generalizing bs
  case case1 | case4 => cases h; simp
  case case2 => contradiction
  case case3 hi | case5 hi | case6 hi | case7 hi => exact Nat.le_succ_of_le (hi h)
  case case8 hi | case9 hi | case10 hi =>
    obtain ⟨_, decoded, rfl⟩ := Option.map_eq_some_iff.mp h
    exact Nat.succ_le_succ (hi decoded)

theorem length_b64decode {s : String} (h : b64decode s = some bs) : bs.length ≤ s.length := by
  have ⟨_, h⟩ := Option.ite_none_right_eq_some.mp h
  rw [← String.length_toList]
  exact length_a2b h

-- What has bytes consists of whole groups of digits and padding.
theorem of_bytes {cs : List Char} (h : bytes cs = some bs) :
    cs.length % 4 = 0 ∧ ∀ c ∈ cs, c = '=' ∨ (value c).isSome := by
  fun_induction bytes cs generalizing bs
  case case1 => simp
  case case5 => contradiction
  all_goals
    simp only [Option.pure_def, Option.bind_eq_bind, Option.bind_eq_some_iff, Option.some.injEq] at h
  case case2 =>
    obtain ⟨_, ha, _, hb, rfl⟩ := h
    simp [ha, hb]
  case case3 =>
    obtain ⟨_, ha, _, hb, _, hc, rfl⟩ := h
    simp [ha, hb, hc]
  case case4 hi =>
    obtain ⟨_, ha, _, hb, _, hc, _, hd, _, h, rfl⟩ := h
    have ⟨length, chars⟩ := hi h
    refine ⟨by simp only [List.length_cons]; omega, ?_⟩
    simpa [ha, hb, hc, hd] using chars

-- A page reads what a Go program reads, and more besides.
theorem atob_of_decode {s : String} (h : decode s = some bs) : atob s = some bs := by
  have ⟨length, chars⟩ := of_bytes h
  have kept : s.toList.filter (· ∉ [' ', '\t', '\n', '\x0c', '\r']) =
      s.toList.filter (· ∉ ['\r', '\n']) := by
    refine List.filter_congr fun c hc => ?_
    by_cases hn : c ∈ ['\r', '\n']
    case pos => rcases List.mem_cons.mp hn with rfl | hn <;> simp_all
    case neg =>
      have digit := chars c (List.mem_filter.mpr ⟨hc, by simpa using hn⟩)
      have blank : ∀ b ∈ [' ', '\t', '\x0c'], ¬(b = '=' ∨ (value b).isSome) := by simp [value]
      have ne : c ∉ [' ', '\t', '\x0c'] := fun hb => blank c hb digit
      simp only [List.mem_cons, List.not_mem_nil, or_false, not_or] at ne hn
      simp [ne, hn]
  have padded : pad (s.toList.filter (· ∉ ['\r', '\n'])) = s.toList.filter (· ∉ ['\r', '\n']) := by
    unfold pad
    split
    case isTrue  => rfl
    case isFalse => rw [length]; simp
  rw [atob, kept, padded]
  exact h

end Base64
