import Mathlib.Data.List.TakeWhile

namespace JsonText

-- A JSON value. A number is its text, and an object has its members in their order, also where two have
-- the same name.
inductive Value
  | null
  | bool (b : Bool)
  | num (text : List Char)
  | str (s : List Char)
  | arr (l : List Value)
  | obj (members : List (List Char × Value))

mutual

-- How deep the arrays and the objects of a value are nested.
def Value.depth : Value → Nat
  | .arr l       => Value.listDepth l + 1
  | .obj members => Value.membersDepth members + 1
  | _            => 0

def Value.listDepth : List Value → Nat
  | []     => 0
  | v :: l => max v.depth (Value.listDepth l)

def Value.membersDepth : List (List Char × Value) → Nat
  | []          => 0
  | (_, v) :: l => max v.depth (Value.membersDepth l)

end

def quote : Char := '\x22'

def backslash : Char := '\x5c'

-- The characters that are escaped by a letter.
def letters : List (Char × Char) :=
  [(quote, quote), (backslash, backslash), ('/', '/'), ('\x08', 'b'), ('\x0c', 'f'), ('\n', 'n'),
    ('\r', 'r'), ('\t', 't')]

section Print

-- The characters that are escaped by a code unit, although they need not be.
variable (coded : Char → Bool)

def codeUnit (n : Nat) : List Char :=
  [(n / 4096 % 16).digitChar, (n / 256 % 16).digitChar, (n / 16 % 16).digitChar, (n % 16).digitChar]

def escape (c : Char) : List Char :=
  match (letters.lookup c).filter fun _ => c ≠ '/' with
  | some e => [backslash, e]
  | none   =>
    if c.toNat < 32 ∨ coded c ∧ c.toNat < 65536 then backslash :: 'u' :: codeUnit c.toNat else [c]

def printString (s : List Char) : List Char :=
  quote :: s.flatMap (escape coded) ++ [quote]

mutual

def print : Value → List Char
  | .null        => ['n', 'u', 'l', 'l']
  | .bool true   => ['t', 'r', 'u', 'e']
  | .bool false  => ['f', 'a', 'l', 's', 'e']
  | .num text    => text
  | .str s       => printString coded s
  | .arr l       => '[' :: printElements l
  | .obj members => '\x7b' :: printMembers members

def printElements : List Value → List Char
  | []     => [']']
  | [v]    => print v ++ [']']
  | v :: l => print v ++ ',' :: printElements l

def printMembers : List (List Char × Value) → List Char
  | []          => ['\x7d']
  | [(k, v)]    => printString coded k ++ ':' :: print v ++ ['\x7d']
  | (k, v) :: l => printString coded k ++ ':' :: print v ++ ',' :: printMembers l

end

end Print

section Strings

-- A character of a string, or one half of a surrogate pair that was escaped.
inductive Item
  | char (c : Char)
  | half (n : Nat)

def hexDigit (c : Char) : Option Nat :=
  if '0' ≤ c ∧ c ≤ '9' then some (c.toNat - '0'.toNat)
  else if 'a' ≤ c ∧ c ≤ 'f' then some (10 + c.toNat - 'a'.toNat)
  else if 'A' ≤ c ∧ c ≤ 'F' then some (10 + c.toNat - 'A'.toNat)
  else none

def readUnit (a b c d : Char) : Option Nat := do
  return (((← hexDigit a) * 16 + (← hexDigit b)) * 16 + (← hexDigit c)) * 16 + (← hexDigit d)

def item (n : Nat) : Item :=
  if 0xd800 ≤ n ∧ n < 0xe000 then .half n else .char (Char.ofNat n)

-- The character that a letter escapes.
def unescape (e : Char) : Option Char :=
  (letters.find? (·.2 = e)).map (·.1)

-- A string from behind its opening quote, and what is behind it.
def items : List Char → Option (List Item × List Char)
  | []      => none
  | c :: cs =>
    if c = quote then some ([], cs)
    else if c = backslash then
      match cs with
      | []      => none
      | e :: cs =>
        if e = 'u' then
          match cs with
          | a :: b :: c :: d :: cs => do
            let n ← readUnit a b c d
            let (s, cs) ← items cs
            return (item n :: s, cs)
          | _ => none
        else do
          let c ← unescape e
          let (s, cs) ← items cs
          return (.char c :: s, cs)
    else if c.toNat < 32 then none
    else do
      let (s, cs) ← items cs
      return (.char c :: s, cs)

-- The pairs are put together. A half without the other one is replaced.
def pairs : List Item → List Char
  | []                       => []
  | .char c :: s             => c :: pairs s
  | .half hi :: .half lo :: s =>
    if hi < 0xdc00 ∧ 0xdc00 ≤ lo then
      Char.ofNat (0x10000 + (hi - 0xd800) * 1024 + (lo - 0xdc00)) :: pairs s
    else
      '\ufffd' :: pairs (.half lo :: s)
  | .half _ :: s => '\ufffd' :: pairs s

def readString (cs : List Char) : Option (List Char × List Char) :=
  (items cs).map fun (s, cs) => (pairs s, cs)

end Strings

section Numbers

def readDigits (cs : List Char) : Option (List Char × List Char) :=
  if cs.takeWhile Char.isDigit = [] then none
  else some (cs.takeWhile Char.isDigit, cs.dropWhile Char.isDigit)

-- The sign that a number or its exponent may have.
def readSign (signs : List Char) : List Char → List Char × List Char
  | []      => ([], [])
  | c :: cs => if c ∈ signs then ([c], cs) else ([], c :: cs)

def readWhole : List Char → Option (List Char × List Char)
  | []      => none
  | c :: cs => if c = '0' then some (['0'], cs) else readDigits (c :: cs)

def readFraction : List Char → Option (List Char × List Char)
  | []      => some ([], [])
  | c :: cs =>
    if c = '.' then (readDigits cs).map fun (d, cs) => (c :: d, cs)
    else some ([], c :: cs)

def readExponent : List Char → Option (List Char × List Char)
  | []      => some ([], [])
  | c :: cs =>
    if c = 'e' ∨ c = 'E' then
      let (s, cs) := readSign ['+', '-'] cs
      (readDigits cs).map fun (d, cs) => (c :: s ++ d, cs)
    else some ([], c :: cs)

def readNumber (cs : List Char) : Option (List Char × List Char) := do
  let (s, cs) := readSign ['-'] cs
  let (w, cs) ← readWhole cs
  let (f, cs) ← readFraction cs
  let (e, cs) ← readExponent cs
  return (s ++ w ++ f ++ e, cs)

end Numbers

section Read

def space (c : Char) : Bool :=
  c = ' ' ∨ c = '\t' ∨ c = '\n' ∨ c = '\r'

def skip (cs : List Char) : List Char :=
  cs.dropWhile space

def expect (word : List Char) (cs : List Char) : Option (List Char) :=
  if word.isPrefixOf cs then some (cs.drop word.length) else none

mutual

-- A value, and what is behind it. The fuel bounds the length of the text.
def value : Nat → List Char → Option (Value × List Char)
  | 0, _      => none
  | n + 1, cs =>
    match skip cs with
    | []      => none
    | c :: cs =>
      if c = quote then (readString cs).map fun (s, cs) => (.str s, cs)
      else if c = '[' then
        if (skip cs).head? = some ']' then some (.arr [], (skip cs).tail)
        else (elements n cs).map fun (l, cs) => (.arr l, cs)
      else if c = '\x7b' then
        if (skip cs).head? = some '\x7d' then some (.obj [], (skip cs).tail)
        else (members n cs).map fun (l, cs) => (.obj l, cs)
      else if c = 'n' then (expect ['u', 'l', 'l'] cs).map (.null, ·)
      else if c = 't' then (expect ['r', 'u', 'e'] cs).map (.bool true, ·)
      else if c = 'f' then (expect ['a', 'l', 's', 'e'] cs).map (.bool false, ·)
      else (readNumber (c :: cs)).map fun (text, cs) => (.num text, cs)

def elements : Nat → List Char → Option (List Value × List Char)
  | 0, _      => none
  | n + 1, cs => do
    let (v, cs) ← value n cs
    match skip cs with
    | []      => none
    | c :: cs =>
      if c = ',' then (elements n cs).map fun (l, cs) => (v :: l, cs)
      else if c = ']' then some ([v], cs)
      else none

def members : Nat → List Char → Option (List (List Char × Value) × List Char)
  | 0, _      => none
  | n + 1, cs => do
    let cs ← expect [quote] (skip cs)
    let (k, cs) ← readString cs
    let cs ← expect [':'] (skip cs)
    let (v, cs) ← value n cs
    match skip cs with
    | []      => none
    | c :: cs =>
      if c = ',' then (members n cs).map fun (l, cs) => ((k, v) :: l, cs)
      else if c = '\x7d' then some ([(k, v)], cs)
      else none

end

-- The first value of a text, and what is behind it.
def read (cs : List Char) : Option (Value × List Char) :=
  value (cs.length + 1) cs

end Read

variable {coded : Char → Bool} {c e : Char} {cs rest text d r : List Char} {n : Nat} {s k : List Char}

-- Reading a string that was printed.

theorem hexDigit_digitChar : ∀ n < 16, hexDigit n.digitChar = some n := by
  decide

theorem readUnit_codeUnit (hn : n < 65536) :
    readUnit (n / 4096 % 16).digitChar (n / 256 % 16).digitChar (n / 16 % 16).digitChar
      (n % 16).digitChar = some n := by
  have digit (m : Nat) : hexDigit (m % 16).digitChar = some (m % 16) :=
    hexDigit_digitChar _ (Nat.mod_lt m (by decide))
  simp only [readUnit, digit, Option.pure_def, Option.bind_eq_bind, Option.bind_some]
  congr 1
  omega

theorem item_toNat (c : Char) : item c.toNat = .char c := by
  have valid : c.toNat < 0xd800 ∨ 0xdfff < c.toNat ∧ c.toNat < 0x110000 := c.valid
  rw [item, if_neg (by omega), Char.ofNat_toNat]

theorem unescape_of_lookup (h : letters.lookup c = some e) : unescape e = some c ∧ e ≠ 'u' := by
  have all : ∀ p ∈ letters, unescape p.2 = some p.1 ∧ p.2 ≠ 'u' := by decide
  have ⟨_, _, split, _⟩ := List.lookup_eq_some_iff.mp h
  exact all (c, e) (by simp [split])

-- One character of a string at a time.

theorem items_quote : items (quote :: cs) = some ([], cs) := by
  rw [items.eq_def]
  exact if_pos rfl

theorem items_letter (h : unescape e = some c) (hu : e ≠ 'u') :
    items (backslash :: e :: cs) = (items cs).map fun (s, cs) => (.char c :: s, cs) := by
  have escaped : backslash ≠ quote := by decide
  rw [items.eq_def]
  simp only [if_neg escaped, if_neg hu, if_pos, h]
  cases items cs <;> rfl

theorem items_unit {a b c d : Char} (h : readUnit a b c d = some n) :
    items (backslash :: 'u' :: a :: b :: c :: d :: cs) =
      (items cs).map fun (s, cs) => (item n :: s, cs) := by
  have escaped : backslash ≠ quote := by decide
  rw [items.eq_def]
  simp only [if_neg escaped, if_pos, h]
  cases items cs <;> rfl

theorem items_plain (hq : c ≠ quote) (hb : c ≠ backslash) (hc : ¬c.toNat < 32) :
    items (c :: cs) = (items cs).map fun (s, cs) => (.char c :: s, cs) := by
  rw [items.eq_def]
  simp only [if_neg hq, if_neg hb, if_neg hc]
  cases items cs <;> rfl

theorem items_escape :
    items (escape coded c ++ cs) = (items cs).map fun (s, cs) => (.char c :: s, cs) := by
  unfold escape
  split
  case h_1 e h =>
    obtain ⟨letter, _⟩ := Option.filter_eq_some_iff.mp h
    obtain ⟨named, unit⟩ := unescape_of_lookup letter
    exact items_letter named unit
  case h_2 h =>
    have plain : c ≠ quote ∧ c ≠ backslash := by
      constructor <;> rintro rfl <;> exact absurd h (by decide)
    split
    case isTrue code =>
      have small : c.toNat < 65536 := by
        obtain control | ⟨_, small⟩ := code
        case inl => omega
        case inr => exact small
      exact item_toNat c ▸ items_unit (readUnit_codeUnit small)
    case isFalse code => exact items_plain plain.left plain.right fun control => code (.inl control)

theorem items_string : items (s.flatMap (escape coded) ++ quote :: cs) = some (s.map .char, cs) := by
  induction s
  case nil     => exact items_quote
  case cons hi => rw [List.flatMap_cons, List.append_assoc, items_escape, hi]; rfl

theorem pairs_map_char : pairs (s.map .char) = s := by
  induction s
  case nil     => rfl
  case cons hi => exact congrArg _ hi

theorem readString_print : readString (s.flatMap (escape coded) ++ quote :: cs) = some (s, cs) := by
  simp only [readString, items_string, Option.map_some, pairs_map_char]

-- Reading a number that is followed by something else.

-- The text does not go on with a number.
def Closed (rest : List Char) : Prop :=
  ∀ c ∈ rest.head?, ¬(c.isDigit ∨ c = '.' ∨ c = 'e' ∨ c = 'E')

def IsNumber (text : List Char) : Prop :=
  readNumber text = some (text, [])

theorem Closed.nil : Closed [] := by
  simp [Closed]

theorem Closed.cons (h : ¬(c.isDigit ∨ c = '.' ∨ c = 'e' ∨ c = 'E')) : Closed (c :: cs) := by
  simpa [Closed] using h

theorem span_append (cs : List Char) (hr : Closed rest) :
    (cs ++ rest).takeWhile Char.isDigit = cs.takeWhile Char.isDigit ∧
      (cs ++ rest).dropWhile Char.isDigit = cs.dropWhile Char.isDigit ++ rest := by
  induction cs
  case nil =>
    cases rest
    case nil => exact ⟨rfl, rfl⟩
    case cons c cs =>
      have other : ¬c.isDigit := fun digit => hr c rfl (.inl digit)
      simp [other]
  case cons c cs hi =>
    by_cases digit : c.isDigit
    case pos => simp [digit, hi]
    case neg => simp [digit]

theorem readDigits_append (h : readDigits cs = some (d, r)) (hr : Closed rest) :
    readDigits (cs ++ rest) = some (d, r ++ rest) := by
  obtain ⟨take, drop⟩ := span_append cs hr
  unfold readDigits at *
  rw [take, drop]
  split at h <;> cases h
  case isFalse digits => exact if_neg digits

theorem readSign_append {signs : List Char} (hc : (readSign signs cs).2 ≠ []) :
    readSign signs (cs ++ rest) = ((readSign signs cs).1, (readSign signs cs).2 ++ rest) := by
  cases cs
  case nil => exact absurd rfl hc
  case cons c cs =>
    simp only [List.cons_append, readSign]
    split <;> rfl

theorem ne_nil_of_readDigits (h : readDigits cs = some (d, r)) : cs ≠ [] := by
  rintro rfl
  contradiction

theorem readWhole_append (h : readWhole cs = some (d, r)) (hr : Closed rest) :
    readWhole (cs ++ rest) = some (d, r ++ rest) := by
  cases cs
  case nil => contradiction
  case cons c cs =>
    simp only [readWhole, List.cons_append] at *
    split at h
    case isTrue zero     => cases h; exact if_pos zero
    case isFalse nonzero => exact (if_neg nonzero).trans (readDigits_append h hr)

theorem readFraction_append (h : readFraction cs = some (d, r)) (hr : Closed rest) :
    readFraction (cs ++ rest) = some (d, r ++ rest) := by
  cases cs
  case nil =>
    cases h
    cases rest
    case nil      => rfl
    case cons c _ => exact if_neg fun point => hr c rfl (.inr (.inl point))
  case cons c cs =>
    simp only [readFraction, List.cons_append] at *
    split at h
    case isFalse other => cases h; exact if_neg other
    case isTrue point =>
      obtain ⟨⟨_, _⟩, digits, same⟩ := Option.map_eq_some_iff.mp h
      cases same
      rw [if_pos point, readDigits_append digits hr]
      rfl

theorem readExponent_append (h : readExponent cs = some (d, r)) (hr : Closed rest) :
    readExponent (cs ++ rest) = some (d, r ++ rest) := by
  cases cs
  case nil =>
    cases h
    cases rest
    case nil      => rfl
    case cons c _ => exact if_neg fun exponent => hr c rfl (.inr (.inr exponent))
  case cons c cs =>
    simp only [readExponent, List.cons_append] at *
    split at h
    case isFalse other => cases h; exact if_neg other
    case isTrue exponent =>
      obtain ⟨⟨_, _⟩, digits, same⟩ := Option.map_eq_some_iff.mp h
      cases same
      rw [if_pos exponent, readSign_append (ne_nil_of_readDigits digits), readDigits_append digits hr]
      rfl

theorem readNumber_append (h : readNumber cs = some (d, r)) (hr : Closed rest) :
    readNumber (cs ++ rest) = some (d, r ++ rest) := by
  simp only [readNumber, Option.bind_eq_bind, Option.bind_eq_some_iff] at h
  obtain ⟨⟨w, cs₁⟩, whole, ⟨f, cs₂⟩, fraction, ⟨e, cs₃⟩, exponent, same⟩ := h
  cases same
  have signed : (readSign ['-'] cs).2 ≠ [] := by
    intro nil
    rw [nil] at whole
    contradiction
  simp only [readNumber, readSign_append signed, readWhole_append whole hr,
    readFraction_append fraction hr, readExponent_append exponent hr, Option.bind_eq_bind,
    Option.bind_some]
  rfl

-- An integer is a number, with its digits and with a sign before them.

theorem toDigits_head (hn : 0 < n) : ∃ c cs, Nat.toDigits 10 n = c :: cs ∧ c ≠ '0' := by
  induction n using Nat.strongRecOn
  case ind n hi =>
    by_cases small : n < 10
    case pos =>
      have all : ∀ n < 10, 0 < n → n.digitChar ≠ '0' := by decide
      exact ⟨_, _, Nat.toDigits_of_lt_base small, all n small hn⟩
    case neg =>
      obtain ⟨c, cs, digits, other⟩ := hi (n / 10) (by omega) (by omega)
      rw [Nat.toDigits_of_base_le (by decide) (by omega), digits]
      exact ⟨c, _, rfl, other⟩

theorem readWhole_toDigits : readWhole (Nat.toDigits 10 n) = some (Nat.toDigits 10 n, []) := by
  by_cases zero : n = 0
  case pos => subst zero; rfl
  case neg =>
    have digits : ∀ c ∈ Nat.toDigits 10 n, c.isDigit :=
      fun _ hc => Nat.isDigit_of_mem_toDigits (by decide) (by decide) hc
    obtain ⟨c, cs, printed, other⟩ := toDigits_head (Nat.pos_of_ne_zero zero)
    rw [printed] at digits ⊢
    rw [readWhole, if_neg other, readDigits, List.takeWhile_eq_self_iff.mpr digits,
      List.dropWhile_eq_nil_iff.mpr digits]
    rfl

theorem isNumber_toDigits : IsNumber (Nat.toDigits 10 n) := by
  have unsigned : readSign ['-'] (Nat.toDigits 10 n) = ([], Nat.toDigits 10 n) := by
    cases printed : Nat.toDigits 10 n
    case nil => rfl
    case cons c cs =>
      have first : c ∈ Nat.toDigits 10 n := by simp [printed]
      have digit : c.isDigit := Nat.isDigit_of_mem_toDigits (by decide) (by decide) first
      refine if_neg fun sign => ?_
      rw [List.mem_singleton.mp sign] at digit
      contradiction
  simp only [IsNumber, readNumber, unsigned, readWhole_toDigits, Option.bind_eq_bind, Option.bind_some]
  simp [readFraction, readExponent]

theorem isNumber_neg_toDigits : IsNumber ('-' :: Nat.toDigits 10 n) := by
  have signed : readSign ['-'] ('-' :: Nat.toDigits 10 n) = (['-'], Nat.toDigits 10 n) := rfl
  simp only [IsNumber, readNumber, signed, readWhole_toDigits, Option.bind_eq_bind, Option.bind_some]
  simp [readFraction, readExponent]

-- Reading a value that was printed.

mutual

def Value.WellFormed : Value → Prop
  | .num text    => IsNumber text
  | .arr l       => AllWellFormed l
  | .obj members => MembersWellFormed members
  | _            => True

def Value.AllWellFormed : List Value → Prop
  | []     => True
  | v :: l => v.WellFormed ∧ AllWellFormed l

def Value.MembersWellFormed : List (List Char × Value) → Prop
  | []          => True
  | (_, v) :: l => v.WellFormed ∧ MembersWellFormed l

end

theorem Value.membersWellFormed_iff {l : List (List Char × Value)} :
    MembersWellFormed l ↔ ∀ kv ∈ l, kv.2.WellFormed := by
  induction l
  case nil     => simp [MembersWellFormed]
  case cons hi => simp [MembersWellFormed, hi]

theorem Value.membersDepth_eq_zero {l : List (List Char × Value)} (h : ∀ kv ∈ l, kv.2.depth = 0) :
    membersDepth l = 0 := by
  induction l
  case nil => rfl
  case cons hi =>
    have ⟨first, others⟩ := List.forall_mem_cons.mp h
    simp [membersDepth, first, hi others]

-- The characters that a value starts with, unless it is a number, the end of a list, and the spaces.
def notDigits : List Char :=
  [quote, '[', '{', 'n', 't', 'f', ']', ' ', '\t', '\n', '\r']

theorem IsNumber.head (h : IsNumber text) : ∃ c cs, text = c :: cs ∧ c ∉ notDigits := by
  cases text
  case nil => contradiction
  case cons c cs =>
    refine ⟨c, cs, rfl, fun other => ?_⟩
    have all : ∀ c ∈ notDigits, c ≠ '-' ∧ c ≠ '0' ∧ ¬c.isDigit := by simp [notDigits, quote]
    have ⟨unsigned, nonzero, digit⟩ := all c other
    simp only [IsNumber, readNumber, readSign, List.mem_singleton, if_neg unsigned, readWhole,
      if_neg nonzero, readDigits, List.takeWhile_cons_of_neg digit, if_pos, Option.bind_eq_bind,
      Option.bind_none] at h
    cases h

-- A value does not start with a space or the end of a list.
theorem print_head (coded : Char → Bool) {v : Value} (hv : v.WellFormed) :
    ∃ c cs, print coded v = c :: cs ∧ space c = false ∧ c ≠ ']' := by
  have start {c : Char} (cs : List Char) (hc : space c = false ∧ c ≠ ']') :
      ∃ c' cs', c :: cs = c' :: cs' ∧ space c' = false ∧ c' ≠ ']' :=
    ⟨c, cs, rfl, hc⟩
  cases v
  case num text =>
    have number : IsNumber text := by simpa [Value.WellFormed] using hv
    obtain ⟨c, cs, rfl, other⟩ := number.head
    rw [print]
    refine start _ ?_
    simp only [notDigits, List.mem_cons, not_or] at other
    simp [space, other]
  case bool b => cases b <;> exact start _ (by decide)
  all_goals
    rw [print]
    exact start _ (by decide)

theorem skip_print {v : Value} (hv : v.WellFormed) :
    skip (print coded v ++ cs) = print coded v ++ cs := by
  obtain ⟨c, cs', printed, visible, _⟩ := print_head coded hv
  rw [printed]
  exact List.dropWhile_cons_of_neg (by simp [visible])

theorem skip_cons (hc : space c = false) : skip (c :: cs) = c :: cs :=
  List.dropWhile_cons_of_neg (by simp [hc])

theorem expect_append {word : List Char} : expect word (word ++ cs) = some cs := by
  have starts : word.isPrefixOf (word ++ cs) := List.isPrefixOf_iff_prefix.mpr (List.prefix_append ..)
  rw [expect, if_pos starts, List.drop_left]

theorem printElements_cons (coded : Char → Bool) (v : Value) (l : List Value) :
    ∃ cs, printElements coded (v :: l) = print coded v ++ cs := by
  cases l <;> simp only [printElements] <;> exact ⟨_, rfl⟩

theorem printMembers_cons (coded : Char → Bool) (k : List Char) (v : Value)
    (l : List (List Char × Value)) :
    ∃ cs, printMembers coded ((k, v) :: l) = quote :: cs := by
  cases l <;> simp only [printMembers, printString, List.cons_append] <;> exact ⟨_, rfl⟩

mutual

theorem value_print (v : Value) {n : Nat} {rest : List Char} (hv : v.WellFormed) (hr : Closed rest)
    (hn : (print coded v).length ≤ n) : value n (print coded v ++ rest) = some (v, rest) := by
  cases n
  case zero =>
    have ⟨_, _, printed, _⟩ := print_head coded hv
    simp [printed] at hn
  case succ n =>
    rw [value, skip_print hv]
    cases v
    case null => rfl
    case bool b => cases b <;> rfl
    case num text =>
      have number : IsNumber text := by simpa [Value.WellFormed] using hv
      have whole := readNumber_append number hr
      obtain ⟨c, cs, rfl, other⟩ := number.head
      simp only [notDigits, List.mem_cons, not_or] at other
      simp only [print, List.cons_append, other, if_false]
      rw [← List.cons_append, whole]
      rfl
    case str s =>
      simp only [print, printString, List.cons_append, List.append_assoc, List.nil_append, if_pos,
        readString_print]
      rfl
    case arr l =>
      have other : '[' ≠ quote := by decide
      simp only [print, List.cons_append, if_neg other, if_pos]
      cases l
      case nil =>
        have closed : skip (']' :: rest) = ']' :: rest := skip_cons (by decide)
        simp [printElements, closed]
      case cons w l =>
        have first : w.WellFormed := by
          simp only [Value.WellFormed, Value.AllWellFormed] at hv
          exact hv.left
        have more : (skip (printElements coded (w :: l) ++ rest)).head? ≠ some ']' := by
          obtain ⟨cs, printed⟩ := printElements_cons coded w l
          obtain ⟨c, _, head, _, other⟩ := print_head coded first
          rw [printed, List.append_assoc, skip_print first, head]
          simpa using other
        have length : (printElements coded (w :: l)).length ≤ n := by
          simpa [print] using hn
        rw [if_neg more, elements_print (w :: l) (by simp) (by simpa [Value.WellFormed] using hv) length]
        rfl
    case obj members =>
      have other : '\x7b' ≠ quote ∧ '\x7b' ≠ '[' := by decide
      simp only [print, List.cons_append, if_neg other.left, if_neg other.right, if_pos]
      cases members
      case nil =>
        have closed : skip ('\x7d' :: rest) = '\x7d' :: rest := skip_cons (by decide)
        simp [printMembers, closed]
      case cons w l =>
        have more : (skip (printMembers coded (w :: l) ++ rest)).head? ≠ some '\x7d' := by
          obtain ⟨cs, printed⟩ := printMembers_cons coded w.1 w.2 l
          rw [printed, List.cons_append, skip_cons (by decide)]
          simp [quote]
        have length : (printMembers coded (w :: l)).length ≤ n := by
          simpa [print] using hn
        rw [if_neg more, members_print (w :: l) (by simp) (by simpa [Value.WellFormed] using hv) length]
        rfl

theorem elements_print (l : List Value) {n : Nat} {rest : List Char} (hl : l ≠ [])
    (hv : Value.AllWellFormed l) (hn : (printElements coded l).length ≤ n) :
    elements n (printElements coded l ++ rest) = some (l, rest) := by
  cases l
  case nil => exact absurd rfl hl
  case cons v l =>
    cases n
    case zero => cases l <;> simp [printElements] at hn
    case succ n =>
      cases l
      case nil =>
        have first : value n (print coded v ++ ']' :: rest) = some (v, ']' :: rest) :=
          value_print v hv.left (.cons (by decide)) (by simpa [printElements] using hn)
        have closed : skip (']' :: rest) = ']' :: rest := skip_cons (by decide)
        simp [printElements, elements, first, closed]
      case cons w l =>
        have lengths : (print coded v).length ≤ n ∧ (printElements coded (w :: l)).length ≤ n := by
          simp only [printElements, List.length_append, List.length_cons] at hn
          omega
        have first : value n (print coded v ++ ',' :: (printElements coded (w :: l) ++ rest)) =
            some (v, ',' :: (printElements coded (w :: l) ++ rest)) :=
          value_print v hv.left (.cons (by decide)) lengths.left
        have others : elements n (printElements coded (w :: l) ++ rest) = some (w :: l, rest) :=
          elements_print (w :: l) (by simp) hv.right lengths.right
        have comma {cs} : skip (',' :: cs) = ',' :: cs := skip_cons (by decide)
        simp [printElements, elements, first, comma, others]

theorem members_print (l : List (List Char × Value)) {n : Nat} {rest : List Char} (hl : l ≠ [])
    (hv : Value.MembersWellFormed l) (hn : (printMembers coded l).length ≤ n) :
    members n (printMembers coded l ++ rest) = some (l, rest) := by
  cases l
  case nil => exact absurd rfl hl
  case cons kv l =>
    obtain ⟨k, v⟩ := kv
    -- The name, and the colon behind it.
    have quoted {cs} : expect [quote] (skip (quote :: cs)) = some cs := by
      rw [skip_cons (by decide)]
      exact expect_append
    have colon {cs} : expect [':'] (skip (':' :: cs)) = some cs := by
      rw [skip_cons (by decide)]
      exact expect_append
    cases n
    case zero => cases l <;> simp [printMembers, printString] at hn
    case succ n =>
      cases l
      case nil =>
        have first : value n (print coded v ++ '\x7d' :: rest) = some (v, '\x7d' :: rest) := by
          refine value_print v hv.left (.cons (by decide)) ?_
          simp only [printMembers, List.length_append, List.length_cons] at hn
          omega
        have closed : skip ('\x7d' :: rest) = '\x7d' :: rest := skip_cons (by decide)
        simp [printMembers, printString, members, quoted, readString_print, colon, first, closed]
      case cons w l =>
        have lengths : (print coded v).length ≤ n ∧ (printMembers coded (w :: l)).length ≤ n := by
          simp only [printMembers, List.length_append, List.length_cons] at hn
          omega
        have first : value n (print coded v ++ ',' :: (printMembers coded (w :: l) ++ rest)) =
            some (v, ',' :: (printMembers coded (w :: l) ++ rest)) :=
          value_print v hv.left (.cons (by decide)) lengths.left
        have others : members n (printMembers coded (w :: l) ++ rest) = some (w :: l, rest) :=
          members_print (w :: l) (by simp) hv.right lengths.right
        have comma {cs} : skip (',' :: cs) = ',' :: cs := skip_cons (by decide)
        simp [printMembers, printString, members, quoted, readString_print, colon, first, comma, others]

end

-- A value that was printed is read again, whatever the text that follows it, unless it goes on with a
-- number.
theorem read_print {v : Value} (hv : v.WellFormed) (hr : Closed rest) :
    read (print coded v ++ rest) = some (v, rest) := by
  refine value_print v hv hr ?_
  rw [List.length_append]
  omega

theorem read_print_whole {v : Value} (hv : v.WellFormed) : read (print coded v) = some (v, []) := by
  have whole : read (print coded v ++ []) = some (v, []) := read_print hv .nil
  rwa [List.append_nil] at whole

end JsonText
