import Popfleet.Proto.Codec

open JsonText (Value IsNumber read)

namespace Proto

theorem Field.mem_all (f : Field) : f ∈ all := by
  cases f <;> decide

theorem Field.ofKey_key (f : Field) : ofKey f.key = some f := by
  cases f <;> decide

namespace Msg

variable {m : Msg} {f : Field} {fs : List Field} {v : Value} {n : Int}

-- The integers.

theorem digits_toDigits {n : Nat} : digits (Nat.toDigits 10 n) = some n := by
  have all : (Nat.toDigits 10 n).all Char.isDigit :=
    List.all_eq_true.mpr fun _ hc => Nat.isDigit_of_mem_toDigits (by decide) (by decide) hc
  rw [digits, if_pos ⟨Nat.toDigits_ne_nil, all⟩, ← Nat.ofDigitChars_eq_foldl,
    Nat.ofDigitChars_ten_toDigits]

theorem parseInt_appendInt (h : Int64 n) : parseInt (.ofList (appendInt n)) = some n := by
  have range : (-2 ^ 63 ≤ n ∧ n < 2 ^ 63) := h
  unfold parseInt
  rw [String.toList_ofList]
  cases n
  case ofNat n =>
    have unsigned : ∀ cs, Nat.toDigits 10 n ≠ '-' :: cs := by
      intro cs printed
      have sign : '-' ∈ Nat.toDigits 10 n := by simp [printed]
      exact absurd (Nat.isDigit_of_mem_toDigits (by decide) (by decide) sign) (by decide)
    split
    case h_1 cs printed => exact absurd printed (unsigned cs)
    case h_2 =>
      rw [appendInt, digits_toDigits]
      simpa using range
  case negSucc n =>
    simp only [appendInt, digits_toDigits]
    simpa [Int.negSucc_eq] using range

theorem isNumber_appendInt : IsNumber (appendInt n) := by
  cases n
  case ofNat   => exact JsonText.isNumber_toDigits
  case negSucc => exact JsonText.isNumber_neg_toDigits

-- What is written for a field is nothing nested, and its numbers are well formed.
structure Leaf (v : Value) : Prop where
  wellFormed : v.WellFormed
  depth      : v.depth = 0

theorem leaf_str {s : List Char} : Leaf (.str s) :=
  ⟨trivial, rfl⟩

theorem leaf_num : Leaf (.num (appendInt n)) :=
  ⟨isNumber_appendInt, rfl⟩

theorem leaf_of_string {s : String} (h : string s = some v) : Leaf v := by
  unfold string at h
  split at h <;> cases h
  exact leaf_str

theorem leaf_of_bool {b : Bool} (h : bool b = some v) : Leaf v := by
  unfold bool at h
  split at h <;> cases h
  exact ⟨trivial, rfl⟩

theorem leaf_of_int (h : int n = some v) : Leaf v := by
  unfold int at h
  split at h <;> cases h
  exact leaf_num

theorem leaf_of_value (h : m.value f = some v) : Leaf v := by
  cases f
  case t    => cases h; exact leaf_str
  case e2e  => exact leaf_of_bool h
  case c    => exact leaf_of_int h
  case r    => exact leaf_of_int h
  case code =>
    obtain ⟨n, _, rfl⟩ := Option.map_eq_some_iff.mp h
    exact leaf_num
  all_goals exact leaf_of_string h

theorem mem_members {kv : List Char × Value} (h : kv ∈ m.members fs) : Leaf kv.2 := by
  obtain ⟨f, _, member⟩ := List.mem_filterMap.mp h
  obtain ⟨v, value, rfl⟩ := Option.map_eq_some_iff.mp member
  exact leaf_of_value value

-- The frame that has the fields `fs` only.
def part (m : Msg) (fs : List Field) : Msg where
  t     := if .t ∈ fs then m.t else ""
  token := if .token ∈ fs then m.token else ""
  name  := if .name ∈ fs then m.name else ""
  ver   := if .ver ∈ fs then m.ver else ""
  e2e   := if .e2e ∈ fs then m.e2e else false
  id    := if .id ∈ fs then m.id else ""
  sid   := if .sid ∈ fs then m.sid else ""
  data  := if .data ∈ fs then m.data else ""
  cmd   := if .cmd ∈ fs then m.cmd else ""
  code  := if .code ∈ fs then m.code else none
  c     := if .c ∈ fs then m.c else 0
  r     := if .r ∈ fs then m.r else 0
  msg   := if .msg ∈ fs then m.msg else ""

theorem part_nil : m.part [] = { t := "" } :=
  rfl

theorem part_eq (h : ∀ f, f ∈ fs) : m.part fs = m := by
  simp [part, h]

-- A field that is omitted is zero, so that a frame without it is the frame with it.
theorem part_of_omitted (h : m.value f = none) : m.part (f :: fs) = m.part fs := by
  have text {s : String} (h : string s = none) : s = "" := by simpa [string] using h
  have number {n : Int} (h : int n = none) : n = 0 := by simpa [int] using h
  cases f
  case t => contradiction
  case e2e =>
    have off : m.e2e = false := by simpa [value, bool] using h
    simp [part, off]
  case code =>
    have absent : m.code = none := Option.map_eq_none_iff.mp h
    simp [part, absent]
  case c => simp [part, number h]
  case r => simp [part, number h]
  all_goals simp [part, text h]

-- A field that is written is stored with its value.

theorem storeString_string {s old : String} (h : string s = some v) : storeString old v = some s := by
  unfold string at h
  split at h <;> cases h
  simp [storeString]

theorem storeBool_bool {b old : Bool} (h : bool b = some v) : storeBool old v = some b := by
  cases b <;> cases h
  rfl

theorem storeInt_int {old : Int} (hn : Int64 n) (h : int n = some v) : storeInt old v = some n := by
  unfold int at h
  split at h <;> cases h
  exact parseInt_appendInt hn

theorem storeIntPtr_intPtr {p : Option Int} (hp : ∀ n ∈ p, Int64 n) (h : intPtr p = some v) :
    storeIntPtr v = some p := by
  obtain ⟨n, rfl, rfl⟩ := Option.map_eq_some_iff.mp h
  simp [storeIntPtr, parseInt_appendInt (hp n rfl)]

theorem store_value (hm : m.Fits) (h : m.value f = some v) :
    store (m.part fs) f v = some (m.part (f :: fs)) := by
  cases f
  case t    => cases h; simp [store, storeString, part]
  case e2e  => simp [store, storeBool_bool h, part]
  case code => simp [store, storeIntPtr_intPtr hm.code h, part]
  case c    => simp [store, storeInt_int hm.c h, part]
  case r    => simp [store, storeInt_int hm.r h, part]
  all_goals simp [store, storeString_string h, part]

-- The decoder puts a frame together again from its members, one field after the other.

theorem foldlM_members (hm : m.Fits) {gs : List Field} :
    (m.members fs).foldlM storeMember (m.part gs) = some (m.part (fs.reverse ++ gs)) := by
  induction fs generalizing gs
  case nil => rfl
  case cons f fs hi =>
    rw [List.reverse_cons, List.append_assoc, List.singleton_append]
    cases h : m.value f
    case none =>
      have omitted : m.members (f :: fs) = m.members fs := by simp [members, h]
      have same : m.part (f :: gs) = m.part gs := part_of_omitted h
      rw [omitted, ← same]
      exact hi
    case some v =>
      have written : m.members (f :: fs) = (f.key, v) :: m.members fs := by simp [members, h]
      have stored : storeMember (m.part gs) (f.key, v) = some (m.part (f :: gs)) := by
        simp only [storeMember, Field.ofKey_key, store_value hm h]
      rw [written, List.foldlM_cons, stored]
      exact hi

theorem decode_members (hm : m.Fits) : decode (.obj (m.members Field.all)) = some m := by
  have flat : JsonText.Value.membersDepth (m.members Field.all) = 0 :=
    JsonText.Value.membersDepth_eq_zero fun _ h => (mem_members h).depth
  have depth : ¬maxNestingDepth < (Value.obj (m.members Field.all)).depth := by
    simp [JsonText.Value.depth, flat, maxNestingDepth]
  have whole : m.part (Field.all.reverse ++ []) = m :=
    part_eq fun f => by simpa using f.mem_all
  rw [decode, if_neg depth, ← part_nil (m := m)]
  exact (foldlM_members hm).trans (congrArg some whole)

theorem wellFormed_members : (Value.obj (m.members fs)).WellFormed := by
  rw [Value.WellFormed]
  exact Value.membersWellFormed_iff.mpr fun _ h => (mem_members h).wellFormed

theorem unmarshal_marshal (hm : m.Fits) : unmarshal m.marshal = some m := by
  have whole : read m.marshal = some (.obj (m.members Field.all), []) :=
    JsonText.read_print_whole wellFormed_members
  simp only [unmarshal, whole, Option.bind_eq_bind, Option.bind_some]
  exact decode_members hm

theorem read_writeJSON : read m.writeJSON = some (.obj (m.members Field.all), ['\n']) :=
  JsonText.read_print wellFormed_members (.cons (by decide))

theorem readJSON_writeJSON (hm : m.Fits) : readJSON m.writeJSON = some m := by
  simp only [readJSON, read_writeJSON, Option.bind_eq_bind, Option.bind_some]
  exact decode_members hm

-- The panel writes a frame in its own way, and reads the members that a frame of the broker has.

theorem readJSON_stringify {data : String} : readJSON (stringify data) = some { t := "in", data } := by
  let v : Value := .obj [(Field.t.key, .str ['i', 'n']), (Field.data.key, .str data.toList)]
  have wellFormed : v.WellFormed := by simp [v, Value.WellFormed, Value.MembersWellFormed]
  have depth : ¬maxNestingDepth < v.depth := by
    simp [v, Value.depth, Value.membersDepth, maxNestingDepth]
  have whole : read (stringify data) = some (v, []) := JsonText.read_print_whole wellFormed
  simp only [readJSON, whole, Option.bind_eq_bind, Option.bind_some, decode, if_neg depth]
  simp [v, storeMember, Field.ofKey_key, store, storeString]

theorem read_out {data : String} (hd : data ≠ "") :
    read (writeJSON { t := "out", data }) =
      some (.obj [(Field.t.key, .str ['o', 'u', 't']), (Field.data.key, .str data.toList)], ['\n']) := by
  have members : Msg.members { t := "out", data } Field.all =
      [(Field.t.key, .str ['o', 'u', 't']), (Field.data.key, .str data.toList)] := by
    simp [Msg.members, Field.all, value, string, bool, int, intPtr, hd]
  exact members ▸ read_writeJSON

-- A heartbeat carries nothing but its tag, and an exit with the code 0 has it in its text.

example : marshal { t := "hb" } = "\x7b\"t\":\"hb\"\x7d".toList := by decide

example : marshal { t := "exit", code := some 0 } = "\x7b\"t\":\"exit\",\"code\":0\x7d".toList := by
  decide

end Msg

end Proto
