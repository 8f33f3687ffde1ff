import Mathlib.Data.List.Sort
import Popfleet.Lib.FileSystem
import Popfleet.Lib.GoMap

open FileSystem

namespace Store

-- Nanoseconds since the zero `time.Time`.
abbrev Time := Nat

structure Machine where
  id       : String
  name     : String := ""
  token    : String
  lastSeen : Time := 0
  agentVer : String := ""
  deriving DecidableEq

-- The map `s.m`. It holds every machine under its own id.
structure Machines where
  map   : GoMap String Machine
  keyed : ∀ {id m}, map.get? id = some m → m.id = id

namespace Machines

instance : EmptyCollection Machines where
  emptyCollection := { map := ∅, keyed := by simp }

def get? (s : Machines) (id : String) : Option Machine :=
  s.map.get? id

def insert (s : Machines) (m : Machine) : Machines where
  map   := s.map.set m.id m
  keyed := by
    intro id m' h
    rw [GoMap.get?_set] at h
    split at h
    case isTrue hi => cases h; exact hi.symm
    case isFalse   => exact s.keyed h

def erase (s : Machines) (id : String) : Machines where
  map   := s.map.delete id
  keyed := by
    intro id' m h
    rw [GoMap.get?_delete] at h
    split at h
    case isTrue  => contradiction
    case isFalse => exact s.keyed h

-- The machines sorted by id, as `save` and `List` build them.
def list (s : Machines) : List Machine :=
  s.map.values.insertionSort (·.id ≤ ·.id)

-- What `Touch` does to the machine it finds.
def touched (m : Machine) (name ver : String) (now : Time) : Machine where
  id       := m.id
  name     := if name = "" then m.name else name
  token    := m.token
  lastSeen := now
  agentVer := if ver = "" then m.agentVer else ver

-- The effect of `Touch` on the map.
def touch (s : Machines) (id name ver : String) (now : Time) : Machines :=
  match s.get? id with
  | none   => s
  | some m => s.insert (touched m name ver now)

-- `ByToken`. Go iterates the map in an order of its own, the model in the order of the entries.
def byToken (s : Machines) (tok : String) : Option Machine :=
  s.map.values.find? (·.token = tok)

def byID (s : Machines) (id : String) : Option Machine :=
  s.get? id

def tokenOf (s : Machines) (id : String) : Option String :=
  (s.get? id).map (·.token)

variable {s : Machines} {m : Machine} {id id' : String}

@[simp, grind =]
theorem get?_empty : (∅ : Machines).get? id = none :=
  GoMap.get?_empty

@[simp, grind =]
theorem get?_insert : (s.insert m).get? id = if id = m.id then some m else s.get? id :=
  GoMap.get?_set

@[simp, grind =]
theorem get?_erase : (s.erase id).get? id' = if id' = id then none else s.get? id' :=
  GoMap.get?_delete

theorem id_of_get? (h : s.get? id = some m) : m.id = id :=
  s.keyed h

theorem get?_touch {name ver : String} {now : Time} :
    (s.touch id name ver now).get? id' =
      if id' = id then (s.get? id).map (touched · name ver now) else s.get? id' := by
  unfold touch
  split
  case h_1 h => split <;> simp_all
  case h_2 m h =>
    have hm : (touched m name ver now).id = id := show m.id = id from id_of_get? h
    simp [hm, h]

theorem tokenOf_eq_some {t : String} :
    s.tokenOf id = some t ↔ ∃ m, s.get? id = some m ∧ m.token = t := by
  simp [tokenOf]

@[simp, grind =]
theorem tokenOf_insert :
    (s.insert m).tokenOf id = if id = m.id then some m.token else s.tokenOf id := by
  simp only [tokenOf, get?_insert]
  split <;> rfl

@[simp, grind =]
theorem tokenOf_erase : (s.erase id).tokenOf id' = if id' = id then none else s.tokenOf id' := by
  simp only [tokenOf, get?_erase]
  split <;> rfl

@[simp, grind =]
theorem tokenOf_touch {name ver : String} {now : Time} :
    (s.touch id name ver now).tokenOf id' = s.tokenOf id' := by
  simp only [tokenOf, get?_touch]
  split
  case isTrue h  => simp [h, touched, Function.comp_def]
  case isFalse h => rfl

-- A token found is the token of a machine, and the token of a machine is found.
theorem byToken_eq_some {t : String} (h : s.byToken t = some m) :
    s.tokenOf m.id = some t := by
  have hm := List.mem_of_find?_eq_some h
  have ht : m.token = t := by simpa using List.find?_some h
  have ⟨id, hi⟩ := GoMap.mem_values.mp hm
  exact tokenOf_eq_some.mpr ⟨m, (s.keyed hi).symm ▸ hi, ht⟩

theorem byToken_isSome {t : String} (h : s.tokenOf id = some t) : ∃ m, s.byToken t = some m := by
  have ⟨m, hm, ht⟩ := tokenOf_eq_some.mp h
  cases hf : s.byToken t
  case some m' => exact ⟨m', rfl⟩
  case none =>
    simp only [byToken, List.find?_eq_none, decide_eq_true_eq] at hf
    exact absurd ht (hf m (GoMap.mem_values.mpr ⟨id, hm⟩))

end Machines

-- The part of encoding/json that the store relies on. Unmarshalling `null` into a `*Machine` gives a
-- nil pointer, hence the inner option.
structure Codec where
  marshal           : List Machine → Option Bytes
  unmarshal         : Bytes → Option (List (Option Machine))
  unmarshal_marshal : ∀ {l b}, marshal l = some b → unmarshal b = some (l.map some)

variable (J : Codec) (path : Path)

inductive OpenResult
  | store (s : Machines)
  | err
  | panic

-- The loop of `Open` over the unmarshalled list dereferences every element.
def load : List (Option Machine) → Machines → OpenResult
  | [], s             => .store s
  | none :: _, _      => .panic
  | some m :: rest, s => load rest (s.insert m)

def Open : Prog OpenResult := do
  match ← readFile path with
  | .notExist => return .store ∅
  | .failed   => return .err
  | .data b   =>
    match J.unmarshal b with
    | none      => return .err
    | some list => return load list ∅

-- Returns whether the error is nil.
def save (s : Machines) : Prog Bool := do
  match J.marshal s.list with
  | none   => return false
  | some b =>
    let tmp := path ++ ".tmp"
    let _ ← remove tmp
    if !(← openExcl tmp) then
      return false
    if !(← write tmp b) then
      let _ ← close tmp
      return false
    if !(← close tmp) then
      return false
    rename tmp path

-- `id` and `token` are what `randHex` returns.
def Mint (s : Machines) (id name token : String) : Prog (Machines × Option Machine) := do
  let m : Machine := { id, name, token }
  let s := s.insert m
  if !(← save J path s) then
    return (s.erase id, none)
  return (s, some m)

def Touch (s : Machines) (id name ver : String) (now : Time) : Prog Machines := do
  match s.get? id with
  | none   => return s
  | some _ =>
    let s := s.touch id name ver now
    let _ ← save J path s
    return s

def Delete (s : Machines) (id : String) : Prog (Machines × Bool) := do
  match s.get? id with
  | none   => return (s, false)
  | some _ =>
    let s := s.erase id
    let _ ← save J path s
    return (s, true)

end Store
