import Mathlib.Algebra.Ring.Int.Defs
import Popfleet.Proto.Msg
import Popfleet.Worker.Json

open Worker (Json)

namespace Proto

def digits (cs : List Char) : Option Nat :=
  if cs ≠ [] ∧ cs.all Char.isDigit then
    some (cs.foldl (fun n c => 10 * n + (c.toNat - '0'.toNat)) 0)
  else
    none

-- `strconv.ParseInt` of a number, to the base 10 and for 64 bits.
def parseInt (text : String) : Option Int :=
  let n : Option Int := match text.toList with
    | '-' :: cs => (digits cs).map fun n => -n
    | cs        => (digits cs).map fun n => n
  n.filter fun n => -2 ^ 63 ≤ n ∧ n < 2 ^ 63

-- What `encoding/json` stores in a field of a type, or none where the value does not fit it. A field
-- that is missing or null is left as it is.

def string : Option Json → Option String
  | none | some .null => some ""
  | some (.str s)     => some s
  | _                 => none

def bool : Option Json → Option Bool
  | none | some .null => some false
  | some (.bool b)    => some b
  | _                 => none

def int : Option Json → Option Int
  | none | some .null => some 0
  | some (.num text)  => parseInt text
  | _                 => none

def intPtr : Option Json → Option (Option Int)
  | none | some .null => some none
  | some (.num text)  => (parseInt text).map some
  | _                 => none

@[simp]
theorem string_none : string none = some "" :=
  rfl

@[simp]
theorem string_str {s : String} : string (some (.str s)) = some s :=
  rfl

@[simp]
theorem bool_none : bool none = some false :=
  rfl

@[simp]
theorem int_none : int none = some 0 :=
  rfl

@[simp]
theorem intPtr_none : intPtr none = some none :=
  rfl

-- `ReadJSON` into a new `Msg`, of a value that was parsed and has each field under its exact name.
def readJSON : Json → Option Msg
  | .null       => some { t := "" }
  | .obj fields => do
    let field (k : String) := fields.lookup k
    return {
      t     := ← string (field "t")
      token := ← string (field "token")
      name  := ← string (field "name")
      ver   := ← string (field "ver")
      e2e   := ← bool (field "e2e")
      id    := ← string (field "id")
      sid   := ← string (field "sid")
      data  := ← string (field "data")
      cmd   := ← string (field "cmd")
      code  := ← intPtr (field "code")
      c     := ← int (field "c")
      r     := ← int (field "r")
      msg   := ← string (field "msg") }
  | _ => none

end Proto
