import Mathlib.Data.List.Basic

namespace Worker

-- What `JSON.parse` returns. A number is the text that JavaScript prints for it, and an object has each
-- key once. `undefined` is the `none` of `Option Json`.
inductive Json
  | null
  | bool (b : Bool)
  | num (text : String)
  | str (s : String)
  | arr (l : List Json)
  | obj (fields : List (String × Json))

namespace Json

-- `v.k`, which throws on null. The fields that are read are on no prototype.
def field (v : Json) (k : String) : Option (Option Json) :=
  match v with
  | null       => none
  | obj fields => some (fields.lookup k)
  | _          => some none

def truthy : Option Json → Bool
  | none | some null => false
  | some (bool b)    => b
  | some (num text)  => text ≠ "0"
  | some (str s)     => s ≠ ""
  | _                => true

-- `v || d`.
def or (v : Option Json) (d : Json) : Json :=
  match v with
  | some v => if truthy v then v else d
  | none   => d

-- `v === s`.
def is (v : Option Json) (s : String) : Bool :=
  match v with
  | some (str s') => s' = s
  | _             => false

mutual

-- `ToString`, which throws where a field hides the method of the prototype.
def text : Json → Option String
  | null       => some "null"
  | bool b     => some (if b then "true" else "false")
  | num s      => some s
  | str s      => some s
  | arr l      => (texts l).map (String.intercalate ",")
  | obj fields => if fields.any (·.1 = "toString") then none else some "[object Object]"

def texts : List Json → Option (List String)
  | []         => some []
  | null :: vs => return "" :: (← texts vs)
  | v :: vs    => return (← text v) :: (← texts vs)

end

mutual

-- What is read back from `JSON.stringify`, which prints a number that is not finite as null.
def printed : Json → Json
  | num text   => if text = "Infinity" ∨ text = "-Infinity" then null else num text
  | arr l      => arr (printedAll l)
  | obj fields => obj (printedFields fields)
  | v          => v

def printedAll : List Json → List Json
  | []      => []
  | v :: vs => printed v :: printedAll vs

def printedFields : List (String × Json) → List (String × Json)
  | []           => []
  | (k, v) :: vs => (k, printed v) :: printedFields vs

end

-- `"" + v`.
def key (v : Option Json) : Option String :=
  match v with
  | none   => some "undefined"
  | some v => text v

end Json

end Worker
