import Popfleet.Lib.JsonText
import Popfleet.Proto.ReadJSON

open JsonText (Value print read skip)

namespace Proto

-- The fields of `Msg`, in their order.
inductive Field
  | t | token | name | ver | e2e | id | sid | data | cmd | code | c | r | msg
  deriving DecidableEq

namespace Field

def all : List Field :=
  [.t, .token, .name, .ver, .e2e, .id, .sid, .data, .cmd, .code, .c, .r, .msg]

-- The name that the tag of a field gives it.
def key : Field → List Char
  | .t     => ['t']
  | .token => ['t', 'o', 'k', 'e', 'n']
  | .name  => ['n', 'a', 'm', 'e']
  | .ver   => ['v', 'e', 'r']
  | .e2e   => ['e', '2', 'e']
  | .id    => ['i', 'd']
  | .sid   => ['s', 'i', 'd']
  | .data  => ['d', 'a', 't', 'a']
  | .cmd   => ['c', 'm', 'd']
  | .code  => ['c', 'o', 'd', 'e']
  | .c     => ['c']
  | .r     => ['r']
  | .msg   => ['m', 's', 'g']

-- `foldRune`. A character that is not ASCII and folds to none that is occurs in no name.
def foldRune (c : Char) : Char :=
  if c = '\u212a' then 'K' else if c = '\u017f' then 'S' else c.toUpper

-- The field with a name, or else one whose name differs in the case only.
def ofKey (k : List Char) : Option Field :=
  all.find? (·.key = k) <|> all.find? fun f => f.key.map foldRune = k.map foldRune

end Field

namespace Msg

-- The integers of a frame are those of 64 bits.
def Int64 (n : Int) : Prop :=
  -2 ^ 63 ≤ n ∧ n < 2 ^ 63
  deriving Decidable

structure Fits (m : Msg) : Prop where
  code : ∀ n ∈ m.code, Int64 n
  c    : Int64 m.c
  r    : Int64 m.r

section Encode

-- The characters that `encoding/json` escapes for the sake of HTML and of JSONP.
def coded (c : Char) : Bool :=
  c ∈ ['<', '>', '&', '\u2028', '\u2029']

-- `strconv.AppendInt`, to the base 10.
def appendInt : Int → List Char
  | .ofNat n   => Nat.toDigits 10 n
  | .negSucc n => '-' :: Nat.toDigits 10 (n + 1)

-- The values of fields with `omitempty`.

def string (s : String) : Option Value :=
  if s = "" then none else some (.str s.toList)

def bool (b : Bool) : Option Value :=
  if b then some (.bool true) else none

def int (n : Int) : Option Value :=
  if n = 0 then none else some (.num (appendInt n))

def intPtr (n : Option Int) : Option Value :=
  n.map fun n => .num (appendInt n)

-- The value that is written for a field, or none where the field is omitted.
def value (m : Msg) : Field → Option Value
  | .t     => some (.str m.t.toList)
  | .token => string m.token
  | .name  => string m.name
  | .ver   => string m.ver
  | .e2e   => bool m.e2e
  | .id    => string m.id
  | .sid   => string m.sid
  | .data  => string m.data
  | .cmd   => string m.cmd
  | .code  => intPtr m.code
  | .c     => int m.c
  | .r     => int m.r
  | .msg   => string m.msg

def members (m : Msg) (fs : List Field) : List (List Char × Value) :=
  fs.filterMap fun f => (m.value f).map (f.key, ·)

-- `json.Marshal`.
def marshal (m : Msg) : List Char :=
  print coded (.obj (m.members Field.all))

-- `WriteJSON`, whose encoder ends the text with a line break.
def writeJSON (m : Msg) : List Char :=
  m.marshal ++ ['\n']

-- `JSON.stringify({ t: "in", data })` of the panel, which escapes nothing for the sake of HTML.
def stringify (data : String) : List Char :=
  print (fun _ => false) (.obj [(Field.t.key, .str ['i', 'n']), (Field.data.key, .str data.toList)])

end Encode

section Decode

-- What a field that holds `old` holds behind the decoder, or none where the value does not fit its type.

def storeString (old : String) : Value → Option String
  | .null  => some old
  | .str s => some (.ofList s)
  | _      => none

def storeBool (old : Bool) : Value → Option Bool
  | .null   => some old
  | .bool b => some b
  | _       => none

def storeInt (old : Int) : Value → Option Int
  | .null     => some old
  | .num text => parseInt (.ofList text)
  | _         => none

def storeIntPtr : Value → Option (Option Int)
  | .null     => some none
  | .num text => (parseInt (.ofList text)).map some
  | _         => none

def store (m : Msg) : Field → Value → Option Msg
  | .t, v     => (storeString m.t v).map ({ m with t := · })
  | .token, v => (storeString m.token v).map ({ m with token := · })
  | .name, v  => (storeString m.name v).map ({ m with name := · })
  | .ver, v   => (storeString m.ver v).map ({ m with ver := · })
  | .e2e, v   => (storeBool m.e2e v).map ({ m with e2e := · })
  | .id, v    => (storeString m.id v).map ({ m with id := · })
  | .sid, v   => (storeString m.sid v).map ({ m with sid := · })
  | .data, v  => (storeString m.data v).map ({ m with data := · })
  | .cmd, v   => (storeString m.cmd v).map ({ m with cmd := · })
  | .code, v  => (storeIntPtr v).map ({ m with code := · })
  | .c, v     => (storeInt m.c v).map ({ m with c := · })
  | .r, v     => (storeInt m.r v).map ({ m with r := · })
  | .msg, v   => (storeString m.msg v).map ({ m with msg := · })

-- A member of an object. One that stands for no field is ignored.
def storeMember (m : Msg) (kv : List Char × Value) : Option Msg :=
  match Field.ofKey kv.1 with
  | none   => some m
  | some f => m.store f kv.2

def maxNestingDepth : Nat :=
  10000

-- A value that is decoded into a new `Msg`.
def decode (v : Value) : Option Msg :=
  if maxNestingDepth < v.depth then none
  else
    match v with
    | .null        => some { t := "" }
    | .obj members => members.foldlM storeMember { t := "" }
    | _            => none

-- `json.Unmarshal`.
def unmarshal (text : List Char) : Option Msg := do
  let (v, rest) ← read text
  if skip rest = [] then decode v else none

-- `ReadJSON`, which decodes the first value and ignores what is behind it.
def readJSON (text : List Char) : Option Msg := do
  let (v, _) ← read text
  decode v

end Decode

end Msg

end Proto
