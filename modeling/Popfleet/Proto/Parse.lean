import Popfleet.Proto.Theorems.Parsed

open JsonText (Value)
open Proto (Msg Field)

namespace Worker.Json

-- An object with one more member, of which the last with a name counts.
def assign (k : String) (v : Json) : List (String × Json) → List (String × Json)
  | []            => [(k, v)]
  | (k', v') :: l => if k' = k then (k, v) :: l else (k', v') :: assign k v l

mutual

-- A value of the text as `JSON.parse` returns it. A number is what JavaScript prints for it.
def ofValue (num : List Char → String) : Value → Json
  | .null        => .null
  | .bool b      => .bool b
  | .num text    => .num (num text)
  | .str s       => .str (.ofList s)
  | .arr l       => .arr (ofValues num l)
  | .obj members => .obj (ofMembers num members [])

def ofValues (num : List Char → String) : List Value → List Json
  | []     => []
  | v :: l => ofValue num v :: ofValues num l

def ofMembers (num : List Char → String) :
    List (List Char × Value) → List (String × Json) → List (String × Json)
  | [], fields          => fields
  | (k, v) :: l, fields => ofMembers num l (assign (.ofList k) (ofValue num v) fields)

end

-- `JSON.parse`.
def parse (num : List Char → String) (text : List Char) : Option Json := do
  let (v, rest) ← JsonText.read text
  if JsonText.skip rest = [] then some (ofValue num v) else none

variable {num : List Char → String} {m : Msg} {f : Field} {fs : List Field} {k k' : String} {v : Json}
  {fields : List (String × Json)}

theorem lookup_assign : (assign k v fields).lookup k' = if k' = k then some v else fields.lookup k' := by
  induction fields
  case nil => by_cases hk : k' = k <;> simp [assign, List.lookup_cons, hk, beq_false_of_ne]
  case cons kv l hi =>
    obtain ⟨k₀, v₀⟩ := kv
    unfold assign
    split
    case isTrue h =>
      subst h
      by_cases hk : k' = k₀ <;> simp [List.lookup_cons, hk, beq_false_of_ne]
    case isFalse h =>
      by_cases hk : k' = k₀
      case pos =>
        subst hk
        simp [h]
      case neg => simp [List.lookup_cons, beq_false_of_ne hk, hi]

theorem lookup_ofMembers :
    (ofMembers num (m.members fs) fields).lookup f.tag =
      ((if f ∈ fs then m.value f else none).map (ofValue num)).or (fields.lookup f.tag) := by
  induction fs generalizing fields
  case nil => simp [Msg.members, ofMembers]
  case cons g fs hi =>
    cases h : m.value g
    case none =>
      have omitted : m.members (g :: fs) = m.members fs := by simp [Msg.members, h]
      rw [omitted, hi]
      by_cases same : f = g
      case pos => simp [same, h]
      case neg => simp [same]
    case some j =>
      have written : m.members (g :: fs) = (g.key, j) :: m.members fs := by simp [Msg.members, h]
      rw [written, ofMembers, hi, lookup_assign]
      by_cases same : f = g
      case pos =>
        subst same
        by_cases hm : f ∈ fs <;> simp [hm, h, Field.tag]
      case neg =>
        have other : f.tag ≠ .ofList g.key := fun h => same (Field.tag_injective h)
        simp [same, other]

-- What a page reads of a frame that a Go program wrote.
theorem parse_writeJSON :
    ∃ fields, parse num m.writeJSON = some (.obj fields) ∧
      ∀ f : Field, fields.lookup f.tag = (m.value f).map (ofValue num) := by
  refine ⟨ofMembers num (m.members Field.all) [], ?_, fun f => ?_⟩
  case refine_1 =>
    simp only [parse, Msg.read_writeJSON, Option.bind_eq_bind, Option.bind_some]
    rw [if_pos (by decide), ofValue]
  case refine_2 => simp [lookup_ofMembers, f.mem_all]

end Worker.Json
