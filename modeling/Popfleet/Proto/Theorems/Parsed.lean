import Popfleet.Proto.Theorems.RoundTrip
import Popfleet.Worker.Basic

open JsonText (Value print)
open Worker (Json Frame)

namespace Proto

mutual

-- A value that was parsed, as a value of the text.
def toValue : Json → Value
  | .null       => .null
  | .bool b     => .bool b
  | .num text   => .num text.toList
  | .str s      => .str s.toList
  | .arr l      => .arr (toValues l)
  | .obj fields => .obj (toMembers fields)

def toValues : List Json → List Value
  | []     => []
  | v :: l => toValue v :: toValues l

def toMembers : List (String × Json) → List (List Char × Value)
  | []          => []
  | (k, v) :: l => (k.toList, toValue v) :: toMembers l

end

namespace Field

def tag (f : Field) : String :=
  String.ofList f.key

theorem tag_injective : Function.Injective tag := by
  intro f g h
  have keys : f.key = g.key := by simpa [tag] using congrArg String.toList h
  cases f <;> cases g <;> first | rfl | contradiction

end Field

-- The object with some of the fields of a `Msg`, in their order.
def object (value : Field → Option Json) (fs : List Field) : List (String × Json) :=
  fs.filterMap fun f => (value f).map (f.tag, ·)

variable {value : Field → Option Json} {f : Field} {fs : List Field} {m m' : Msg} {v : Value} {j : Json}

theorem object_of_none (h : value f = none) : object value (f :: fs) = object value fs := by
  simp [object, h]

theorem object_of_some (h : value f = some j) :
    object value (f :: fs) = (f.tag, j) :: object value fs := by
  simp [object, h]

theorem lookup_object : (object value fs).lookup f.tag = if f ∈ fs then value f else none := by
  induction fs
  case nil => rfl
  case cons g fs hi =>
    cases h : value g
    case none =>
      rw [object_of_none h, hi]
      by_cases same : f = g
      case pos => simp [same, h]
      case neg => simp [same]
    case some j =>
      rw [object_of_some h, List.lookup_cons]
      by_cases same : f = g
      case pos => simp [same, h]
      case neg =>
        have other : (f.tag == g.tag) = false := beq_false_of_ne fun h => same (Field.tag_injective h)
        simp [same, other, hi]

theorem readJSON_object :
    readJSON (.obj (object value Field.all)) = (do
      return {
        t     := ← string (value .t)
        token := ← string (value .token)
        name  := ← string (value .name)
        ver   := ← string (value .ver)
        e2e   := ← bool (value .e2e)
        id    := ← string (value .id)
        sid   := ← string (value .sid)
        data  := ← string (value .data)
        cmd   := ← string (value .cmd)
        code  := ← intPtr (value .code)
        c     := ← int (value .c)
        r     := ← int (value .r)
        msg   := ← string (value .msg) }) := by
  have field (f : Field) : (object value Field.all).lookup f.tag = value f :=
    lookup_object.trans (if_pos f.mem_all)
  simp only [← field]
  rfl

-- What is stored for a field that an object may lack.
def storeField (m : Msg) (f : Field) (v : Option Json) : Option Msg :=
  v.elim (some m) fun j => m.store f (toValue j)

theorem foldlM_object :
    (toMembers (object value fs)).foldlM Msg.storeMember m =
      fs.foldlM (fun m f => storeField m f (value f)) m := by
  induction fs generalizing m
  case nil => rfl
  case cons f fs hi =>
    cases h : value f
    case none =>
      rw [object_of_none h, hi, List.foldlM_cons, h]
      rfl
    case some j =>
      have key : f.tag.toList = f.key := String.toList_ofList
      rw [object_of_some h, toMembers, List.foldlM_cons, List.foldlM_cons, h]
      simp only [Msg.storeMember, key, Field.ofKey_key]
      exact bind_congr fun _ => hi

-- A field of a new frame is the same behind both decoders.

section Fields

variable {w : Option Json} {stored : Option Msg} {next : Msg → Option Msg}

theorem bind_string (g : String → Msg) {next' : String → Option Msg}
    (hs : stored = w.elim (some (g "")) fun j => (Msg.storeString "" (toValue j)).map g)
    (h : ∀ s, next (g s) = next' s) : stored.bind next = (string w).bind next' := by
  subst hs
  rcases w with _ | (_ | _ | _ | _ | _ | _) <;> simp [toValue, Msg.storeString, string, h]

theorem bind_bool (g : Bool → Msg) {next' : Bool → Option Msg}
    (hs : stored = w.elim (some (g false)) fun j => (Msg.storeBool false (toValue j)).map g)
    (h : ∀ b, next (g b) = next' b) : stored.bind next = (bool w).bind next' := by
  subst hs
  rcases w with _ | (_ | _ | _ | _ | _ | _) <;> simp [toValue, Msg.storeBool, bool, h]

theorem bind_int (g : Int → Msg) {next' : Int → Option Msg}
    (hs : stored = w.elim (some (g 0)) fun j => (Msg.storeInt 0 (toValue j)).map g)
    (h : ∀ n, next (g n) = next' n) : stored.bind next = (int w).bind next' := by
  subst hs
  rcases w with _ | (_ | _ | text | _ | _ | _) <;> simp [toValue, Msg.storeInt, int, h]
  cases parseInt text <;> simp [h]

theorem bind_intPtr (g : Option Int → Msg) {next' : Option Int → Option Msg}
    (hs : stored = w.elim (some (g none)) fun j => (Msg.storeIntPtr (toValue j)).map g)
    (h : ∀ p, next (g p) = next' p) : stored.bind next = (intPtr w).bind next' := by
  subst hs
  rcases w with _ | (_ | _ | text | _ | _ | _) <;> simp [toValue, Msg.storeIntPtr, intPtr, h]
  cases parseInt text <;> simp [h]

end Fields

theorem foldlM_all :
    (toMembers (object value Field.all)).foldlM Msg.storeMember { t := "" } =
      readJSON (.obj (object value Field.all)) := by
  rw [foldlM_object, readJSON_object]
  simp only [Field.all, List.foldlM_cons, List.foldlM_nil, Option.bind_eq_bind]
  refine bind_string (fun t => { t }) rfl fun t => ?_
  refine bind_string (fun token => { t, token }) rfl fun token => ?_
  refine bind_string (fun name => { t, token, name }) rfl fun name => ?_
  refine bind_string (fun ver => { t, token, name, ver }) rfl fun ver => ?_
  refine bind_bool (fun e2e => { t, token, name, ver, e2e }) rfl fun e2e => ?_
  refine bind_string (fun id => { t, token, name, ver, e2e, id }) rfl fun id => ?_
  refine bind_string (fun sid => { t, token, name, ver, e2e, id, sid }) rfl fun sid => ?_
  refine bind_string (fun data => { t, token, name, ver, e2e, id, sid, data }) rfl fun data => ?_
  refine bind_string (fun cmd => { t, token, name, ver, e2e, id, sid, data, cmd }) rfl fun cmd => ?_
  refine bind_intPtr (fun code => { t, token, name, ver, e2e, id, sid, data, cmd, code }) rfl
    fun code => ?_
  refine bind_int (fun c => { t, token, name, ver, e2e, id, sid, data, cmd, code, c }) rfl fun c => ?_
  refine bind_int (fun r => { t, token, name, ver, e2e, id, sid, data, cmd, code, c, r }) rfl fun r => ?_
  exact bind_string (fun msg => { t, token, name, ver, e2e, id, sid, data, cmd, code, c, r, msg }) rfl
    fun msg => rfl

-- The order of the members of an object does not matter, as long as no field occurs twice.

theorem swap {α β : Type} {a : Option α} {b : Option β} {k : α → β → Msg} :
    (a.bind fun x => b.map (k x)) = b.bind fun y => a.map fun x => k x y := by
  cases a <;> cases b <;> rfl

theorem store_comm {g : Field} {w : Value} (h : f ≠ g) :
    (m.store f v).bind (·.store g w) = (m.store g w).bind (·.store f v) := by
  cases f <;> cases g <;>
    first
    | exact absurd rfl h
    | simp only [Msg.store, Option.bind_map, Function.comp_def]
      exact swap

-- The names of an object are those of fields, each once.
structure Named (fields : List (String × Json)) : Prop where
  known : ∀ kv ∈ fields, ∃ f, kv.1 = Field.tag f
  once  : (fields.map (·.1)).Nodup

theorem toMembers_eq_map {l : List (String × Json)} :
    toMembers l = l.map fun kv => (kv.1.toList, toValue kv.2) := by
  induction l
  case nil     => rfl
  case cons hi => rw [toMembers, hi, List.map_cons]

theorem storeMember_tag : m.storeMember (f.tag.toList, v) = m.store f v := by
  simp only [Msg.storeMember, Field.tag, String.toList_ofList, Field.ofKey_key]

theorem foldlM_perm {l l' : List (String × Json)} (p : l.Perm l') (h : Named l) :
    (toMembers l).foldlM Msg.storeMember m = (toMembers l').foldlM Msg.storeMember m := by
  simp only [toMembers_eq_map, List.foldlM_eq_foldl, List.foldl_map]
  refine p.foldl_eq' (fun x hx y hy o => ?_) _
  by_cases same : x = y
  case pos => rw [same]
  case neg =>
    obtain ⟨f, hf⟩ := h.known x hx
    obtain ⟨g, hg⟩ := h.known y hy
    have other : f ≠ g := by
      rintro rfl
      exact same (List.inj_on_of_nodup_map h.once hx hy (hf.trans hg.symm))
    cases o
    case none => rfl
    case some m =>
      simp only [hf, hg, storeMember_tag, Option.bind_eq_bind, Option.bind_some]
      exact store_comm other

-- An object with the names of fields is the one that has a field's value where it has the name.

theorem lookup_of_mem {l : List (String × Json)} {k : String} (once : (l.map (·.1)).Nodup)
    (h : (k, j) ∈ l) : l.lookup k = some j := by
  induction l
  case nil => contradiction
  case cons kv l hi =>
    obtain ⟨fresh, once⟩ := List.nodup_cons.mp once
    obtain rfl | h := List.mem_cons.mp h
    case inl => exact List.lookup_cons_self
    case inr =>
      have used : k ∈ l.map (·.1) := List.mem_map_of_mem h
      have other : k ≠ kv.1 := by
        rintro rfl
        exact fresh used
      rw [List.lookup_cons, beq_false_of_ne other]
      exact hi once h

theorem tag_of_mem_object {k : String} (h : (k, j) ∈ object value fs) :
    ∃ f ∈ fs, k = f.tag ∧ value f = some j := by
  obtain ⟨f, hf, member⟩ := List.mem_filterMap.mp h
  obtain ⟨j', hj, same⟩ := Option.map_eq_some_iff.mp member
  cases same
  exact ⟨f, hf, rfl, hj⟩

theorem nodup_object (h : fs.Nodup) : (object value fs).Nodup := by
  refine h.filterMap fun f g kv hf hg => ?_
  obtain ⟨_, _, rfl⟩ := Option.map_eq_some_iff.mp hf
  obtain ⟨_, _, same⟩ := Option.map_eq_some_iff.mp hg
  exact Field.tag_injective (congrArg (·.1) same).symm

theorem perm_object {fields : List (String × Json)} (h : Named fields) :
    fields.Perm (object (fun f => fields.lookup f.tag) Field.all) := by
  refine (List.perm_ext_iff_of_nodup h.once.of_map (nodup_object (by decide))).mpr fun ⟨k, j⟩ => ⟨?_, ?_⟩
  case refine_1 =>
    intro member
    obtain ⟨f, rfl⟩ := h.known _ member
    have found : fields.lookup f.tag = some j := lookup_of_mem h.once member
    exact List.mem_filterMap.mpr ⟨f, f.mem_all, congrArg (Option.map (f.tag, ·)) found⟩
  case refine_2 =>
    intro member
    obtain ⟨f, _, rfl, found⟩ := tag_of_mem_object member
    obtain ⟨_, _, split, _⟩ := List.lookup_eq_some_iff.mp found
    simp [split]

theorem foldlM_eq_readJSON {fields : List (String × Json)} (h : Named fields) :
    (toMembers fields).foldlM Msg.storeMember { t := "" } = readJSON (.obj fields) := by
  rw [foldlM_perm (perm_object h) h, foldlM_all, readJSON_object]
  rfl

-- What is stored in a field is not nested.

theorem depth_of_store (h : m.store f v = some m') : v.depth = 0 := by
  cases v
  case arr => cases f <;> contradiction
  case obj => cases f <;> contradiction
  all_goals rfl

theorem depth_of_foldlM {fields : List (String × Json)} (known : ∀ kv ∈ fields, ∃ f, kv.1 = Field.tag f)
    (h : (toMembers fields).foldlM Msg.storeMember m = some m') :
    Value.membersDepth (toMembers fields) = 0 := by
  induction fields generalizing m
  case nil => rfl
  case cons kv fields hi =>
    obtain ⟨⟨f, hf⟩, known⟩ := List.forall_mem_cons.mp known
    rw [toMembers, List.foldlM_cons, hf, storeMember_tag] at h
    obtain ⟨_, stored, h⟩ := Option.bind_eq_some_iff.mp h
    simp [toMembers, Value.membersDepth, depth_of_store stored, hi known h]

-- A new frame is the same whether it is decoded from a value or from the text that the value was parsed
-- from.

theorem decode_toValue {fields : List (String × Json)} (h : Named fields) :
    Msg.decode (toValue (.obj fields)) = readJSON (.obj fields) := by
  rw [toValue, ← foldlM_eq_readJSON h, Msg.decode]
  split
  case isFalse => rfl
  case isTrue deep =>
    cases stored : (toMembers fields).foldlM Msg.storeMember { t := "" }
    case none => rfl
    case some =>
      simp [Value.depth, depth_of_foldlM h.known stored, Msg.maxNestingDepth] at deep

theorem readJSON_print {coded : Char → Bool} {fields : List (String × Json)} (h : Named fields)
    (hv : (toValue (.obj fields)).WellFormed) :
    Msg.readJSON (print coded (toValue (.obj fields))) = readJSON (.obj fields) := by
  simp only [Msg.readJSON, JsonText.read_print_whole hv, Option.bind_eq_bind, Option.bind_some]
  exact decode_toValue h

-- The frames of the relay.

theorem Named.of_sublist {fields : List (String × Json)} (fs : List Field)
    (h : (fields.map (·.1)).Sublist (fs.map Field.tag)) (hf : fs.Nodup) : Named fields where
  known kv hkv := by
    obtain ⟨f, _, same⟩ := List.mem_map.mp (h.subset (List.mem_map_of_mem hkv))
    exact ⟨f, same.symm⟩
  once := h.nodup (hf.map Field.tag_injective)

theorem named_frame (f : Frame) : ∃ fields, f.json = .obj fields ∧ Named fields := by
  have field {k : String} {v : Option Json} :
      ((v.map fun v => (k, v.printed)).toList.map (·.1)).Sublist [k] := by
    cases v <;> simp
  have flag : ((if f.e2e then [("e2e", Json.bool true)] else []).map (·.1)).Sublist ["e2e"] := by
    split <;> simp
  refine ⟨_, rfl, .of_sublist [.t, .id, .e2e, .sid, .data, .cmd, .code, .c, .r, .msg] ?_ (by decide)⟩
  simp only [List.map_append, List.map_cons]
  exact ((((((((field.cons_cons "t").append flag).append field).append field).append field).append
    field).append field).append field).append field

theorem readJSON_frame {coded : Char → Bool} {f : Frame} (hv : (toValue f.json).WellFormed) :
    Msg.readJSON (print coded (toValue f.json)) = readJSON f.json := by
  obtain ⟨fields, same, named⟩ := named_frame f
  rw [same] at hv ⊢
  exact readJSON_print named hv

end Proto
