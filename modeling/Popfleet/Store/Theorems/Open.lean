import Popfleet.Store.Basic

open FileSystem

namespace Store

namespace Machines

variable {s s' : Machines} {m : Machine} {id : String}

theorem mem_list : m ∈ s.list ↔ s.get? m.id = some m := by
  rw [list, List.mem_insertionSort, GoMap.mem_values]
  constructor
  case mp =>
    intro ⟨id, h⟩
    exact (s.keyed h).symm ▸ h
  case mpr => exact fun h => ⟨m.id, h⟩

theorem list_ids_nodup (s : Machines) : (s.list.map (·.id)).Nodup := by
  have keys : s.map.values.map (·.id) = s.map.keys := by
    simp only [GoMap.values, AList.keys, List.keys, List.map_map]
    refine List.map_congr_left fun e he => ?_
    exact s.keyed (GoMap.mem_entries_iff.mp he)
  have sorted : s.list.map (·.id) |>.Perm (s.map.values.map (·.id)) :=
    (List.perm_insertionSort _ _).map _
  exact sorted.nodup_iff.mpr (keys ▸ s.map.nodupKeys)

theorem find?_list : s.list.find? (·.id = id) = s.get? id := by
  cases h : s.get? id
  case none =>
    simp only [List.find?_eq_none, decide_eq_true_eq]
    rintro m hm rfl
    simp [mem_list.mp hm] at h
  case some m =>
    have hm : m ∈ s.list := mem_list.mpr ((id_of_get? h).symm ▸ h)
    cases hf : s.list.find? (·.id = id)
    case none =>
      simp only [List.find?_eq_none, decide_eq_true_eq] at hf
      exact absurd (id_of_get? h) (hf m hm)
    case some m' =>
      have hi : m'.id = id := by simpa using List.find?_some hf
      have hm' := mem_list.mp (List.mem_of_find?_eq_some hf)
      rw [hi, h] at hm'
      exact hm'.symm

theorem map_foldl_insert {l : List Machine} :
    (l.foldl insert s).map = l.foldl (fun m v => m.set v.id v) s.map := by
  induction l generalizing s
  case nil => rfl
  case cons hi => exact hi

end Machines

variable {J : Codec} {path : Path} {s s' : Machines} {b : Bytes} {v v' : Volume}
  {os os' : List Outcome}

theorem load_map_some {l : List Machine} : load (l.map some) s = .store (l.foldl .insert s) := by
  induction l generalizing s
  case nil => rfl
  case cons hi => exact hi

-- Encoding a map and loading the result gives the map back.
theorem load_list : ∃ s', load (s.list.map some) ∅ = .store s' ∧ ∀ id, s'.get? id = s.get? id := by
  refine ⟨_, load_map_some, fun id => ?_⟩
  rw [Machines.get?, Machines.map_foldl_insert, GoMap.get?_foldl_set s.list_ids_nodup,
    Machines.find?_list]
  cases s.get? id
  case none => exact GoMap.get?_empty
  case some => rfl

-- What `Open` makes of the content of the state file.
def opened (J : Codec) : Option Bytes → OpenResult
  | none   => .store ∅
  | some b => (J.unmarshal b).elim .err (load · ∅)

-- `Open` only reads, and either fails or goes by the content of the state file.
theorem Open_eq :
    Open J path v os =
      match os.headD .ok with
      | .ok     => (.value (opened J (v.disk path)), v, os.tail)
      | .fail _ => (.value .err, v, os.tail)
      | _       => (.crashed, v, os.tail) := by
  rw [Open, Prog.bind_apply, readFile]
  cases os.headD .ok <;> try rfl
  case ok =>
    cases hd : v.disk path
    case none => rfl
    case some b =>
      simp only [Option.elim_some, opened]
      cases J.unmarshal b <;> rfl

theorem Open_store (h : Open J path v os = (.value (.store s), v', os')) :
    opened J (v.disk path) = .store s ∧ v' = v := by
  rw [Open_eq] at h
  split at h <;> simp only [Prod.mk.injEq, Result.value.injEq, reduceCtorEq, false_and] at h
  exact ⟨h.left, h.right.left.symm⟩

theorem Open_of_opened (h : opened J (v.disk path) = .store s) :
    Open J path v [] = (.value (.store s), v, []) := by
  simp [Open_eq, h]

theorem opened_encoding (h : J.marshal s.list = some b) :
    ∃ s', opened J (some b) = .store s' ∧ ∀ id, s'.get? id = s.get? id := by
  simpa only [opened, J.unmarshal_marshal h, Option.elim_some] using load_list

end Store
