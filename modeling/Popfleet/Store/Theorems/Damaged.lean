import Popfleet.Store.Theorems.Durability

open FileSystem

namespace Store

-- An error, or a store with one machine for each element of the array in the file, each under its own
-- id.
inductive OpenResult.Keeps (J : Codec) (b : Bytes) : OpenResult → Prop
  | err : Keeps J b .err
  | store {s} {ms : List Machine} (h : J.unmarshal b = some (ms.map some))
    (each : ∀ m ∈ ms, s.get? m.id = some m)
    (count : s.list.length = ms.length) : Keeps J b (.store s)

variable {J : Codec} {path : Path} {s : Machines} {b : Bytes} {ms : List Machine} {m : Machine}
  {id : String}

theorem load_panics {l : List (Option Machine)} (h : none ∈ l) : load l s = .panic := by
  induction l generalizing s
  case nil => contradiction
  case cons hd tl hi =>
    cases hd
    case none => rfl
    case some => exact hi (by simpa using h)

theorem exists_eq_map_some {l : List (Option Machine)} (h : none ∉ l) :
    ∃ ms : List Machine, l = ms.map some := by
  induction l
  case nil => exact ⟨[], rfl⟩
  case cons hd tl hi =>
    have ⟨present, rest⟩ := not_or.mp (List.mem_cons.not.mp h)
    obtain ⟨m, rfl⟩ := Option.ne_none_iff_exists'.mp (Ne.symm present)
    obtain ⟨ms, rfl⟩ := hi rest
    exact ⟨m :: ms, rfl⟩

namespace Machines

theorem list_nodup (s : Machines) : s.list.Nodup :=
  s.list_ids_nodup.of_map

theorem mem_of_foldl_insert (h : (ms.foldl insert s).get? id = some m) :
    m ∈ ms ∨ s.get? id = some m := by
  induction ms generalizing s
  case nil => exact .inr h
  case cons hd tl hi =>
    cases hi h
    case inl hm => exact .inl (List.mem_cons_of_mem _ hm)
    case inr hs =>
      rw [get?_insert] at hs
      split at hs
      case isTrue  => cases hs; exact .inl List.mem_cons_self
      case isFalse => exact .inr hs

theorem get?_foldl_insert (hn : (ms.map (·.id)).Nodup) (hm : m ∈ ms) :
    (ms.foldl insert s).get? m.id = some m := by
  rw [get?, map_foldl_insert, GoMap.get?_foldl_set hn]
  cases hf : ms.find? (·.id = m.id)
  case none =>
    simp only [List.find?_eq_none, decide_eq_true_eq] at hf
    exact absurd rfl (hf m hm)
  case some m' =>
    have same : m'.id = m.id := by simpa using List.find?_some hf
    rw [List.inj_on_of_nodup_map hn (List.mem_of_find?_eq_some hf) hm same]

theorem list_perm (count : (ms.foldl insert ∅).list.length = ms.length) :
    (ms.foldl insert ∅).list.Perm ms := by
  have listed : (ms.foldl insert ∅).list.Subperm ms :=
    List.subperm_of_subset (list_nodup _) fun m hm =>
      (mem_of_foldl_insert (mem_list.mp hm)).resolve_right (by simp)
  exact listed.perm_of_length_le count.ge

-- All elements of a list are found in the map that it fills if and only if no two of them have one id.
theorem list_perm_iff : (ms.foldl insert ∅).list.Perm ms ↔ (ms.map (·.id)).Nodup := by
  constructor
  case mp => exact fun h => (h.map _).nodup_iff.mp (list_ids_nodup _)
  case mpr =>
    intro hn
    refine (List.perm_ext_iff_of_nodup (list_nodup _) hn.of_map).mpr fun m => ?_
    rw [mem_list]
    exact ⟨fun h => (mem_of_foldl_insert h).resolve_right (by simp), get?_foldl_insert hn⟩

end Machines

-- The loop of `Open` keeps all machines that have an id of their own.
theorem keeps_opened_iff :
    (opened J (some b)).Keeps J b ↔
      J.unmarshal b = none ∨
        ∃ ms : List Machine, J.unmarshal b = some (ms.map some) ∧ (ms.map (·.id)).Nodup := by
  have opened_eq : opened J (some b) = (J.unmarshal b).elim .err (load · ∅) := rfl
  rw [opened_eq]
  cases hu : J.unmarshal b
  case none => exact iff_of_true .err (.inl rfl)
  case some l =>
    simp only [Option.elim_some, reduceCtorEq, Option.some.injEq, false_or]
    by_cases null : none ∈ l
    case pos =>
      rw [load_panics null]
      refine iff_of_false (by rintro ⟨⟩) ?_
      rintro ⟨ms, rfl, _⟩
      simp at null
    case neg =>
      obtain ⟨ms, rfl⟩ := exists_eq_map_some null
      rw [load_map_some]
      constructor
      case mp =>
        rintro (_ | ⟨h, each, count⟩)
        have same := Option.some.inj (hu.symm.trans h)
        obtain rfl := List.map_injective_iff.mpr (Option.some_injective _) same
        exact ⟨ms, rfl, Machines.list_perm_iff.mp (Machines.list_perm count)⟩
      case mpr =>
        rintro ⟨ms', same, hn⟩
        obtain rfl : ms = ms' := List.map_injective_iff.mpr (Option.some_injective _) same
        exact .store hu (fun m => Machines.get?_foldl_insert hn)
          (Machines.list_perm_iff.mpr hn).length_eq

-- `Open` makes an error of the state file, or keeps all its machines, if and only if the file is no array
-- of machines or has neither null among them nor two of one id.
theorem open_keeps_iff :
    (∀ v os r v' os', v.disk path = some b → Open J path v os = (.value r, v', os') → r.Keeps J b) ↔
      J.unmarshal b = none ∨
        ∃ ms : List Machine, J.unmarshal b = some (ms.map some) ∧ (ms.map (·.id)).Nodup := by
  rw [← keeps_opened_iff]
  constructor
  case mp =>
    intro h
    let v : Volume := { disk := fun _ => some b, renames := [] }
    exact h v [] _ _ _ rfl (Open_eq ..)
  case mpr =>
    intro h v os r v' os' hd e
    rw [Open_eq, hd] at e
    split at e <;> cases e
    case h_1 => exact h
    case h_2 => exact .err

-- The codec that also reads some texts which nothing is encoded as.
def Codec.reading (J : Codec) (t : List (Bytes × List (Option Machine)))
    (h : ∀ e ∈ t, J.unmarshal e.1 = none) : Codec where
  marshal     := J.marshal
  unmarshal b := ((t.find? (·.1 = b)).map (·.2)).orElse fun _ => J.unmarshal b
  unmarshal_marshal := by
    intro l b hl
    have read := J.unmarshal_marshal hl
    have other : t.find? (·.1 = b) = none := by
      simp only [List.find?_eq_none, decide_eq_true_eq]
      rintro e he rfl
      simp [h e he] at read
    simpa [other] using read

-- A file with null for a machine, and one that has two machines of one id.

def nullFile : Bytes :=
  Codec.ascii "[null]"

def doubleFile : Bytes :=
  Codec.ascii "[\x7b\"id\":\"5c\",\"token\":\"e2\"\x7d,\x7b\"id\":\"5c\",\"token\":\"e1\"\x7d]"

set_option maxRecDepth 4096 in
def Codec.damaged : Codec := Codec.sample.reading
  [(nullFile, [none]),
   (doubleFile, [some { id := "5c", token := "e2" }, some { id := "5c", token := "e1" }])]
  (by decide)

set_option maxRecDepth 4096 in
-- `Open` panics on the first, and keeps one machine of the second. A save then takes the other one out
-- of the file.
theorem damaged_file_absorbed :
    let file (b : Bytes) : Volume := { disk := fun _ => some b, renames := [] }
    (Open .damaged "popfleet.json" (file nullFile) []).1 = .value .panic ∧
    ∃ s, Open .damaged "popfleet.json" (file doubleFile) [] = (.value (.store s), file doubleFile, []) ∧
      Codec.damaged.unmarshal doubleFile =
        some [some { id := "5c", token := "e2" }, some { id := "5c", token := "e1" }] ∧
      s.list = [{ id := "5c", token := "e1" }] ∧
      ∃ v b, save .damaged "popfleet.json" s (file doubleFile) [] = (.value true, v, []) ∧
        v.disk "popfleet.json" = some b ∧
        Codec.damaged.unmarshal b = some [some { id := "5c", token := "e1" }] := by
  intro file
  exact ⟨rfl, _, rfl, by decide, by decide, _, _, rfl, rfl, by decide⟩

end Store
