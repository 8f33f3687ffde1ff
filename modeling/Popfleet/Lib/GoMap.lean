import Mathlib.Data.List.AList

-- The built-in maps of Go and JavaScript, as the association lists of Mathlib. Iteration visits the
-- entries in some order; no lemma below depends on which.
abbrev GoMap (κ ν : Type) := AList fun _ : κ => ν

namespace GoMap

variable {κ ν : Type} {m : GoMap κ ν} {k a : κ} {v w : ν} {p : κ → ν → Bool}

-- What is left of `m` after `for k, v := range m { if p(k, v) { delete(m, k) } }`.
def deleteWhere (m : GoMap κ ν) (p : κ → ν → Bool) : GoMap κ ν where
  entries := m.entries.filter fun e => !p e.1 e.2
  nodupKeys := m.nodupKeys.sublist List.filter_sublist

-- The values such a loop visits with `p(k, v)`.
def valuesWhere (m : GoMap κ ν) (p : κ → ν → Bool) : List ν :=
  (m.entries.filter fun e => p e.1 e.2).map (·.2)

def values (m : GoMap κ ν) : List ν :=
  m.entries.map (·.2)

theorem deleteWhere_comm {q : κ → ν → Bool} :
    (m.deleteWhere p).deleteWhere q = (m.deleteWhere q).deleteWhere p := by
  apply AList.ext
  simp only [deleteWhere, List.filter_filter, Bool.and_comm]

theorem valuesWhere_deleteWhere {q : ν → Bool} :
    (m.deleteWhere fun _ v => q v).valuesWhere p = (m.valuesWhere p).filter (!q ·) := by
  simp [valuesWhere, deleteWhere, List.filter_map, List.filter_filter, Function.comp_def, Bool.and_comm]

variable [DecidableEq κ]

-- `m[k]`.
def get? (m : GoMap κ ν) (k : κ) : Option ν :=
  m.lookup k

-- `m[k] = v`.
def set (m : GoMap κ ν) (k : κ) (v : ν) : GoMap κ ν :=
  m.insert k v

-- `delete(m, k)`.
def delete (m : GoMap κ ν) (k : κ) : GoMap κ ν :=
  m.erase k

theorem mem_entries_iff : ⟨k, v⟩ ∈ m.entries ↔ m.get? k = some v :=
  AList.mem_lookup_iff.symm

@[simp, grind =]
theorem get?_empty : (∅ : GoMap κ ν).get? k = none :=
  AList.lookup_empty k

@[simp, grind =]
theorem get?_set : (m.set k v).get? a = if a = k then some v else m.get? a := by
  by_cases h : a = k
  case pos => subst h; simp [get?, set, AList.lookup_insert]
  case neg => simp [get?, set, h, AList.lookup_insert_ne h]

@[simp, grind =]
theorem get?_delete : (m.delete k).get? a = if a = k then none else m.get? a := by
  by_cases h : a = k
  case pos => subst h; simp [get?, delete, AList.lookup_erase]
  case neg => simp [get?, delete, h, AList.lookup_erase_ne h]

theorem get?_deleteWhere_eq_some :
    (m.deleteWhere p).get? k = some v ↔ m.get? k = some v ∧ p k v = false := by
  simp [← mem_entries_iff, deleteWhere]

@[simp, grind =]
theorem get?_deleteWhere :
    (m.deleteWhere p).get? k = (m.get? k).filter fun v => !p k v := by
  ext v
  simp [get?_deleteWhere_eq_some, Option.filter_eq_some_iff]

-- What is found after an update, by where it was before.

theorem of_get?_set (h : (m.set k v).get? a = some w) :
    (a = k ∧ w = v) ∨ (a ≠ k ∧ m.get? a = some w) := by
  rw [get?_set] at h
  split at h
  case isTrue hk  => cases h; exact .inl ⟨hk, rfl⟩
  case isFalse hk => exact .inr ⟨hk, h⟩

theorem of_get?_delete (h : (m.delete k).get? a = some v) : a ≠ k ∧ m.get? a = some v := by
  rw [get?_delete] at h
  split at h
  case isTrue     => contradiction
  case isFalse hk => exact ⟨hk, h⟩

theorem mem_valuesWhere : v ∈ m.valuesWhere p ↔ ∃ k, m.get? k = some v ∧ p k v := by
  simp [valuesWhere, ← mem_entries_iff]

-- Values that determine their keys are visited once.
theorem valuesWhere_nodup (key : ν → κ) (h : ∀ k v, m.get? k = some v → key v = k) :
    (m.valuesWhere p).Nodup := by
  have keys : (m.entries.map (·.1)).Nodup := m.nodupKeys
  refine List.Nodup.of_map key ?_
  rw [valuesWhere, List.map_map]
  have same : (m.entries.filter fun e => p e.1 e.2).map (key ∘ (·.2)) =
      (m.entries.filter fun e => p e.1 e.2).map (·.1) := by
    refine List.map_congr_left fun e he => h e.1 e.2 ?_
    exact mem_entries_iff.mp (List.mem_of_mem_filter he)
  rw [same]
  exact keys.sublist (List.filter_sublist.map _)

theorem mem_values : v ∈ m.values ↔ ∃ k, m.get? k = some v := by
  simp [values, ← mem_entries_iff]

-- Such a loop after an update is the update after the loop.

theorem kerase_eq_filter {l : List (Sigma fun _ : κ => ν)} (h : l.NodupKeys) :
    l.kerase k = l.filter fun e => !decide (e.1 = k) := by
  induction l
  case nil => rfl
  case cons e l hi =>
    have ⟨fresh, nodup⟩ := List.nodupKeys_cons.mp h
    by_cases hk : k = e.1
    case neg => simp [List.kerase_cons_ne hk, hi nodup, Ne.symm hk]
    case pos =>
      have kept : (l.filter fun e => !decide (e.1 = k)) = l := by
        refine List.filter_eq_self.mpr fun e' he => ?_
        simp only [Bool.not_eq_true', decide_eq_false_iff_not]
        rintro hk'
        exact fresh (hk ▸ hk' ▸ List.mem_map_of_mem he)
      simp [List.kerase_cons_eq hk, hk.symm, kept]

theorem delete_eq : m.delete k = m.deleteWhere fun a _ => a = k :=
  AList.ext (kerase_eq_filter m.nodupKeys)

theorem deleteWhere_delete : (m.delete k).deleteWhere p = (m.deleteWhere p).delete k := by
  rw [delete_eq, delete_eq, deleteWhere_comm]

theorem deleteWhere_set :
    (m.set k v).deleteWhere p =
      if p k v then (m.deleteWhere p).delete k else (m.deleteWhere p).set k v := by
  have entries {m : GoMap κ ν} : (m.set k v).entries = ⟨k, v⟩ :: (m.delete k).entries :=
    AList.entries_insert
  have rest := congrArg AList.entries (deleteWhere_delete (m := m) (k := k) (p := p))
  apply AList.ext
  split
  case isTrue hp  => simpa [deleteWhere, entries, hp] using rest
  case isFalse hp => simpa [deleteWhere, entries, hp] using rest

theorem delete_of_none (h : m.get? k = none) : m.delete k = m :=
  AList.ext (List.kerase_of_notMem_keys (AList.lookup_eq_none.mp h))

-- Filling a map from a list whose keys are distinct: what is found is what was listed.
theorem get?_foldl_set {key : ν → κ} {l : List ν} (h : (l.map key).Nodup) (m : GoMap κ ν) :
    (l.foldl (fun m v => m.set (key v) v) m).get? k =
      match l.find? (key · = k) with
      | some v => some v
      | none   => m.get? k := by
  induction l generalizing m
  case nil => simp
  case cons hd tl ih =>
    have ⟨hd_notMem, tl_nodup⟩ := List.nodup_cons.mp h
    rw [List.foldl_cons, ih tl_nodup]
    by_cases hk : key hd = k
    case neg => simp [hk, Ne.symm hk]
    case pos =>
      have : tl.find? (key · = k) = none := by
        simp only [List.find?_eq_none, decide_eq_true_eq]
        intro v hv he
        exact hd_notMem (hk ▸ he ▸ List.mem_map_of_mem hv)
      simp [hk, this]

end GoMap
