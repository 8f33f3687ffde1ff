import Popfleet.Store.Basic

open FileSystem

namespace Store

variable {J : Codec} {path : Path} {s : Machines} {b : Bytes}

theorem tmp_ne_path : path ++ ".tmp" ≠ path := by
  intro h
  simpa using congrArg String.length h

namespace save

-- The state file and the renames are as they were before the save.
def Old (path : Path) (v₀ v : Volume) : Prop :=
  v.disk path = v₀.disk path ∧ v.renames = v₀.renames

-- The rename of the save took effect.
def New (path : Path) (b : Bytes) (v₀ v : Volume) : Prop :=
  v.disk path = some b ∧ v.renames = v₀.renames ++ [(path ++ ".tmp", path)]

variable {v₀ : Volume}

theorem Old.put {v : Volume} {c : Option Bytes} (h : Old path v₀ v) :
    Old path v₀ (v.put (path ++ ".tmp") c) := by
  simpa [Old, tmp_ne_path.symm] using h

-- Before the rename no call touches the state file, and what is renamed is the whole encoding.
theorem triple (hb : J.marshal s.list = some b) :
    Triple (Old path v₀) (save J path s)
      (fun ok v => if ok then New path b v₀ v else Old path v₀ v)
      (fun v => Old path v₀ v ∨ New path b v₀ v) := by
  let Holds (c : Bytes) (v : Volume) := Old path v₀ v ∧ v.disk (path ++ ".tmp") = some c
  have removed : Triple (Old path v₀) (remove (path ++ ".tmp")) (fun _ => Old path v₀)
      (fun v => Old path v₀ v ∨ New path b v₀ v) :=
    .call (fun v h _ => ⟨h.put, .inl h.put⟩) (fun v h => ⟨h, .inl h⟩) (fun v _ h => ⟨h, .inl h⟩)
  have opened : Triple (Old path v₀) (openExcl (path ++ ".tmp"))
      (fun ok v => if ok then Holds [] v else Old path v₀ v)
      (fun v => Old path v₀ v ∨ New path b v₀ v) :=
    .call (fun v h _ => ⟨⟨h.put, by simp⟩, .inl h.put⟩) (fun v h => ⟨h, .inl h⟩)
      (fun v _ h => ⟨h, .inl h⟩)
  have written : Triple (Holds []) (write (path ++ ".tmp") b)
      (fun ok v => if ok then Holds b v else Old path v₀ v)
      (fun v => Old path v₀ v ∨ New path b v₀ v) :=
    .call (fun v h _ => ⟨⟨h.left.put, by simp [h.right]⟩, .inl h.left.put⟩)
      (fun v h => ⟨h.left, .inl h.left⟩) (fun v _ h => ⟨h.left.put, .inl h.left.put⟩)
  have closed (I : Volume → Prop) (hI : ∀ v, I v → Old path v₀ v) :
      Triple I (close (path ++ ".tmp")) (fun _ => I) (fun v => Old path v₀ v ∨ New path b v₀ v) :=
    .call (fun v h _ => ⟨h, .inl (hI v h)⟩) (fun v h => ⟨h, .inl (hI v h)⟩)
      (fun v _ h => ⟨h, .inl (hI v h)⟩)
  have renamed : Triple (Holds b) (rename (path ++ ".tmp") path)
      (fun ok v => if ok then New path b v₀ v else Old path v₀ v)
      (fun v => Old path v₀ v ∨ New path b v₀ v) := by
    refine .call (fun v h _ => ?_) (fun v h => ⟨h.left, .inl h.left⟩)
      (fun v _ h => ⟨h.left, .inl h.left⟩)
    have : New path b v₀ { (v.put path (v.disk (path ++ ".tmp"))).put (path ++ ".tmp") none with
        renames := v.renames ++ [(path ++ ".tmp", path)] } := by
      simp [New, tmp_ne_path.symm, h.right, h.left.right]
    exact ⟨this, .inr this⟩
  simp only [save, hb]
  refine .bind removed fun _ => .bind opened fun ok => .ite (fun hok => ?_) fun hok => ?_
  case refine_1 => exact .pure fun v h => by simp_all
  refine .bind (written.strengthen fun v h => by simp_all) fun ok => .ite (fun hok => ?_) fun hok => ?_
  case refine_1 =>
    refine .bind (closed (Old path v₀) (fun _ h => h) |>.strengthen fun v h => by simp_all) fun _ => ?_
    exact .pure fun v h => by simpa using h
  refine .bind (closed (Holds b) (fun _ h => h.left) |>.strengthen fun v h => by simp_all) fun ok => ?_
  exact .ite (fun _ => .pure fun v h => h.left) fun _ => renamed

-- The save left the state file alone or replaced it by the encoding of the map.
inductive Wrote (J : Codec) (path : Path) (s : Machines) (v v' : Volume) : Prop
  | old (h : Old path v v')
  | new {b : Bytes} (hb : J.marshal s.list = some b) (h : New path b v v')

-- A save that returns an error left the state file alone, one that returns nil replaced it. When the
-- machine stops during the save, either may be the case.
inductive Effect (J : Codec) (path : Path) (s : Machines) (v : Volume) :
    Result Bool × Volume × List Outcome → Prop
  | failed {v' os} (h : Old path v v') : Effect J path s v (.value false, v', os)
  | saved {b v' os} (hb : J.marshal s.list = some b) (h : New path b v v') :
    Effect J path s v (.value true, v', os)
  | crashed {v' os} (w : Wrote J path s v v') : Effect J path s v (.crashed, v', os)

theorem effect (v : Volume) (os : List Outcome) : Effect J path s v (save J path s v os) := by
  cases hb : J.marshal s.list
  case none =>
    have : save J path s v os = (.value false, v, os) := by simp only [save, hb]; rfl
    exact this ▸ .failed ⟨rfl, rfl⟩
  case some b =>
    have t : Triple (Old path v) (save J path s) _ _ := triple hb
    have h := t v os ⟨rfl, rfl⟩
    rcases hr : save J path s v os with ⟨ok | _, v', os'⟩ <;> rw [hr] at h
    case value =>
      cases ok
      case false => exact .failed h
      case true  => exact .saved hb h
    case crashed =>
      cases h
      case inl h => exact .crashed (.old h)
      case inr h => exact .crashed (.new hb h)

theorem Effect.wrote {r : Result Bool} {v v' : Volume} {os : List Outcome}
    (e : Effect J path s v (r, v', os)) : Wrote J path s v v' := by
  cases e
  case failed h   => exact .old h
  case saved hb h => exact .new hb h
  case crashed w  => exact w

end save
end Store
