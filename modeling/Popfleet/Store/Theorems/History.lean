import Popfleet.Store.History
import Popfleet.Store.Theorems.Save
import Popfleet.Store.Theorems.Open

open FileSystem

namespace Store

open save

-- What the three operations return and what they leave on the disk.
section Operations

variable {J : Codec} {path : Path} {s : Machines} {id name token ver : String} {now : Time}
  {v v' : Volume} {os os' : List Outcome}

theorem Mint_cases {r : Result (Machines × Option Machine)}
    (h : Mint J path s id name token v os = (r, v', os')) :
    (Old path v v' ∧ r = .value ((s.insert { id, name, token }).erase id, none)) ∨
    (∃ b, J.marshal (s.insert { id, name, token }).list = some b ∧ New path b v v' ∧
      r = .value (s.insert { id, name, token }, some { id, name, token })) ∨
    (Wrote J path (s.insert { id, name, token }) v v' ∧ r = .crashed) := by
  have e : Effect J path (s.insert { id, name, token }) v _ := effect v os
  rw [Mint, Prog.bind_apply] at h
  rcases hr : save J path (s.insert { id, name, token }) v os with ⟨ok | _, v₁, os₁⟩
  all_goals rw [hr] at h e
  case value =>
    cases e
    case failed o => cases h; exact .inl ⟨o, rfl⟩
    case saved hb n => cases h; exact .inr (.inl ⟨_, hb, n, rfl⟩)
  case crashed =>
    cases e
    case crashed w => cases h; exact .inr (.inr ⟨w, rfl⟩)

theorem Touch_cases {r : Result Machines} (h : Touch J path s id name ver now v os = (r, v', os')) :
    Wrote J path (s.touch id name ver now) v v' ∧
      (r = .value (s.touch id name ver now) ∨ r = .crashed) := by
  cases hs : s.get? id
  case none =>
    simp only [Touch, hs] at h
    cases h
    exact ⟨.old ⟨rfl, rfl⟩, .inl (by simp [Machines.touch, hs])⟩
  case some m =>
    have e : Effect J path (s.touch id name ver now) v _ := effect v os
    simp only [Touch, hs] at h
    rw [Prog.bind_apply] at h
    rcases hr : save J path (s.touch id name ver now) v os with ⟨ok | _, v₁, os₁⟩
    all_goals
      rw [hr] at h e
      cases h
    case value   => exact ⟨e.wrote, .inl rfl⟩
    case crashed => exact ⟨e.wrote, .inr rfl⟩

theorem Delete_cases {r : Result (Machines × Bool)} (h : Delete J path s id v os = (r, v', os')) :
    (s.get? id = none ∧ v' = v ∧ r = .value (s, false)) ∨
    ((s.get? id).isSome ∧ Wrote J path (s.erase id) v v' ∧
      (r = .value (s.erase id, true) ∨ r = .crashed)) := by
  cases hs : s.get? id
  case none =>
    simp only [Delete, hs] at h
    cases h
    exact .inl ⟨rfl, rfl, rfl⟩
  case some m =>
    have e : Effect J path (s.erase id) v _ := effect v os
    simp only [Delete, hs] at h
    rw [Prog.bind_apply] at h
    rcases hr : save J path (s.erase id) v os with ⟨ok | _, v₁, os₁⟩
    all_goals
      rw [hr] at h e
      cases h
    case value   => exact .inr ⟨rfl, e.wrote, .inl rfl⟩
    case crashed => exact .inr ⟨rfl, e.wrote, .inr rfl⟩

end Operations

namespace Sys

-- The graph of `Sys.step`, by what became of the operation.
inductive Step (J : Codec) (path : Path) (σ : Sys) : Call → Sys → Prop
  | opened {s} (hp : σ.proc = none) (h : opened J (σ.vol.disk path) = .store s) :
    Step J path σ .start { σ with proc := some s }
  | unopened (hp : σ.proc = none) : Step J path σ .start σ
  | minted {s id name token b v} (hp : σ.proc = some s)
    (hb : J.marshal (s.insert { id, name, token }).list = some b) (n : New path b σ.vol v) :
    Step J path σ (.mint id name token)
      (((σ.draw id token).after (s.insert { id, name, token }) v
        (some (s.insert { id, name, token }))).record (.minted { id, name, token }))
  | mintFailed {s id name token v} (hp : σ.proc = some s) (o : Old path σ.vol v) :
    Step J path σ (.mint id name token)
      ((σ.draw id token).after (s.insert { id, name, token }) v
        (some ((s.insert { id, name, token }).erase id)))
  | mintCrashed {s id name token v} (hp : σ.proc = some s)
    (w : Wrote J path (s.insert { id, name, token }) σ.vol v) :
    Step J path σ (.mint id name token)
      ((σ.draw id token).after (s.insert { id, name, token }) v none)
  | touched {s id name ver now v} (hp : σ.proc = some s)
    (w : Wrote J path (s.touch id name ver now) σ.vol v) :
    Step J path σ (.touch id name ver now)
      (σ.after (s.touch id name ver now) v (some (s.touch id name ver now)))
  | touchCrashed {s id name ver now v} (hp : σ.proc = some s)
    (w : Wrote J path (s.touch id name ver now) σ.vol v) :
    Step J path σ (.touch id name ver now) (σ.after (s.touch id name ver now) v none)
  | notFound {s id} (hp : σ.proc = some s) (hs : s.get? id = none) :
    Step J path σ (.delete id) (σ.record (.deleting id))
  | deleted {s id v} (hp : σ.proc = some s) (hs : (s.get? id).isSome)
    (w : Wrote J path (s.erase id) σ.vol v) :
    Step J path σ (.delete id)
      (((σ.record (.deleting id)).after (s.erase id) v (some (s.erase id))).record (.deleted id))
  | deleteCrashed {s id v} (hp : σ.proc = some s) (w : Wrote J path (s.erase id) σ.vol v) :
    Step J path σ (.delete id) ((σ.record (.deleting id)).after (s.erase id) v none)
  | stopped {s} (hp : σ.proc = some s) : Step J path σ .stop { σ with proc := none }

variable {J : Codec} {path : Path} {σ σ' : Sys} {c : Call} {os : List Outcome}

theorem Step.of (h : (history J path).step σ (c, os) = some σ') : Step J path σ c σ' := by
  cases c <;> simp only [history, step, Option.map_eq_some_iff] at h
  case start =>
    split at h
    case h_1 => contradiction
    case h_2 hp =>
      split at h <;> cases h
      case h_1 s v _ e =>
        have ⟨hs, hv⟩ := Open_store e
        exact hv ▸ .opened hp hs
      case h_2 e =>
        have hv : ∀ {r v os'}, Open J path σ.vol os = (r, v, os') → v = σ.vol := by
          intro r v os' e
          rw [Open_eq] at e
          split at e <;> cases e <;> rfl
        exact hv e ▸ .unopened hp
  case mint id name token =>
    have ⟨s, hp, h⟩ := h
    split at h
    all_goals
      subst h
      rename_i e
      rcases Mint_cases e with ⟨o, hr⟩ | ⟨b, hb, n, hr⟩ | ⟨w, hr⟩ <;> cases hr
    case h_1 => exact .minted hp hb n
    case h_2 => exact .mintFailed hp o
    case h_3 => exact .mintCrashed hp w
  case touch id name ver now =>
    have ⟨s, hp, h⟩ := h
    split at h
    all_goals
      subst h
      rename_i e
      rcases Touch_cases e with ⟨w, hr | hr⟩ <;> cases hr
    case h_1 => exact .touched hp w
    case h_2 => exact .touchCrashed hp w
  case delete id =>
    have ⟨s, hp, h⟩ := h
    split at h
    all_goals
      subst h
      rename_i e
      rcases Delete_cases e with ⟨hs, hv, hr⟩ | ⟨hs, w, hr | hr⟩ <;> cases hr
    case h_1 => exact .deleted hp hs w
    case h_2 =>
      have unchanged : (σ.record (.deleting id)).after (s.erase id) σ.vol (some s) =
          σ.record (.deleting id) := by simp [after, record, ← hp]
      rw [hv, show (σ.record _).vol = σ.vol from rfl, unchanged]
      exact .notFound hp hs
    case h_3 => exact .deleteCrashed hp w
  case stop =>
    have ⟨s, hp, h⟩ := h
    exact h ▸ .stopped hp

section Fields

variable {s : Machines} {v : Volume} {proc : Option Machines} {id token : String} {e : Event}

@[simp] theorem after_vol : (σ.after s v proc).vol = v := rfl
@[simp] theorem after_proc : (σ.after s v proc).proc = proc := rfl
@[simp] theorem after_drawn : (σ.after s v proc).drawn = σ.drawn := rfl
@[simp] theorem after_log : (σ.after s v proc).log = σ.log := rfl
@[simp] theorem draw_vol : (σ.draw id token).vol = σ.vol := rfl
@[simp] theorem draw_proc : (σ.draw id token).proc = σ.proc := rfl
@[simp] theorem draw_saved : (σ.draw id token).saved = σ.saved := rfl
@[simp] theorem draw_drawn : (σ.draw id token).drawn = (id, token) :: σ.drawn := rfl
@[simp] theorem draw_log : (σ.draw id token).log = σ.log := rfl
@[simp] theorem record_vol : (σ.record e).vol = σ.vol := rfl
@[simp] theorem record_proc : (σ.record e).proc = σ.proc := rfl
@[simp] theorem record_saved : (σ.record e).saved = σ.saved := rfl
@[simp] theorem record_drawn : (σ.record e).drawn = σ.drawn := rfl
@[simp] theorem record_log : (σ.record e).log = e :: σ.log := rfl

end Fields

-- The state file is absent when no save was completed, and else the encoding of the map saved last.
inductive Encodes (J : Codec) : Option Machines → Option Bytes → Prop
  | absent : Encodes J none none
  | file {s b} (hb : J.marshal s.list = some b) : Encodes J (some s) (some b)

theorem Encodes.wrote {s : Machines} {saved : Option Machines} {v v' : Volume}
    (h : Encodes J saved (v.disk path)) (w : Wrote J path s v v') :
    Encodes J (if v'.renames = v.renames then saved else some s) (v'.disk path) := by
  cases w
  case old o    => rw [if_pos o.right, o.left]; exact h
  case new hb n => rw [if_neg (by simp [n.right]), n.left]; exact .file hb

theorem Step.encodes (e : Step J path σ c σ') (h : Encodes J σ.saved (σ.vol.disk path)) :
    Encodes J σ'.saved (σ'.vol.disk path) := by
  cases e
  case opened | unopened | notFound | stopped => exact h
  case minted hb n  => exact h.wrote (.new hb n)
  case mintFailed o => exact h.wrote (.old o)
  case mintCrashed w | touched w | touchCrashed w | deleted w | deleteCrashed w => exact h.wrote w

theorem encodes (h : (history J path).Reachable σ) : Encodes J σ.saved (σ.vol.disk path) := by
  refine h.invariant (I := fun σ => Encodes J σ.saved (σ.vol.disk path)) ?_ ?_
  case refine_1 =>
    intro σ ⟨hd, _, hs, _⟩
    exact hs ▸ hd ▸ .absent
  case refine_2 => exact fun _ _ _ _ hi _ e => (Step.of e).encodes hi

end Sys
end Store
