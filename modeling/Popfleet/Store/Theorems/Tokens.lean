import Popfleet.Store.Theorems.History

open FileSystem

namespace Store

open save

namespace Sys

-- The tokens in memory and in the state file, by machine id.

def held (σ : Sys) (id : String) : Option String :=
  σ.proc.bind (·.tokenOf id)

def filed (σ : Sys) (id : String) : Option String :=
  σ.saved.bind (·.tokenOf id)

variable {J : Codec} {path : Path} {σ σ' : Sys} {c : Call} {s : Machines} {id : String}

theorem filed_old {v : Volume} (proc : Option Machines) (h : Old path σ.vol v) :
    (σ.after s v proc).filed = σ.filed := by
  funext
  simp [filed, after, h.right]

theorem filed_new {v : Volume} {b : Bytes} (proc : Option Machines) (h : New path b σ.vol v) :
    (σ.after s v proc).filed = s.tokenOf := by
  funext
  simp [filed, after, h.right]

theorem filed_after {v : Volume} (proc : Option Machines) (w : Wrote J path s σ.vol v) :
    (σ.after s v proc).filed = σ.filed ∨ (σ.after s v proc).filed = s.tokenOf := by
  cases w
  case old o    => exact .inl (filed_old proc o)
  case new hb n => exact .inr (filed_new proc n)

-- What a process reads back is what was filed.
theorem opened_tokenOf (h : Encodes J σ.saved (σ.vol.disk path))
    (ho : opened J (σ.vol.disk path) = .store s) : s.tokenOf = σ.filed := by
  funext id
  cases hs : σ.saved <;> cases hd : σ.vol.disk path <;> rw [hs, hd] at h <;> cases h
  case none.none.absent =>
    rw [hd, opened] at ho
    cases ho
    simp [filed, hs, Machines.tokenOf]
  case some.some.file s₀ _ hb =>
    obtain ⟨s', hs', same⟩ := opened_encoding hb
    rw [hd, hs'] at ho
    cases ho
    simp [filed, hs, Machines.tokenOf, same]

-- The tokens in the map that a call saves.
def saving (held : String → Option String) : Call → String → Option String
  | .mint id _ token => Function.update held id (some token)
  | .delete id       => Function.update held id none
  | _                => held

-- What a step does to the tokens. A process is lost by a crash or by stopping.
inductive Change (σ σ' : Sys) (c : Call) : Prop
  | same (proc : σ'.proc = σ.proc) (filed : σ'.filed = σ.filed)
  | loaded (held : σ'.held = σ.filed) (filed : σ'.filed = σ.filed)
  | returned (proc : σ.proc.isSome) (held : σ'.held = saving σ.held c)
    (filed : σ'.filed = saving σ.held c)
  | ignored (proc : σ.proc.isSome) (mint : ∀ id name token, c ≠ .mint id name token)
    (held : σ'.held = saving σ.held c) (filed : σ'.filed = σ.filed)
  | mintFailed {id name token} (proc : σ.proc.isSome) (mint : c = .mint id name token)
    (held : σ'.held = Function.update σ.held id none) (filed : σ'.filed = σ.filed)
  | lost (proc : σ.proc.isSome) (lost : σ'.proc = none)
    (filed : σ'.filed = σ.filed ∨ σ'.filed = saving σ.held c)

theorem held_eq_of_proc (h : σ'.proc = σ.proc) : σ'.held = σ.held := by
  funext
  simp [held, h]

theorem held_of_none (h : σ.proc = none) : σ.held id = none := by
  simp [held, h]

theorem tokenOf_eq_held (h : σ.proc = some s) : s.tokenOf = σ.held := by
  funext
  simp [held, h]

theorem insert_tokenOf (h : σ.proc = some s) {id name token : String} :
    (s.insert { id, name, token }).tokenOf = saving σ.held (.mint id name token) := by
  funext
  simp [saving, Function.update_apply, tokenOf_eq_held h]

theorem erase_tokenOf (h : σ.proc = some s) :
    (s.erase id).tokenOf = saving σ.held (.delete id) := by
  funext
  simp [saving, Function.update_apply, tokenOf_eq_held h]

theorem touch_tokenOf (h : σ.proc = some s) {name ver : String} {now : Time} :
    (s.touch id name ver now).tokenOf = saving σ.held (.touch id name ver now) := by
  funext
  simp [saving, tokenOf_eq_held h]

theorem Step.change (e : Step J path σ c σ') (h : Encodes J σ.saved (σ.vol.disk path)) :
    Change σ σ' c := by
  cases e
  case opened ho  => exact .loaded (opened_tokenOf h ho) rfl
  case unopened   => exact .same rfl rfl
  case notFound   => exact .same rfl rfl
  case stopped hp => exact .lost (by simp [hp]) rfl (.inl rfl)
  case minted hp hb n =>
    exact .returned (by simp [hp]) (insert_tokenOf hp) (filed_new none n |>.trans (insert_tokenOf hp))
  case mintFailed hp o =>
    refine .mintFailed (by simp [hp]) rfl ?_ (filed_old none o)
    funext
    simp only [held, after_proc, Option.bind_some, Machines.tokenOf_erase, Machines.tokenOf_insert,
      Function.update_apply, hp]
    grind
  case mintCrashed hp w =>
    exact .lost (by simp [hp]) rfl (filed_after none w |>.imp_right (·.trans (insert_tokenOf hp)))
  case touched hp w =>
    cases filed_after none w
    case inl h => exact .ignored (by simp [hp]) (by simp) (touch_tokenOf hp) h
    case inr h => exact .returned (by simp [hp]) (touch_tokenOf hp) (h.trans (touch_tokenOf hp))
  case deleted hp _ w =>
    cases filed_after none w
    case inl h => exact .ignored (by simp [hp]) (by simp) (erase_tokenOf hp) h
    case inr h => exact .returned (by simp [hp]) (erase_tokenOf hp) (h.trans (erase_tokenOf hp))
  case touchCrashed hp w =>
    exact .lost (by simp [hp]) rfl (filed_after none w |>.imp_right (·.trans (touch_tokenOf hp)))
  case deleteCrashed hp w =>
    exact .lost (by simp [hp]) rfl (filed_after none w |>.imp_right (·.trans (erase_tokenOf hp)))

def drawing : Call → List (String × String)
  | .mint id _ token => [(id, token)]
  | _                => []

theorem Step.drawn_eq (e : Step J path σ c σ') : σ'.drawn = drawing c ++ σ.drawn := by
  cases e <;> rfl

theorem Step.fresh (e : Step J path σ c σ') (h : σ'.Fresh) : σ.Fresh := by
  rw [Fresh, e.drawn_eq, List.map_append, List.map_append] at h
  exact ⟨h.left.of_append_right, h.right.of_append_right⟩

theorem Step.log_suffix (e : Step J path σ c σ') : σ.log <:+ σ'.log := by
  cases e <;> simp [List.suffix_cons_iff]

-- Only drawn pairs are ever held or filed, and what is held is filed as well.
structure Inv (σ : Sys) : Prop where
  held_filed  : ∀ {id t}, σ.held id = some t → σ.filed id = some t
  filed_drawn : ∀ {id t}, σ.filed id = some t → (id, t) ∈ σ.drawn

theorem mem_drawn_of_saving {held : String → Option String} {id t : String}
    (h : ∀ {id t}, held id = some t → (id, t) ∈ σ.drawn) (hs : saving held c id = some t) :
    (id, t) ∈ drawing c ++ σ.drawn := by
  cases c <;> simp only [saving, Function.update_apply, drawing] at hs ⊢ <;> grind

theorem saving_eq_some_of_ne_mint {held : String → Option String} {id t : String}
    (hc : ∀ id name token, c ≠ .mint id name token) (h : saving held c id = some t) :
    held id = some t := by
  cases c <;> simp only [saving, Function.update_apply] at h <;> grind

theorem Step.inv (e : Step J path σ c σ') (h : Encodes J σ.saved (σ.vol.disk path)) (hi : Inv σ) :
    Inv σ' := by
  have saving_drawn {id t} (hs : saving σ.held c id = some t) : (id, t) ∈ σ'.drawn :=
    e.drawn_eq ▸ mem_drawn_of_saving (fun h => hi.filed_drawn (hi.held_filed h)) hs
  have filed_drawn {id t} (hf : σ.filed id = some t) : (id, t) ∈ σ'.drawn := by
    rw [e.drawn_eq]
    exact List.mem_append_right _ (hi.filed_drawn hf)
  cases e.change h
  case same proc filed =>
    exact ⟨by rw [held_eq_of_proc proc, filed]; exact hi.held_filed, by rw [filed]; exact filed_drawn⟩
  case loaded held filed => exact ⟨by rw [held, filed]; exact id, by rw [filed]; exact filed_drawn⟩
  case returned _ held filed =>
    exact ⟨by rw [held, filed]; exact id, by rw [filed]; exact saving_drawn⟩
  case ignored _ hc held filed =>
    refine ⟨fun h => ?_, by rw [filed]; exact filed_drawn⟩
    rw [held] at h
    rw [filed]
    exact hi.held_filed (saving_eq_some_of_ne_mint hc h)
  case mintFailed held filed =>
    refine ⟨fun h => ?_, by rw [filed]; exact filed_drawn⟩
    rw [held, Function.update_apply] at h
    rw [filed]
    split at h
    case isTrue => contradiction
    case isFalse => exact hi.held_filed h
  case lost _ lost filed =>
    refine ⟨fun h => by rw [held_of_none lost] at h; contradiction, fun h => ?_⟩
    cases filed
    case inl filed => exact filed_drawn (filed ▸ h)
    case inr filed => exact saving_drawn (filed ▸ h)

theorem inv (h : (history J path).Reachable σ) : Inv σ := by
  induction h
  case init hi =>
    have ⟨_, _, hs, _, _⟩ := hi
    constructor <;> simp_all [held, filed]
  case step h _ e hi => exact (Step.of e).inv (encodes h) hi

end Sys
end Store
