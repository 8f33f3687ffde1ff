import Popfleet.Store.Theorems.Durability

open FileSystem

namespace Store

namespace save

variable {J : Codec} {path : Path} {s : Machines} {v v' : Volume} {os os' : List Outcome}

-- The calls of a save meet no fault, except that `Remove` may fail when there is no stale file.
def Completes (J : Codec) (path : Path) (s : Machines) (v : Volume) (os : List Outcome) : Prop :=
  (J.marshal s.list).isSome ∧
  (os.headD .ok = .ok ∨ v.disk (path ++ ".tmp") = none) ∧
  ∀ o ∈ (os.drop 1).take 4, o = .ok

theorem forall_mem_take_succ {n : Nat} :
    (∀ o ∈ os.take (n + 1), o = .ok) ↔ os.headD .ok = .ok ∧ ∀ o ∈ os.tail.take n, o = .ok := by
  cases os <;> simp

theorem value_iff {ok : Bool} (h : save J path s v os = (.value ok, v', os')) :
    ok = true ↔ Completes J path s v os := by
  cases hb : J.marshal s.list
  case none =>
    simp only [save, hb] at h
    cases h
    simp [Completes, hb]
  case some b =>
    simp only [save, hb] at h
    simp only [Completes, hb, List.drop_one, forall_mem_take_succ]
    obtain ⟨_, v₁, removed, h⟩ := Prog.call_bind_eq_value h
    obtain ⟨_, v₂, opened, h⟩ := Prog.call_bind_eq_value h
    have free : v₁.disk (path ++ ".tmp") = none ↔
        os.headD .ok = .ok ∨ v.disk (path ++ ".tmp") = none := by
      generalize os.headD .ok = o₁ at removed ⊢
      cases removed <;> simp_all
    rw [← free]
    generalize os.tail.headD .ok = o₂ at opened ⊢
    cases opened
    case failed => cases h; simp
    case refused hp =>
      have taken : v₁.disk (path ++ ".tmp") ≠ none := by simpa [Option.isSome_iff_ne_none] using hp
      cases h
      simp [taken]
    case done hp =>
      simp only [Bool.not_true] at h
      obtain ⟨_, v₃, written, h⟩ := Prog.call_bind_eq_value h
      generalize os.tail.tail.headD .ok = o₃ at written ⊢
      cases written
      case failed =>
        obtain ⟨_, _, _, h⟩ := Prog.call_bind_eq_value h
        cases h
        simp
      case refused hp => simp at hp
      case done =>
        obtain ⟨_, v₄, closed, h⟩ := Prog.call_bind_eq_value h
        generalize os.tail.tail.tail.headD .ok = o₄ at closed ⊢
        cases closed
        case failed => cases h; simp
        case refused hp => simp at hp
        case done =>
          obtain ⟨renamed, _⟩ := Prog.Returned.of (show rename _ _ _ _ = _ from h)
          generalize os.tail.tail.tail.tail.headD .ok = o₅ at renamed ⊢
          cases renamed
          case failed => simp
          case refused => simp_all
          case done => simp_all

end save

variable {J : Codec} {path : Path} {s : Machines} {id : String}

-- A `Delete` that returns true has replaced the state file just when its save completed.
theorem Delete_true {s' : Machines} {v v' : Volume} {os os' : List Outcome}
    (h : Delete J path s id v os = (.value (s', true), v', os')) :
    s' = s.erase id ∧
      ((save.Completes J path (s.erase id) v os ∧ ∃ b, save.New path b v v') ∨
        (¬save.Completes J path (s.erase id) v os ∧ save.Old path v v')) := by
  cases hs : s.get? id
  case none =>
    simp only [Delete, hs] at h
    cases h
  case some m =>
    have e : save.Effect J path (s.erase id) v _ := save.effect v os
    simp only [Delete, hs] at h
    rw [Prog.bind_apply] at h
    rcases hr : save J path (s.erase id) v os with ⟨ok | _, v₁, os₁⟩ <;> rw [hr] at h e <;> cases h
    have completes := save.value_iff hr
    cases e
    case failed o   => exact ⟨rfl, .inr ⟨by simpa using completes, o⟩⟩
    case saved hb n => exact ⟨rfl, .inl ⟨by simpa using completes, _, n⟩⟩

namespace Sys

variable {σ σ' : Sys} {c : Call} {m : Machine} {token : String} {os : List Outcome}

-- The id and the token of a deleted machine are neither held nor filed.
structure Gone (σ : Sys) (id token : String) : Prop where
  drawn : (id, token) ∈ σ.drawn
  filed : σ.filed id = none
  held  : σ.held id = none

theorem Step.gone (e : Step J path σ c σ') (h : Encodes J σ.saved (σ.vol.disk path)) (hf : σ'.Fresh)
    (hg : Gone σ id token) : Gone σ' id token := by
  have fresh : (drawing c ++ σ.drawn).map (·.1) |>.Nodup := e.drawn_eq ▸ hf.left
  have drawn : (id, token) ∈ σ'.drawn := e.drawn_eq ▸ List.mem_append_right _ hg.drawn
  have saving : saving σ.held c id = none := by
    by_cases hc : c = .delete id
    case pos => rw [hc]; exact Function.update_self ..
    case neg => exact (saving_eq_of_drawn fresh hg.drawn hc).trans hg.held
  cases e.change h
  case same proc filed => exact ⟨drawn, filed ▸ hg.filed, held_eq_of_proc proc ▸ hg.held⟩
  case loaded held filed => exact ⟨drawn, filed ▸ hg.filed, held ▸ hg.filed⟩
  case returned held filed => exact ⟨drawn, filed ▸ saving, held ▸ saving⟩
  case ignored held filed => exact ⟨drawn, filed ▸ hg.filed, held ▸ saving⟩
  case mintFailed held filed =>
    refine ⟨drawn, filed ▸ hg.filed, held ▸ ?_⟩
    rw [Function.update_apply]
    split
    case isTrue  => rfl
    case isFalse => exact hg.held
  case lost lost filed =>
    refine ⟨drawn, ?_, held_of_none lost⟩
    cases filed
    case inl filed => exact filed ▸ hg.filed
    case inr filed => exact filed ▸ saving

-- From `σ` on, no store opened from the state file resolves the id or the token.
def Revoked (J : Codec) (path : Path) (σ : Sys) (id token : String) : Prop :=
  ∀ ls σ' os s v os', (history J path).run σ ls = some σ' → σ'.Fresh →
    Open J path σ'.vol os = (.value (.store s), v, os') →
    s.byID id = none ∧ s.byToken token = none

theorem run_fresh {ls : List (Call × List Outcome)} (e : (history J path).run σ ls = some σ')
    (hf : σ'.Fresh) : σ.Fresh := by
  induction ls generalizing σ
  case nil => cases e; exact hf
  case cons l ls hi =>
    have ⟨σ₁, e₁, e⟩ := Transition.run_cons_eq_some.mp e
    exact (Step.of e₁).fresh (hi e)

theorem Gone.run {ls : List (Call × List Outcome)} (h : (history J path).Reachable σ)
    (hg : Gone σ id token) (e : (history J path).run σ ls = some σ') (hf : σ'.Fresh) :
    Gone σ' id token := by
  induction ls generalizing σ
  case nil => cases e; exact hg
  case cons l ls hi =>
    have ⟨σ₁, e₁, e⟩ := Transition.run_cons_eq_some.mp e
    have reachable : (history J path).Reachable σ₁ := .step h trivial e₁
    have fresh : σ₁.Fresh := run_fresh e hf
    exact hi reachable ((Step.of e₁).gone (encodes h) fresh hg) e

theorem Gone.revoked (h : (history J path).Reachable σ) (hg : Gone σ id token) :
    Revoked J path σ id token := by
  intro ls σ' os s v os' e hf ho
  have reachable := h.run e
  have ⟨drawn, filed, _⟩ := hg.run h e hf
  have ho := (Open_store ho).left
  have tokenOf_id : s.tokenOf id = none := opened_tokenOf (encodes reachable) ho ▸ filed
  refine ⟨by simpa [Machines.byID, Machines.tokenOf] using tokenOf_id, ?_⟩
  cases hs : s.byToken token
  case none => rfl
  case some m =>
    have ht := Machines.byToken_eq_some hs
    have drawn' := tokenOf_opened reachable ho ht
    have same : m.id = id := congrArg (·.1) (List.inj_on_of_nodup_map hf.right drawn' drawn rfl)
    rw [same, tokenOf_id] at ht
    contradiction

theorem step_delete {s' : Machines} {v : Volume} {os' : List Outcome} (hp : σ.proc = some s)
    (hd : Delete J path s id σ.vol os = (.value (s', true), v, os')) :
    (history J path).step σ (.delete id, os) =
      some (((σ.record (.deleting id)).after (s.erase id) v (some s')).record (.deleted id)) := by
  simp [history, step, hp, hd]

-- A revoked machine stays revoked after a restart just when the save of its `Delete` completed.
theorem delete_revokes_iff {s' : Machines} {v : Volume} {os' : List Outcome}
    (h : (history J path).Reachable σ) (hf : σ.Fresh) (hp : σ.proc = some s)
    (hm : s.byID id = some m) (hd : Delete J path s id σ.vol os = (.value (s', true), v, os'))
    (e : (history J path).step σ (.delete id, os) = some σ') :
    Revoked J path σ' id m.token ↔ save.Completes J path (s.erase id) σ.vol os := by
  have reachable : (history J path).Reachable σ' := .step h trivial e
  have held : σ.held id = some m.token :=
    tokenOf_eq_held hp ▸ Machines.tokenOf_eq_some.mpr ⟨m, hm, rfl⟩
  have filed := (inv h).held_filed held
  cases (step_delete hp hd).symm.trans e
  have ⟨erased, saved⟩ := Delete_true hd
  constructor
  case mp =>
    intro revoked
    cases saved
    case inl saved => exact saved.left
    case inr saved =>
      have ⟨s₂, ho, _⟩ := reopens reachable
      have gone := (revoked [] _ _ _ _ _ rfl hf (Open_of_opened ho)).left
      have filed' : s₂.tokenOf id = some m.token :=
        (congrFun (opened_tokenOf (encodes reachable) ho) id).trans
          ((congrFun (filed_old none saved.right) id).trans filed)
      have ⟨_, found, _⟩ := Machines.tokenOf_eq_some.mp filed'
      exact absurd (gone.symm.trans found) (by simp)
  case mpr =>
    intro completes
    cases saved
    case inr saved => exact absurd completes saved.left
    case inl saved =>
      have ⟨b, n⟩ := saved.right
      have absent : (s.erase id).tokenOf id = none := by simp
      refine Gone.revoked reachable ⟨(inv h).filed_drawn filed, ?_, erased ▸ absent⟩
      exact (congrFun (filed_new none n) id).trans absent

theorem delete_revokes_iff_sample :
    ∃ σ σ', (history .sample "popfleet.json").run initial
        [(.start, []), (.mint "5c" "" "e1", [])] = some σ ∧
      (history .sample "popfleet.json").step σ (.delete "5c", [.fail 0]) = some σ' ∧
      Revoked .sample "popfleet.json" σ' "5c" "e1" := by
  cases e : (history .sample "popfleet.json").run initial [(.start, []), (.mint "5c" "" "e1", [])]
  case none => contradiction
  case some σ =>
    have reachable := Transition.Reachable.run (.init initial_init) e
    cases e
    have iff := @delete_revokes_iff .sample "popfleet.json" _ "5c" _ _
      { id := "5c", token := "e1" } [.fail 0] _ _ _ reachable ⟨by decide, by decide⟩ rfl rfl rfl rfl
    exact ⟨_, _, rfl, rfl, iff.mpr ⟨by decide, .inr rfl, by simp⟩⟩

-- The save of the `Delete` finds the disk full, and the machine is back after a restart.
theorem delete_not_revoked :
    ∃ σ σ' s, (history .sample "popfleet.json").run initial
        [(.start, []), (.mint "5c" "" "e1", [])] = some σ ∧
      (history .sample "popfleet.json").step σ (.delete "5c", [.ok, .fail 0]) = some σ' ∧
      .deleted "5c" ∈ σ'.log ∧ σ'.Fresh ∧
      Open .sample "popfleet.json" σ'.vol [] = (.value (.store s), σ'.vol, []) ∧
      s.byID "5c" ≠ none ∧ s.byToken "e1" ≠ none := by
  cases e : (history .sample "popfleet.json").run initial
    [(.start, []), (.mint "5c" "" "e1", []), (.delete "5c", [.ok, .fail 0])]
  case none => contradiction
  case some σ' =>
    have reachable := Transition.Reachable.run (.init initial_init) e
    cases e
    have ⟨s, ho, same⟩ := reopens reachable
    have found : s.get? "5c" = some { id := "5c", token := "e1" } := same "5c"
    have ⟨m, hm, _⟩ := byToken_opened reachable ⟨by decide, by decide⟩ ho
      (Machines.tokenOf_eq_some.mpr ⟨_, found, rfl⟩)
    refine ⟨_, _, s, rfl, rfl, by decide, ⟨by decide, by decide⟩, Open_of_opened ho, ?_, by simp [hm]⟩
    simp [Machines.byID, found]

end Sys
end Store
