import Popfleet.Broker.Theorems.Exec

open Proto Store Program

namespace Broker

variable {sha256 : String → Digest} {σ σ' : State} {op : Op} {i : Input} {ops : List Op} {r : Req}
  {c : Config State Op} {sid key k : String} {p : PendKey} {t : Time}

theorem valid_eq_some :
    valid sha256 σ sid k = some p ↔
      σ.pend.get? sid = some p ∧ σ.now < p.exp ∧ sha256 k = p.keySum := by
  simp [valid, Option.filter_eq_some_iff]

-- The pending keys were minted, and an accepted key matches one minted for its sid, in time.
structure Keys (sha256 : String → Digest) (σ : State) : Prop where
  keySum   : ∀ {sid key p}, (sid, key, p) ∈ σ.mints → p.keySum = sha256 key
  pend     : ∀ {sid p}, σ.pend.get? sid = some p → ∃ key, (sid, key, p) ∈ σ.mints
  accepted : ∀ {sid k t}, (sid, k, t) ∈ σ.accepts →
    ∃ key p, (sid, key, p) ∈ σ.mints ∧ sha256 k = p.keySum ∧ t < p.exp

-- A key is pending until it is accepted or expires. This takes that no sid was drawn twice.
structure Once (σ : State) : Prop where
  consumed : ∀ {sid k t}, (sid, k, t) ∈ σ.accepts → σ.pend.get? sid = none
  once     : (σ.accepts.map (·.1)).Nodup
  kept     : ∀ {sid key p}, (sid, key, p) ∈ σ.mints → sid ∉ σ.accepts.map (·.1) → σ.now ≤ p.exp →
    σ.pend.get? sid = some p

theorem Keys.start (e : start σ r = some (σ', ops)) (h : Keys sha256 σ) : Keys sha256 σ' := by
  cases r <;> cases e <;> exact ⟨h.keySum, h.pend, h.accepted⟩

theorem Keys.exec (e : Exec sha256 σ op i σ' ops) (h : Keys sha256 σ) : Keys sha256 σ' := by
  cases e
  case accepted sid k p hv =>
    have ⟨hp, exp, sum⟩ := valid_eq_some.mp hv
    have ⟨key, hm⟩ := h.pend hp
    refine ⟨h.keySum, fun {sid' p'} hp' => ?_, fun ha => ?_⟩
    case refine_1 => exact h.pend (GoMap.of_get?_delete hp').right
    case refine_2 =>
      cases ha
      case head    => exact ⟨key, p, hm, sum, exp⟩
      case tail ha => exact h.accepted ha
  case minted id cmd sid key p hp =>
    refine ⟨fun hm => ?_, fun {sid' p'} hp' => ?_, fun ha => ?_⟩
    case refine_1 =>
      cases hm
      case head    => exact hp ▸ rfl
      case tail hm => exact h.keySum hm
    case refine_2 =>
      cases GoMap.of_get?_set hp'
      case inl h =>
        obtain ⟨rfl, rfl⟩ := h
        exact ⟨key, List.mem_cons_self⟩
      case inr hc =>
        obtain ⟨_, hp'⟩ := hc
        have ⟨key', hm⟩ := h.pend hp'
        exact ⟨key', List.mem_cons_of_mem _ hm⟩
    case refine_3 =>
      have ⟨key', p', hm, hk⟩ := h.accepted ha
      exact ⟨key', p', List.mem_cons_of_mem _ hm, hk⟩
  case swept now =>
    refine ⟨h.keySum, fun hp => ?_, h.accepted⟩
    exact h.pend (GoMap.get?_deleteWhere_eq_some.mp hp).left
  all_goals exact ⟨h.keySum, h.pend, h.accepted⟩

theorem Once.start (e : start σ r = some (σ', ops)) (h : Once σ) : Once σ' := by
  cases r <;> cases e
  case tick d => exact ⟨h.consumed, h.once, fun hm hs ht => h.kept hm hs (Nat.le_trans (by simp) ht)⟩
  all_goals exact ⟨h.consumed, h.once, h.kept⟩

theorem Once.exec (e : Exec sha256 σ op i σ' ops) (hf : σ'.FreshSids) (hk : Keys sha256 σ)
    (hs : ∀ {now}, op = .sweepAt now → now ≤ σ.now) (h : Once σ) : Once σ' := by
  cases e
  case accepted sid k p hv =>
    have ⟨hp, exp, sum⟩ := valid_eq_some.mp hv
    refine ⟨fun {sid' _ _} ha => ?_, ?_, fun {sid' key' p'} hm hn ht => ?_⟩
    case refine_1 =>
      change (σ.pend.delete sid).get? sid' = none
      rw [GoMap.get?_delete]
      split
      case isTrue => rfl
      case isFalse hne =>
        cases ha
        case head    => contradiction
        case tail ha => exact h.consumed ha
    case refine_2 =>
      refine List.nodup_cons.mpr ⟨fun ha => ?_, h.once⟩
      have ⟨⟨_, _, _⟩, ha, hs⟩ := List.mem_map.mp ha
      cases hs
      exact absurd hp (by simp [h.consumed ha])
    case refine_3 =>
      change (σ.pend.delete sid).get? sid' = some p'
      have hne : sid' ≠ sid := List.ne_of_not_mem_cons hn
      rw [GoMap.get?_delete, if_neg hne]
      exact h.kept hm (List.not_mem_of_not_mem_cons hn) ht
  case minted id cmd sid key p hp =>
    have ⟨fresh, _⟩ := List.nodup_cons.mp hf
    have unused : sid ∉ σ.accepts.map (·.1) := by
      intro hu
      have ⟨_, ha, hs⟩ := List.mem_map.mp hu
      have ⟨_, _, hm, _⟩ := hk.accepted ha
      exact fresh (List.mem_map.mpr ⟨_, hm, hs⟩)
    refine ⟨fun {sid' _ _} ha => ?_, h.once, fun {sid' key' p'} hm hn ht => ?_⟩
    case refine_1 =>
      change (σ.pend.set sid p).get? sid' = none
      have hne : sid' ≠ sid := fun hs => unused (List.mem_map.mpr ⟨_, ha, hs⟩)
      rw [GoMap.get?_set, if_neg hne]
      exact h.consumed ha
    case refine_2 =>
      change (σ.pend.set sid p).get? sid' = some p'
      rw [GoMap.get?_set]
      cases hm
      case head => simp
      case tail hm =>
        have hne : sid' ≠ sid := fun hs => fresh (List.mem_map.mpr ⟨_, hm, hs⟩)
        rw [if_neg hne]
        exact h.kept hm hn ht
  case swept now =>
    refine ⟨fun ha => ?_, h.once, fun hm hn ht => ?_⟩
    case refine_1 => simp [h.consumed ha]
    case refine_2 =>
      have stale : now ≤ σ.now := hs rfl
      refine GoMap.get?_deleteWhere_eq_some.mpr ⟨h.kept hm hn ht, ?_⟩
      simpa using Nat.le_trans stale ht
  all_goals exact ⟨h.consumed, h.once, h.kept⟩

theorem Exec.mints_suffix (e : Exec sha256 σ op i σ' ops) : σ.mints <:+ σ'.mints := by
  cases e
  case minted => exact List.suffix_cons ..
  all_goals exact List.suffix_refl _

theorem State.FreshSids.of_suffix (h : σ.mints <:+ σ'.mints) (hf : σ'.FreshSids) : σ.FreshSids :=
  hf.sublist (h.sublist.map _)

theorem start_mints (e : start σ r = some (σ', ops)) : σ'.mints = σ.mints := by
  cases r <;> cases e <;> rfl

theorem start_now_le (e : start σ r = some (σ', ops)) : σ.now ≤ σ'.now := by
  cases r <;> cases e <;> simp

theorem Exec.now_eq (e : Exec sha256 σ op i σ' ops) : σ'.now = σ.now := by
  cases e <;> rfl

theorem Exec.sweepAt_notMem {now : Time} (e : Exec sha256 σ op i σ' ops) : .sweepAt now ∉ ops := by
  cases e
  case sessEnded ho | goneEnded ho =>
    intro h
    cases h
    case tail h =>
      have ⟨_, _, h⟩ := ho _ h
      contradiction
  all_goals simp [mem_handleAgent, mem_handleTerm]

-- A sweep works with a time read earlier.
def NotAhead (σ : State) (op : Op) : Prop :=
  ∀ {now}, op = .sweepAt now → now ≤ σ.now

theorem keys_reachable (h : (program sha256).system.Reachable c) :
    Keys sha256 c.shared ∧ (c.shared.FreshSids → Once c.shared) := by
  refine (section_invariant (P := program sha256) (A := NotAhead)
    (I := fun σ => Keys sha256 σ ∧ (σ.FreshSids → Once σ)) (R := fun σ σ' => σ.now ≤ σ'.now)
    ?_ ?_ ?_ ?_ h).left
  case refine_1 =>
    rintro σ ⟨st, now, rfl⟩
    exact ⟨⟨by simp [State.mints], by simp, by simp [State.accepts]⟩,
      fun _ => ⟨by simp, by simp [State.accepts], by simp [State.mints]⟩⟩
  case refine_2 =>
    intro σ r σ' ops ⟨hk, ho⟩ e
    refine ⟨⟨hk.start e, fun hf => ?_⟩, start_now_le e, ?_⟩
    case refine_1 => exact (ho (hf.of_suffix ⟨[], (start_mints e).symm⟩)).start e
    case refine_2 => cases r <;> cases e <;> simp [NotAhead]
  case refine_3 =>
    intro c _ i op _ σ' ops _ _ _ ⟨hk, ho⟩ hs e
    replace e := Exec.of e
    refine ⟨⟨hk.exec e, fun hf => ?_⟩, e.now_eq.ge, ?_⟩
    case refine_1 => exact (ho (hf.of_suffix e.mints_suffix)).exec e hf hk hs
    case refine_2 => exact fun o ho _ h => absurd (h ▸ ho) e.sweepAt_notMem
  case refine_4 => exact fun σ σ' op _ hn hs now ho => Nat.le_trans (hs ho) hn

-- The keys presented that were accepted do not collide with other keys.
def NoCollision (sha256 : String → Digest) (σ : State) : Prop :=
  ∀ {sid key p sid' k t}, (sid, key, p) ∈ σ.mints → (sid', k, t) ∈ σ.accepts →
    sha256 k = sha256 key → k = key

-- A minted key is accepted at most once, for its own sid and before it expires. What is refused
-- changes no pending key, and the right key is accepted as long as it is unexpired and unconsumed.
theorem keys_one_time (h : (program sha256).system.Reachable c) (hf : c.shared.FreshSids)
    (hc : NoCollision sha256 c.shared) :
    (c.shared.accepts.map (·.1)).Nodup ∧
    (∀ {sid k t}, (sid, k, t) ∈ c.shared.accepts →
      ∃ p, (sid, k, p) ∈ c.shared.mints ∧ t < p.exp) ∧
    (∀ {sid k i σ' ops}, valid sha256 c.shared sid k = none →
      exec sha256 c.shared (.consume sid k) i = some (σ', ops) →
      σ'.pend = c.shared.pend ∧ σ'.accepts = c.shared.accepts ∧ ops = []) ∧
    (∀ {sid key p i}, (sid, key, p) ∈ c.shared.mints → sid ∉ c.shared.accepts.map (·.1) →
      c.shared.now < p.exp →
      ∃ σ' ops, exec sha256 c.shared (.consume sid key) i = some (σ', ops) ∧
        (sid, key, c.shared.now) ∈ σ'.accepts) := by
  have ⟨keys, once⟩ := keys_reachable h
  refine ⟨(once hf).once, ?_, ?_, ?_⟩
  case refine_1 =>
    intro sid k t ha
    have ⟨key, p, hm, sum, exp⟩ := keys.accepted ha
    have same : k = key := hc hm ha (sum.trans (keys.keySum hm))
    exact ⟨p, same ▸ hm, exp⟩
  case refine_2 =>
    intro sid k i σ' ops hv e
    simp only [exec, hv] at e
    cases e
    exact ⟨rfl, rfl, rfl⟩
  case refine_3 =>
    intro sid key p i hm hn ht
    have pending := (once hf).kept hm hn (Nat.le_of_lt ht)
    have hv : valid sha256 c.shared sid key = some p :=
      valid_eq_some.mpr ⟨pending, ht, (keys.keySum hm).symm⟩
    exact ⟨_, _, by simp only [exec, hv]; rfl, List.mem_cons_self⟩

-- A wrong key, then the right one.
theorem keys_one_time_sample :
    let ls := [.start 0 (.apiMint "" "5c" "e1" true), .step 0 .done,
      .start 0 (.apiTerm "5c" "" "a0" "9f"), .step 0 .done, .step 0 .done,
      .start 1 (.wsTerm "a0" ""), .step 1 .done, .start 1 (.wsTerm "a0" "9f"), .step 1 .done]
    ∃ c, (program sampleSum).system.run initial ls = some c ∧
      (c.shared.accepts.map (·.1)).Nodup ∧
      ∃ p, ("a0", "9f", p) ∈ c.shared.mints ∧ 0 < p.exp := by
  intro ls
  cases e : (program sampleSum).system.run initial ls
  case none => contradiction
  case some c =>
    have reachable := Transition.Reachable.run (.init (initial_init sampleSum)) e
    have mints : c.shared.mints = [("a0", "9f", ⟨sampleSum "9f", "5c", "", keyTTL⟩)] :=
      Transition.eq_of_run (f := (·.shared.mints)) e (by decide)
    have accepts : c.shared.accepts = [("a0", "9f", 0)] :=
      Transition.eq_of_run (f := (·.shared.accepts)) e (by decide)
    have fresh : c.shared.FreshSids := by simp [State.FreshSids, mints]
    have collision : NoCollision sampleSum c.shared := by
      simp +contextual [NoCollision, mints, accepts]
    have ⟨once, accepted, _⟩ := keys_one_time reachable fresh collision
    exact ⟨c, rfl, once, accepted (by simp [accepts])⟩

end Broker
