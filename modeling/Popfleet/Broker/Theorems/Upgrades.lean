import Popfleet.Broker.Theorems.Sessions

open Proto Store Program

namespace Broker

-- The upgrade of a request whose key was accepted does not fail.
def Upgrades (c : Config State Op) (l : Label Req Input) : Prop :=
  ∀ {t sid p ac rest}, l = .step t .failed → c.procs t ≠ .upgrade sid p ac :: rest

-- A request with the key of the session was upgraded, or is on its way to be.
def Upgraded (c : Config State Op) (sid : String) : Prop :=
  (∃ o, c.Pending o ∧ o.attaching = some sid) ∨ ∃ s ∈ c.shared.attaches, s.sid = sid

-- An unexpired key that no upgrade was made with can still be used.
def Unburned (c : Config State Op) : Prop :=
  ∀ sid key p, (sid, key, p) ∈ c.shared.mints → c.shared.now < p.exp → ¬Upgraded c sid →
    c.shared.pend.get? sid = some p

variable {sha256 : String → Digest} {σ σ' : State} {op : Op} {i : Input} {ops rest : List Op}
  {r : Req} {c c' : Config State Op} {t : Tid} {sid : String} {p : PendKey} {ac : Option AgentConn}

theorem Upgraded.start (e : start c.shared r = some (σ', ops)) (idle : c.procs t = [])
    (h : Upgraded c sid) : Upgraded (c.resume t σ' ops) sid := by
  have ⟨_, attaches, _⟩ := start_attaching e
  cases h
  case inl h =>
    have ⟨o, ho, ha⟩ := h
    exact .inl ⟨o, ho.start idle, ha⟩
  case inr h => exact .inr (by rwa [Config.resume_shared, attaches])

-- Only the failure of the upgrade itself ends the way to it.
theorem Upgraded.step (e : exec sha256 c.shared op i = some (σ', ops)) (head : c.procs t = op :: rest)
    (hf : ∀ sid p ac, op = .upgrade sid p ac → i ≠ .failed) (h : Upgraded c sid) :
    Upgraded (c.resume t σ' (ops ++ rest)) sid := by
  cases h
  case inr h =>
    have ⟨s, hs, hsid⟩ := h
    exact .inr ⟨s, (Exec.of e).allocates.attaches.mem hs, hsid⟩
  case inl h =>
    have ⟨o, ho, ha⟩ := h
    cases ho.step head
    case inr ho => exact .inl ⟨o, ho, ha⟩
    case inl ho =>
      subst ho
      cases o <;> try contradiction
      case upgrade p ac =>
        cases ha
        have ops : ops = [.attach sid p ac] := by
          cases i
          case failed => exact absurd rfl (hf _ _ _ rfl)
          case done | frame => cases e; rfl
        exact .inl ⟨.attach sid p ac, Config.pending_of_mem (by simp [ops]), rfl⟩
      case attach p ac =>
        cases ha
        cases e
        exact .inr ⟨_, List.mem_cons_self, rfl⟩

theorem upgraded_reachable (h : (program sha256).system.ReachableUnder Upgrades c) :
    ∀ sid ∈ c.shared.accepts.map (·.1), Upgraded c sid := by
  refine h.invariant (I := fun c => ∀ sid ∈ c.shared.accepts.map (·.1), Upgraded c sid) ?_ ?_
  case refine_1 =>
    rintro c ⟨⟨st, now, hs⟩, _⟩
    simp [hs, State.accepts]
  case refine_2 =>
    intro c l c' hr hi hu e sid ha
    replace e := Step.of e
    cases e
    case start idle e =>
      obtain ⟨accepts, _, _⟩ := start_attaching e
      rw [Config.resume_shared, accepts] at ha
      exact (hi sid ha).start e idle
    case step t i op rest σ' ops head e =>
      have succeeds : ∀ sid p ac, op = .upgrade sid p ac → i ≠ .failed := by
        rintro sid p ac rfl rfl
        exact hu rfl head
      have kept (ha : sid ∈ c.shared.accepts.map (·.1)) := (hi sid ha).step e head succeeds
      rw [Config.resume_shared] at ha
      rcases (Exec.of e).attaching_cases with ⟨accepts, _⟩ | ⟨_, _, _, _, hσ, _⟩ |
        ⟨_, _, _, _, accepts, _⟩ | ⟨sid', k, p, ac, _, _, accepts, _, hops⟩
      case inl         => exact kept (accepts ▸ ha)
      case inr.inl     => exact kept (hσ ▸ ha)
      case inr.inr.inl => exact kept (accepts ▸ ha)
      case inr.inr.inr =>
        rw [accepts] at ha
        cases ha
        case tail ha => exact kept ha
        case head    => exact .inl ⟨.upgrade sid' p ac, Config.pending_of_mem (by simp [hops]), rfl⟩

-- When no upgrade fails, an unexpired key stays pending until a request is upgraded with it. After an
-- upgrade that was due to an accepted key, the key has been of use exactly when it did not fail: the key
-- is no longer pending then, and no other request can be upgraded with it.
theorem key_spent_on_upgrade :
    (∀ c, (program sha256).system.ReachableUnder Upgrades c → c.shared.FreshSids → Unburned c) ∧
    ∀ c t sid p ac rest i c', (program sha256).system.Reachable c → c.shared.FreshSids →
      c.procs t = .upgrade sid p ac :: rest → (program sha256).system.step c (.step t i) = some c' →
      c'.shared.pend.get? sid = none ∧ (Upgraded c' sid ↔ i ≠ .failed) := by
  refine ⟨fun c h hf sid key p hm hn hu => ?_, fun c t sid p ac rest i c' h hf head e => ?_⟩
  case refine_1 =>
    have unaccepted : sid ∉ c.shared.accepts.map (·.1) := fun ha => hu (upgraded_reachable h sid ha)
    exact ((keys_reachable h.reachable).right hf).kept hm unaccepted (Nat.le_of_lt hn)
  case refine_2 =>
    have attaches := attaches_reachable h hf
    have ⟨accepted, unattached⟩ := attaches.pending ⟨t, head ▸ List.mem_cons_self⟩ rfl
    have ⟨⟨_, _, _⟩, ha, hs⟩ := List.mem_map.mp accepted
    have consumed := ((keys_reachable h).right hf).consumed ha
    replace e := Step.of e
    cases e
    case step op rest σ' ops head' e =>
      cases head.symm.trans head'
      refine ⟨?_, fun hu hi => ?_, fun hi => ?_⟩
      case refine_1 => cases Exec.of e <;> exact hs ▸ consumed
      case refine_2 =>
        subst hi
        cases e
        rcases hu with ⟨o, ⟨t', ho⟩, ha⟩ | ⟨s, hs, he⟩
        case inl =>
          exact (attaches.unique sid).none_of_head head (by simp [Op.attaching]) (by simp) ho
            (by simp [ha])
        case inr => exact unattached s hs he
      case refine_3 =>
        refine Upgraded.step e head (fun _ _ _ _ => hi) (.inl ⟨_, ⟨t, head ▸ List.mem_cons_self⟩, rfl⟩)

-- A step that fails no upgrade.
def failsNoUpgrade (c : Config State Op) : Label Req Input → Bool
  | .step t .failed => ((c.procs t).head?.bind Op.attaching).isNone
  | _               => true

theorem upgrades_of_failsNoUpgrade (c : Config State Op) (l : Label Req Input)
    (h : failsNoUpgrade c l) : Upgrades c l := by
  intro t sid p ac rest hl hp
  subst hl
  simp [failsNoUpgrade, hp, Op.attaching] at h

-- A key is minted for a machine, and a request with it reads the pending keys.
def sampleAccepted : List (Label Req Input) := [
  .start 0 (.apiMint "" "5c" "e1" true), .step 0 .done,
  .start 0 (.apiTerm "5c" "" "a0" "9f"), .step 0 .done, .step 0 .done,
  .start 1 (.wsTerm "a0" "9f"), .step 1 .done]

-- The upgrade succeeds, and another key is minted meanwhile.
theorem key_spent_on_upgrade_sample :
    let upgraded := sampleAccepted ++ [.step 1 .done]
    let ls := upgraded ++ [.start 0 (.apiTerm "5c" "" "b0" ""), .step 0 .done, .step 0 .done]
    ∃ c c', (program sampleSum).system.run initial upgraded = some c ∧ Upgraded c "a0" ∧
      (program sampleSum).system.run initial ls = some c' ∧
      c'.shared.pend.get? "b0" = some ⟨sampleSum "", "5c", "", keyTTL⟩ := by
  intro upgraded ls
  have ran : ((program sampleSum).system.runWhile failsNoUpgrade initial ls).isSome := by decide
  obtain ⟨c', e'⟩ := Option.isSome_iff_exists.mp ran
  have reachable' := Transition.ReachableUnder.runWhile (.init (initial_init sampleSum))
    upgrades_of_failsNoUpgrade e'
  replace e' := Transition.run_of_runWhile e'
  obtain ⟨c, e, _⟩ := Transition.run_append_eq_some.mp e'
  obtain ⟨c₀, e₀, upgrade⟩ := Transition.run_append_eq_some.mp e
  obtain ⟨_, upgrade, e₁⟩ := Transition.run_cons_eq_some.mp upgrade
  cases e₁
  have reachable := Transition.Reachable.run (.init (initial_init sampleSum)) e₀
  obtain ⟨unburned, spent⟩ := @key_spent_on_upgrade sampleSum
  have mints₀ : c₀.shared.mints.map (·.1) = ["a0"] :=
    Transition.eq_of_run (f := (·.shared.mints.map (·.1))) e₀ (by decide)
  have head : c₀.procs 1 = [.upgrade "a0" ⟨sampleSum "9f", "5c", "", keyTTL⟩ none] :=
    Transition.eq_of_run (f := (·.procs 1)) e₀ (by decide)
  obtain ⟨_, used⟩ := spent c₀ 1 "a0" _ none [] .done c reachable
    (by simp [State.FreshSids, mints₀]) head upgrade
  refine ⟨c, c', e, used.mpr (by simp), e', ?_⟩
  have mints : c'.shared.mints = [("b0", "", ⟨sampleSum "", "5c", "", keyTTL⟩),
      ("a0", "9f", ⟨sampleSum "9f", "5c", "", keyTTL⟩)] :=
    Transition.eq_of_run (f := (·.shared.mints)) e' (by decide)
  have now : c'.shared.now = 0 := Transition.eq_of_run (f := (·.shared.now)) e' (by decide)
  have attaches : c'.shared.attaches = [] :=
    Transition.eq_of_run (f := (·.shared.attaches)) e' (by decide)
  have procs : (c'.procs 0, (c'.procs 1).map Op.attaching) = ([], [some "a0"]) :=
    Transition.eq_of_run (f := fun c => (c.procs 0, (c.procs 1).map Op.attaching)) e' (by decide)
  refine unburned c' reachable' (by simp [State.FreshSids, mints]) "b0" "" _ (by simp [mints])
    (by simp [now, keyTTL]) ?_
  rintro (⟨o, ⟨t, ho⟩, ha⟩ | ⟨s, hs, _⟩)
  case inr => simp [attaches] at hs
  case inl =>
    simp only [Prod.mk.injEq] at procs
    by_cases ht : t = 0 ∨ t = 1
    case pos =>
      rcases ht with rfl | rfl
      case inl => simp [procs.left] at ho
      case inr =>
        have attaching : o.attaching ∈ [some "a0"] := procs.right ▸ List.mem_map_of_mem ho
        simp [ha] at attaching
    case neg =>
      obtain ⟨h₀, h₁⟩ : 0 ≠ t ∧ 1 ≠ t := by simpa [eq_comm] using ht
      have idle : c'.procs t = [] :=
        procs_of_run e' (by simp [ls, upgraded, sampleAccepted, Label.tid, h₀, h₁])
      simp [idle] at ho

-- A plain request with the right key fails its upgrade. The key is burned: it is unexpired, and no
-- session was attached with it, but the browser that comes next is refused.
theorem key_burned_by_failed_upgrade :
    let ls := sampleAccepted ++ [.step 1 .failed]
    ∃ c, (program sampleSum).system.run initial ls = some c ∧ c.shared.FreshSids ∧
      ¬Unburned c ∧ c.shared.attaches = [] ∧ (∀ t, c.procs t = []) ∧
      ∃ c', (program sampleSum).system.run c [.start 2 (.wsTerm "a0" "9f"), .step 2 .done] = some c' ∧
        c'.shared.log.head? = some (.refused "a0" "9f") := by
  intro ls
  have ran : ((program sampleSum).system.run initial
      (ls ++ [.start 2 (.wsTerm "a0" "9f"), .step 2 .done])).isSome := by decide
  have ⟨c', e'⟩ := Option.isSome_iff_exists.mp ran
  have ⟨c, e, retry⟩ := Transition.run_append_eq_some.mp e'
  have mints : c.shared.mints = [("a0", "9f", ⟨sampleSum "9f", "5c", "", keyTTL⟩)] :=
    Transition.eq_of_run (f := (·.shared.mints)) e (by decide)
  have attaches : c.shared.attaches = [] :=
    Transition.eq_of_run (f := (·.shared.attaches)) e (by decide)
  have pend : c.shared.pend.get? "a0" = none :=
    Transition.eq_of_run (f := (·.shared.pend.get? "a0")) e (by decide)
  have now : c.shared.now = 0 := Transition.eq_of_run (f := (·.shared.now)) e (by decide)
  have idle (t : Tid) : c.procs t = [] := by
    by_cases ht : t = 0 ∨ t = 1
    case pos =>
      have procs : (c.procs 0, c.procs 1) = ([], []) :=
        Transition.eq_of_run (f := fun c => (c.procs 0, c.procs 1)) e (by decide)
      simp only [Prod.mk.injEq] at procs
      rcases ht with rfl | rfl <;> simp [procs]
    case neg =>
      obtain ⟨h₀, h₁⟩ : 0 ≠ t ∧ 1 ≠ t := by simpa [eq_comm] using ht
      exact procs_of_run e (by simp [ls, sampleAccepted, Label.tid, h₀, h₁])
  have fresh : c.shared.FreshSids := by simp [State.FreshSids, mints]
  refine ⟨c, e, fresh, fun hu => ?_, attaches, idle, ?_⟩
  case refine_1 =>
    have unused : ¬Upgraded c "a0" := by
      rintro (⟨o, ⟨t, ho⟩, _⟩ | ⟨s, hs, _⟩)
      case inl => simp [idle] at ho
      case inr => simp [attaches] at hs
    have kept := hu "a0" "9f" _ (mints ▸ List.mem_singleton_self _) (by simp [now, keyTTL]) unused
    simp [pend] at kept
  case refine_2 =>
    exact ⟨c', retry, Transition.eq_of_run (f := (·.shared.log.head?)) e' (by decide)⟩

end Broker
