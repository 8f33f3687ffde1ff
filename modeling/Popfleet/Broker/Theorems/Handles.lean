import Popfleet.Broker.Theorems.WellFormed

open Proto Store Program

namespace Broker

-- The pointers in use were handed out, and the sessions opened were attached.
structure Handles (σ : State) : Prop where
  agents   : ∀ {mid ac}, σ.agents.get? mid = some ac → ac.ptr < σ.next
  attaches : ∀ {s}, s ∈ σ.attaches → s.ptr < σ.next
  opens    : ∀ {s ac}, (s, ac) ∈ σ.opens → s ∈ σ.attaches

-- What a section relies on. A connection that is about to be closed is not registered.
def Op.Handled (σ : State) : Op → Prop
  | .closeAgent ac  => ac.ptr < σ.next ∧ σ.agents.get? ac.mid ≠ some ac
  | .dropAgent ac _ => ac.ptr < σ.next
  | .readAgent ac   => ac.ptr < σ.next
  | .sendOpen s _ _ => s ∈ σ.attaches
  | _               => True

-- The sections hand out new pointers only, and register no other connections.
structure Allocates (σ σ' : State) : Prop where
  next     : σ.next ≤ σ'.next
  agents   : ∀ {mid ac}, σ'.agents.get? mid = some ac → σ.agents.get? mid = some ac ∨ σ.next ≤ ac.ptr
  attaches : σ.attaches <:+ σ'.attaches

variable {sha256 : String → Digest} {σ σ' : State} {op : Op} {i : Input} {ops : List Op} {r : Req}
  {c : Config State Op}

theorem Op.Handled.stable (ha : Allocates σ σ') (h : op.Handled σ) : op.Handled σ' := by
  cases op
  case closeAgent ac =>
    refine ⟨Nat.lt_of_lt_of_le h.left ha.next, fun hr => ?_⟩
    cases ha.agents hr
    case inl hr => exact h.right hr
    case inr hn => exact absurd h.left (Nat.not_lt.mpr hn)
  case dropAgent | readAgent => exact Nat.lt_of_lt_of_le h ha.next
  case sendOpen => exact ha.attaches.mem h
  all_goals trivial

theorem Exec.allocates (e : Exec sha256 σ op i σ' ops) : Allocates σ σ' := by
  constructor
  case next => cases e <;> first | exact Nat.le_refl _ | exact Nat.le_succ _
  case attaches =>
    cases e
    case attached => exact List.suffix_cons ..
    all_goals exact List.suffix_refl _
  case agents =>
    intro mid ac ha
    rcases e.agents_cases with ⟨same, _⟩ | ⟨mid', _, set, _⟩ | ⟨_, _, _, _, delete⟩
    case inl => exact .inl (same ▸ ha)
    case inr.inl =>
      rw [set] at ha
      cases GoMap.of_get?_set ha
      case inl h =>
        obtain ⟨_, rfl⟩ := h
        exact .inr (Nat.le_refl _)
      case inr h =>
        obtain ⟨_, ha⟩ := h
        exact .inl ha
    case inr.inr =>
      rw [delete] at ha
      exact .inl (GoMap.of_get?_delete ha).right

theorem Handles.exec (e : Exec sha256 σ op i σ' ops) (h : Handles σ) (ho : op.Handled σ) :
    Handles σ' := by
  have ⟨next, _, _⟩ := e.allocates
  have agents {mid ac} (ha : σ'.agents.get? mid = some ac) : ac.ptr < σ'.next := by
    rcases e.agents_cases with ⟨same, _⟩ | ⟨mid', hop, set, _⟩ | ⟨_, _, _, _, delete⟩
    case inl => exact Nat.lt_of_lt_of_le (h.agents (same ▸ ha)) next
    case inr.inl =>
      rw [set] at ha
      cases GoMap.of_get?_set ha
      case inr hc =>
        obtain ⟨_, ha⟩ := hc
        exact Nat.lt_of_lt_of_le (h.agents ha) next
      case inl h =>
        obtain ⟨_, rfl⟩ := h
        subst hop; cases e <;> exact Nat.lt_succ_self _
    case inr.inr =>
      rw [delete] at ha
      exact Nat.lt_of_lt_of_le (h.agents (GoMap.of_get?_delete ha).right) next
  have attaches {s} (hs : s ∈ σ.attaches) : s.ptr < σ'.next := Nat.lt_of_lt_of_le (h.attaches hs) next
  cases e
  case attached =>
    refine ⟨agents, fun hs => ?_, fun hs => List.mem_cons_of_mem _ (h.opens hs)⟩
    cases hs
    case head    => exact Nat.lt_succ_self _
    case tail hs => exact attaches hs
  case opened =>
    refine ⟨agents, attaches, fun hs => ?_⟩
    cases hs
    case head    => exact ho
    case tail hs => exact h.opens hs
  all_goals exact ⟨agents, attaches, h.opens⟩

theorem Exec.ops_handled (e : Exec sha256 σ op i σ' ops) (wf : WellFormed σ) (h : Handles σ)
    (ho : op.Handled σ) : ∀ o ∈ ops, o.Handled σ' := by
  cases e <;> simp only [List.cons_append, List.forall_mem_cons, List.forall_mem_append,
    List.forall_mem_map, List.not_mem_nil, IsEmpty.forall_iff, implies_true, and_true]
  case registered => exact ⟨trivial, Nat.lt_succ_self _⟩
  case replaced mid old hold =>
    have ne : old ≠ (σ.newAgent mid).2 := by
      intro he
      exact absurd (h.agents hold) (he ▸ Nat.lt_irrefl _)
    refine ⟨⟨Nat.lt_succ_of_lt (h.agents hold), fun ha => ?_⟩, fun _ _ => trivial, trivial,
      Nat.lt_succ_self _⟩
    cases GoMap.of_get?_set ha
    case inl h =>
      obtain ⟨_, he⟩ := h
      exact ne he
    case inr h =>
      obtain ⟨hne, _⟩ := h
      exact hne (wf.agents hold)
  case agentRead => exact ⟨forall_handleAgent trivial (fun _ => trivial) (fun _ => trivial), ho⟩
  case agentLost => exact ho
  case dropped => exact ⟨⟨ho, by simp [GoMap.get?_delete]⟩, fun _ _ => trivial⟩
  case zombieDropped ha => exact ⟨ho, ha⟩
  case sessEnded close | goneEnded close =>
    exact ⟨trivial, forall_close close fun _ _ => trivial⟩
  case attached => exact List.mem_cons_self
  case termRead => exact ⟨forall_handleTerm trivial trivial, trivial⟩
  case onlineRevoked ha => exact h.agents ha
  all_goals trivial

theorem start_handles (e : start σ r = some (σ', ops)) :
    σ'.next = σ.next ∧ σ'.agents = σ.agents ∧ σ'.attaches = σ.attaches ∧ σ'.opens = σ.opens := by
  cases r <;> cases e <;> exact ⟨rfl, rfl, rfl, rfl⟩

theorem handles_reachable (h : (program sha256).system.Reachable c) :
    Handles c.shared ∧ ∀ o, c.Pending o → o.Handled c.shared := by
  refine section_invariant (P := program sha256) (I := Handles) (A := Op.Handled)
    (R := Allocates) ?_ ?_ ?_ ?_ h
  case refine_1 =>
    rintro σ ⟨st, now, rfl⟩
    exact ⟨by simp, by simp [State.attaches], by simp [State.opens]⟩
  case refine_2 =>
    intro σ r σ' ops h e
    have ⟨next, agents, attaches, opens⟩ := start_handles e
    refine ⟨⟨?_, ?_, ?_⟩, ⟨next.ge, ?_, attaches ▸ List.suffix_refl _⟩, ?_⟩
    case refine_1 => rw [next, agents]; exact h.agents
    case refine_2 => rw [next, attaches]; exact h.attaches
    case refine_3 => rw [attaches, opens]; exact h.opens
    case refine_4 => rw [agents]; exact .inl
    case refine_5 =>
      cases r <;> cases e
      case wsAgent => split <;> simp [Op.Handled]
      all_goals simp [Op.Handled]
  case refine_3 =>
    intro c _ i op _ σ' ops hr _ _ h ho e
    replace e := Exec.of e
    exact ⟨h.exec e ho, e.allocates, e.ops_handled (wellFormed_reachable hr).left h ho⟩
  case refine_4 => exact fun _ _ _ _ ha ho => ho.stable ha

-- What the requests and the sections keep, given a pointer handed out before.
theorem kept_after {I : Config State Op → Prop} {ptr : Nat} {c₁ : Config State Op}
    (start : ∀ {c t r σ' ops}, start c.shared r = some (σ', ops) → c.procs t = [] → I c →
      I (c.resume t σ' ops))
    (step : ∀ {c t i op rest σ' ops}, Exec sha256 c.shared op i σ' ops → c.procs t = op :: rest →
      ptr < c.shared.next → I c → I (c.resume t σ' (ops ++ rest)))
    (hp : ptr < c.shared.next) (h : I c) (h₁ : ((program sha256).system.after c).Reachable c₁) :
    I c₁ ∧ c.shared.next ≤ c₁.shared.next := by
  refine h₁.invariant (I := fun c₁ => I c₁ ∧ c.shared.next ≤ c₁.shared.next) ?_ ?_
  case refine_1 =>
    rintro _ rfl
    exact ⟨h, Nat.le_refl _⟩
  case refine_2 =>
    rintro c₁ l c₂ - ⟨h, hn⟩ - e
    replace e : (program sha256).system.step c₁ l = some c₂ := e
    replace e := Step.of e
    cases e
    case start idle e =>
      have ⟨next, _⟩ := start_handles e
      exact ⟨start e idle h, by rwa [Config.resume_shared, next]⟩
    case step head e =>
      replace e := Exec.of e
      exact ⟨step e head (Nat.lt_of_lt_of_le hp hn) h, Nat.le_trans hn e.allocates.next⟩

end Broker
