import Popfleet.Broker.Theorems.Keys

open Proto Store Program

namespace Broker

-- `apiTerm` minted the session for the machine.
def Minted (σ : State) (sid mid : String) : Prop :=
  ∃ key p, (sid, key, p) ∈ σ.mints ∧ p.mid = mid

-- A frame that may be enqueued for the agent.
def Addressed (σ : State) (ac : AgentConn) (m : Msg) : Prop :=
  m.t = "hello_ok" ∨ m.t ∈ ["open", "in", "resize", "close"] ∧ Minted σ m.sid ac.mid

-- The values of the maps agree with their keys, and the agents were only sent what is theirs.
structure WellFormed (σ : State) : Prop where
  agents : ∀ {mid ac}, σ.agents.get? mid = some ac → ac.mid = mid
  pend   : ∀ {sid p}, σ.pend.get? sid = some p → Minted σ sid p.mid
  sess   : ∀ {sid s}, σ.sess.get? sid = some s → s.sid = sid ∧ Minted σ s.sid s.mid
  out    : ∀ {ac m}, m ∈ (σ.agentConns ac).out → Addressed σ ac m

-- What a section relies on: the session that it is about was minted for its machine, and its agent
-- belongs to that machine too.
def Op.WellFormed (σ : State) : Op → Prop
  | .sendAgent ac m     => m.t ∉ ["in", "resize"] ∧ Addressed σ ac m
  | .relay s ac m       => m.t ∈ ["in", "resize"] ∧ m.sid = s.sid ∧ ac.mid = s.mid ∧ Addressed σ ac m
  | .sendBrowser s _    => Minted σ s.sid s.mid
  | .endSession s _ _   => Minted σ s.sid s.mid
  | .upgrade sid p ac   => Minted σ sid p.mid ∧ ∀ a, ac = some a → a.mid = p.mid
  | .attach sid p ac    => Minted σ sid p.mid ∧ ∀ a, ac = some a → a.mid = p.mid
  | .sendOpen s ac _    => Minted σ s.sid s.mid ∧ ∀ a, ac = some a → a.mid = s.mid
  | .readTerm s ac      => Minted σ s.sid s.mid ∧ ac.mid = s.mid
  | _                   => True

-- The section that the code still runs in a thread after some others.
def Op.next : Op → Option Op
  | .relay s ac _     => some (.readTerm s ac)
  | .revoke id        => some (.respond id)
  | .dropAgent ac why => if why = "machine revoked" then some (.respond ac.mid) else none
  | _                 => none

def Op.Calls (o o' : Op) : Prop :=
  o.next = some o'

variable {sha256 : String → Digest} {σ σ' : State} {op : Op} {i : Input} {ops rest : List Op}
  {r : Req}
  {c : Config State Op} {t : Tid} {sid mid : String} {ac a : AgentConn} {s : Session} {m : Msg}

theorem Minted.mono (hm : σ.mints <:+ σ'.mints) (h : Minted σ sid mid) : Minted σ' sid mid := by
  have ⟨key, p, h, hp⟩ := h
  exact ⟨key, p, hm.mem h, hp⟩

theorem Addressed.mono (hm : σ.mints <:+ σ'.mints) (h : Addressed σ ac m) : Addressed σ' ac m :=
  h.imp_right fun ⟨ht, h⟩ => ⟨ht, h.mono hm⟩

theorem Op.WellFormed.mono (hm : σ.mints <:+ σ'.mints) (h : op.WellFormed σ) : op.WellFormed σ' := by
  cases op
  case sendAgent              => exact ⟨h.left, h.right.mono hm⟩
  case relay                  =>
    exact ⟨h.left, h.right.left, h.right.right.left, h.right.right.right.mono hm⟩
  case sendBrowser | endSession => exact Minted.mono hm h
  case upgrade | attach | sendOpen | readTerm => exact ⟨h.left.mono hm, h.right⟩
  all_goals trivial

theorem Conn.mem_send {c : Conn} {m' : Msg} (h : m ∈ (c.send m').1.out) : m ∈ c.out ∨ m = m' := by
  unfold send at h
  split at h <;> simp_all

@[simp]
theorem Conn.close_none_out {c : Conn} : (c.close none).out = c.out := by
  unfold close
  split <;> rfl

@[simp]
theorem Conn.drain_out {c : Conn} : c.drain.out = c.out := by
  unfold drain
  split <;> rfl

-- Enqueuing one more frame.
theorem WellFormed.out_send (h : WellFormed σ) (hm : Addressed σ a m) {m' : Msg}
    (h' : m' ∈ ((σ.sendAgent a m).agentConns ac).out) : Addressed σ ac m' := by
  simp only [State.sendAgent, Function.update_apply] at h'
  split at h'
  case isFalse => exact h.out h'
  case isTrue e =>
    cases Conn.mem_send h'
    case inl h' => exact e ▸ h.out h'
    case inr h' => exact h' ▸ e ▸ hm

theorem WellFormed.start (e : start σ r = some (σ', ops)) (h : WellFormed σ) : WellFormed σ' := by
  cases r <;> cases e
  case drainAgent a =>
    refine ⟨h.agents, h.pend, h.sess, fun {ac m} hm => ?_⟩
    simp only [Function.update_apply] at hm
    split at hm
    case isTrue he => exact h.out (he ▸ Conn.drain_out ▸ hm)
    case isFalse   => exact h.out hm
  all_goals exact ⟨h.agents, h.pend, h.sess, h.out⟩

-- The new connection starts with an empty queue, and the map holds it under its machine.
theorem WellFormed.register (h : WellFormed σ) (mid : String) :
    WellFormed { (σ.newAgent mid).1 with agents := σ.agents.set mid (σ.newAgent mid).2 } := by
  refine ⟨fun ha => ?_, h.pend, h.sess, fun {ac m} hm => ?_⟩
  case refine_1 =>
    cases GoMap.of_get?_set ha
    case inl h =>
      obtain ⟨rfl, rfl⟩ := h
      rfl
    case inr hc =>
      obtain ⟨_, ha⟩ := hc
      exact h.agents ha
  case refine_2 =>
    simp only [State.newAgent, Function.update_apply] at hm
    split at hm
    case isTrue  => simp at hm
    case isFalse => exact h.out hm

theorem WellFormed.exec (e : Exec sha256 σ op i σ' ops) (h : WellFormed σ) (ho : op.WellFormed σ) :
    WellFormed σ' := by
  cases e
  case registered mid hn => exact h.register mid
  case replaced mid old hn =>
    have ⟨agents, pend, sess, out⟩ := h.register mid
    exact ⟨agents, pend, fun hs => sess (GoMap.get?_deleteWhere_eq_some.mp hs).left, out⟩
  case agentClosed a =>
    refine ⟨h.agents, h.pend, h.sess, fun {ac m} hm => ?_⟩
    simp only [State.closeAgent, Function.update_apply] at hm
    split at hm
    case isTrue he => exact h.out (he ▸ Conn.close_none_out ▸ hm)
    case isFalse   => exact h.out hm
  case agentSent => exact ⟨h.agents, h.pend, h.sess, h.out_send ho.right⟩
  case ended => exact ⟨h.agents, h.pend, fun hs => h.sess (GoMap.of_get?_delete hs).right, h.out⟩
  case dropped ac why ha =>
    exact ⟨fun ha => h.agents (GoMap.of_get?_delete ha).right, h.pend,
      fun hs => h.sess (GoMap.get?_deleteWhere_eq_some.mp hs).left, h.out⟩
  case sessEnded => exact ⟨h.agents, h.pend, fun hs => h.sess (GoMap.of_get?_delete hs).right, h.out⟩
  case accepted => exact ⟨h.agents, fun hp => h.pend (GoMap.of_get?_delete hp).right, h.sess, h.out⟩
  case attached sid p ac =>
    refine ⟨h.agents, h.pend, fun hs => ?_, h.out⟩
    cases GoMap.of_get?_set hs
    case inl h =>
      obtain ⟨rfl, rfl⟩ := h
      exact ⟨rfl, ho.left⟩
    case inr hc =>
      obtain ⟨_, hs⟩ := hc
      exact h.sess hs
  case opened s ac cmd hs =>
    have addressed : Addressed σ ac { t := "open", sid := s.sid, cmd } :=
      .inr ⟨by simp, ho.right ac rfl ▸ ho.left⟩
    exact ⟨h.agents, h.pend, h.sess, h.out_send addressed⟩
  case relayed => exact ⟨h.agents, h.pend, h.sess, h.out_send ho.right.right.right⟩
  case minted id cmd sid key p hp =>
    have grown : σ.mints <:+ (sid, key, p) :: σ.mints := List.suffix_cons ..
    refine ⟨h.agents, fun hp' => ?_, fun hs => ?_, fun hm => Addressed.mono grown (h.out hm)⟩
    case refine_1 =>
      cases GoMap.of_get?_set hp'
      case inl h =>
        obtain ⟨rfl, rfl⟩ := h
        exact ⟨key, _, List.mem_cons_self, rfl⟩
      case inr hc =>
        obtain ⟨_, hp'⟩ := hc
        exact Minted.mono grown (h.pend hp')
    case refine_2 => exact ⟨(h.sess hs).left, Minted.mono grown (h.sess hs).right⟩
  case swept =>
    refine ⟨h.agents, fun {sid p} hp => ?_, h.sess, h.out⟩
    exact h.pend (GoMap.get?_deleteWhere_eq_some.mp hp).left
  all_goals exact ⟨h.agents, h.pend, h.sess, h.out⟩

theorem Exec.ops_wellFormed (e : Exec sha256 σ op i σ' ops) (h : WellFormed σ)
    (ho : op.WellFormed σ) : ∀ o ∈ ops, o.WellFormed σ' := by
  have grown := e.mints_suffix
  cases e <;> simp only [List.cons_append, List.forall_mem_cons, List.forall_mem_append,
    List.forall_mem_map, List.not_mem_nil, IsEmpty.forall_iff, implies_true, and_true]
  case registered => exact ⟨⟨by simp, .inl rfl⟩, trivial⟩
  case replaced   => exact ⟨trivial, fun _ _ => trivial, ⟨by simp, .inl rfl⟩, trivial⟩
  case agentRead => exact ⟨forall_handleAgent trivial (fun _ => trivial) (fun _ => trivial), trivial⟩
  case routed hs hm => exact (h.sess hs).right
  case browserSlow  => exact ho
  case dropped      => exact ⟨trivial, fun _ _ => trivial⟩
  case sessEnded hs close | goneEnded hs close =>
    exact ⟨trivial, forall_close close fun ac ha => ⟨by simp, .inr ⟨by simp, h.agents ha ▸ ho⟩⟩⟩
  case accepted sid k p hv =>
    exact ⟨h.pend (valid_eq_some.mp hv).left, fun a ha => h.agents ha⟩
  case upgraded => exact ho
  case attached => exact ho
  case opened => exact ⟨ho.left, ho.right _ rfl⟩
  case notOpened => exact ho.left
  case termRead =>
    refine ⟨forall_handleTerm ?_ ?_, ho⟩
    all_goals exact ⟨by simp, rfl, ho.right, .inr ⟨by simp, ho.right ▸ ho.left⟩⟩
  case termLost => exact ho.left
  all_goals trivial

theorem wellFormed_reachable (h : (program sha256).system.Reachable c) :
    WellFormed c.shared ∧ ∀ o, c.Pending o → o.WellFormed c.shared := by
  refine section_invariant (P := program sha256) (I := WellFormed) (A := Op.WellFormed)
    (R := fun σ σ' => σ.mints <:+ σ'.mints) ?_ ?_ ?_ ?_ h
  case refine_1 =>
    rintro σ ⟨st, now, rfl⟩
    exact ⟨by simp, by simp, by simp, by simp⟩
  case refine_2 =>
    intro σ r σ' ops h e
    refine ⟨h.start e, ⟨[], (start_mints e).symm⟩, ?_⟩
    cases r <;> cases e
    case wsAgent hello => split <;> simp [Op.WellFormed]
    all_goals simp [Op.WellFormed]
  case refine_3 =>
    intro c _ i op _ σ' ops _ _ _ h ho e
    replace e := Exec.of e
    exact ⟨h.exec e ho, e.mints_suffix, e.ops_wellFormed h ho⟩
  case refine_4 => exact fun σ σ' op _ hm ho => ho.mono hm

theorem Exec.followed (e : Exec sha256 σ op i σ' ops) (h : WellFormed σ)
    (hf : Followed Op.Calls (op :: rest)) : Followed Op.Calls (ops ++ rest) := by
  have ⟨calls, rest_followed⟩ := hf
  cases e
  case registered | routed | browserSlow | accepted | upgraded | attached | opened | notOpened =>
    exact .append (by simp [Op.Calls, Op.next]) rest_followed
  case replaced | dropped =>
    exact .append (by simp [Op.Calls, Op.next, or_imp, forall_and]) rest_followed
  case agentRead =>
    refine .append (List.forall_mem_append.mpr ⟨forall_handleAgent ?_ ?_ ?_, ?_⟩) rest_followed
    all_goals simp [Op.Calls, Op.next]
  case sessEnded close | goneEnded close =>
    refine .append (List.forall_mem_cons.mpr ⟨?_, forall_close close fun _ _ => ?_⟩) rest_followed
    all_goals simp [Op.Calls, Op.next]
  case termRead s ac f =>
    have read : Followed Op.Calls ([.readTerm s ac] ++ rest) :=
      .append (by simp [Op.Calls, Op.next]) rest_followed
    rw [List.append_assoc]
    unfold handleTerm
    split
    case h_1 => exact ⟨by simp [Op.Calls, Op.next], read⟩
    case h_2 => exact ⟨by simp [Op.Calls, Op.next], read⟩
    case h_3 => exact read
  case deleted => exact ⟨by simp [Op.Calls, Op.next], by simp [Op.Calls, Op.next], rest_followed⟩
  case onlineRevoked id ac ha =>
    have answered : .respond id ∈ rest := calls _ rfl
    exact ⟨by simpa [Op.Calls, Op.next, h.agents ha] using answered, rest_followed⟩
  all_goals exact .append (by simp [Op.Calls, Op.next]) rest_followed

theorem followed_reachable (h : (program sha256).system.Reachable c) (t : Tid) :
    Followed Op.Calls (c.procs t) := by
  refine (thread_invariant (P := program sha256) (I := fun _ => True)
    (B := fun _ => Followed Op.Calls) (R := fun _ _ => True) ?_ ?_ ?_ ?_ ?_ h).right t
  case refine_1 => exact fun _ _ => trivial
  case refine_2 => exact fun _ => trivial
  case refine_3 =>
    intro σ r σ' ops _ e
    refine ⟨trivial, trivial, ?_⟩
    cases r <;> cases e
    case wsAgent => split <;> simp [Followed, Op.Calls, Op.next]
    all_goals simp [Followed, Op.Calls, Op.next]
  case refine_4 =>
    intro c _ i op rest σ' ops hr _ _ _ hf e
    exact ⟨trivial, trivial, (Exec.of e).followed (wellFormed_reachable hr).left hf⟩
  case refine_5 => exact fun _ _ _ _ _ h => h

end Broker
