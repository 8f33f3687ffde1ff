import Popfleet.Deployment.Network

open Proto Program V1e Worker

namespace Deployment

-- What each party received is what the other has sent so far.
structure Linked (sha256 : String → Broker.Digest) (H : Mac 32) (G : Gcm tagLen)
    (num : List Char → String) (A : Host) (ac : Broker.AgentConn) (s : Broker.Session) (n : Network A) :
    Prop where
  reads     : (Broker.program sha256).system.Observed (Broker.agentReads ac) n.fromAgent n.broker
  termReads : (Broker.program sha256).system.Observed (Broker.termReads s) n.fromPage n.broker
  agent     : A.Got n.toAgent n.agent
  page      : (Panel.system H G s.sid).Observed Panel.typing n.keys n.page
  received  : n.page.received = n.toPage.map fun m => Json.parse num m.writeJSON
  unprobed  : .probed true ∉ n.page.log
  fromAgent : n.fromAgent <+: A.sents n.agent
  toAgent   : n.toAgent <+: (n.broker.shared.agentConns ac).written
  fromPage  : n.fromPage <+: sents n.page
  toPage    : n.toPage <+: (n.broker.shared.sessConns s).written

-- The graph of `Network.step`, for case analysis.
inductive Step (sha256 : String → Broker.Digest) (H : Mac 32) (G : Gcm tagLen)
    (num : List Char → String) (A : Host) (ac : Broker.AgentConn) (s : Broker.Session) (n : Network A) :
    Label A → Network A → Prop
  | broker {l broker fromAgent fromPage} (e : (Broker.program sha256).system.step n.broker l = some broker)
    (ha : Fifo.receive (A.sents n.agent) n.fromAgent (Broker.agentReads ac n.broker l) = some fromAgent)
    (hp : Fifo.receive (sents n.page) n.fromPage (Broker.termReads s n.broker l) = some fromPage) :
    Step sha256 H G num A ac s n (.broker l) { n with broker, fromAgent, fromPage }
  | agent {l agent toAgent} (e : A.system.step n.agent l = some agent)
    (ha : Fifo.receive (n.broker.shared.agentConns ac).written n.toAgent (A.frame n.agent l).toList =
      some toAgent) :
    Step sha256 H G num A ac s n (.agent l) { n with agent, toAgent }
  | message {m toPage page}
    (hp : Fifo.receive (n.broker.shared.sessConns s).written n.toPage [m] = some toPage)
    (e : (Panel.system H G s.sid).step n.page (.message (Json.parse num m.writeJSON)) = some page) :
    Step sha256 H G num A ac s n (.message m) { n with page, toPage }
  | page {l page} (ha : alone l) (e : (Panel.system H G s.sid).step n.page l = some page) :
    Step sha256 H G num A ac s n (.page l) { n with page, keys := n.keys ++ Panel.typing n.page l }

variable {sha256 : String → Broker.Digest} {H : Mac 32} {G : Gcm tagLen} {num : List Char → String}
  {A : Host} {ac : Broker.AgentConn} {s : Broker.Session} {n n' : Network A} {σ σ' : Panel.State}
  {l : Panel.Label}

theorem Step.of {l : Label A} (e : (Network.system sha256 H G num A ac s).step n l = some n') :
    Step sha256 H G num A ac s n l n' := by
  replace e : Network.step sha256 H G num A ac s n l = some n' := e
  cases l <;> simp only [Network.step, Option.bind_eq_bind, Option.bind_eq_some_iff, Option.pure_def,
    Option.some.injEq] at e
  case broker =>
    obtain ⟨_, e, _, ha, _, hp, rfl⟩ := e
    exact .broker e ha hp
  case agent =>
    obtain ⟨_, e, _, ha, rfl⟩ := e
    exact .agent e ha
  case message =>
    obtain ⟨_, hp, _, e, rfl⟩ := e
    exact .message hp e
  case page =>
    split at e
    case isFalse => contradiction
    case isTrue ha =>
      simp only [Option.bind_eq_some_iff, Option.some.injEq] at e
      obtain ⟨_, e, rfl⟩ := e
      exact .page ha e

theorem sents_step (e : (Panel.system H G s.sid).step σ l = some σ') : sents σ <+: sents σ' :=
  List.reverse_prefix.mpr ((Panel.Exec.log_suffix (Panel.Exec.of e)).filterMap _)

-- What the page does by itself.
theorem received_alone (ha : alone l) (e : (Panel.system H G s.sid).step σ l = some σ') :
    σ'.received = σ.received ∧ (.probed true ∈ σ'.log → .probed true ∈ σ.log) := by
  replace e : Panel.step H G s.sid σ l = some σ' := e
  cases l
  case message => contradiction
  case probe p answers =>
    simp only [Panel.step] at e
    split at e
    case h_2 => contradiction
    case h_1 =>
      cases p
      case json => contradiction
      all_goals
        cases e
        exact ⟨rfl, fun hm => List.mem_of_ne_of_mem (by simp) hm⟩
  all_goals
    cases Panel.Exec.of e
    all_goals first
      | exact ⟨rfl, id⟩
      | exact ⟨rfl, fun hm => List.mem_of_ne_of_mem (by simp) hm⟩

theorem Linked.step {l : Label A} (e : Step sha256 H G num A ac s n l n')
    (h : Linked sha256 H G num A ac s n) : Linked sha256 H G num A ac s n' := by
  cases e
  case broker e ha hp =>
    have ⟨agents, terms⟩ := @Broker.written_step _ _ _ _ ac s h.reads.reachable e
    exact { h with
      reads     := Fifo.receive_eq ha ▸ h.reads.step e
      termReads := Fifo.receive_eq hp ▸ h.termReads.step e
      fromAgent := Fifo.receive_isPrefix h.fromAgent ha
      fromPage  := Fifo.receive_isPrefix h.fromPage hp
      toAgent   := h.toAgent.trans agents
      toPage    := h.toPage.trans terms }
  case agent e ha =>
    exact { h with
      agent     := Fifo.receive_eq ha ▸ h.agent.step e
      fromAgent := h.fromAgent.trans (A.grows e)
      toAgent   := Fifo.receive_isPrefix h.toAgent ha }
  case message m toPage page hp e =>
    refine { h with
      page     := h.page.silent e rfl
      received := ?_
      unprobed := ?_
      fromPage := h.fromPage.trans (sents_step e)
      toPage   := Fifo.receive_isPrefix h.toPage hp }
    all_goals
      replace e : Panel.step H G s.sid n.page (.message (Json.parse num m.writeJSON)) = some page := e
      have ⟨_, e⟩ := Option.ite_none_right_eq_some.mp e
      cases e
    case refine_1 =>
      rw [Panel.received_record, Fifo.receive_eq hp, List.map_append]
      exact congrArg (· ++ _) h.received
    case refine_2 => exact fun hm => h.unprobed (List.mem_of_ne_of_mem (by simp) hm)
  case page ha e =>
    have ⟨received, unprobed⟩ := received_alone ha e
    exact { h with
      page     := h.page.step e
      received := received.trans h.received
      unprobed := fun hp => h.unprobed (unprobed hp)
      fromPage := h.fromPage.trans (sents_step e) }

theorem linked_reachable (h : (Network.system sha256 H G num A ac s).Reachable n) :
    Linked sha256 H G num A ac s n := by
  refine h.invariant (I := Linked sha256 H G num A ac s) ?_ ?_
  case refine_1 =>
    rintro n ⟨broker, agent, page, hn⟩
    rw [hn]
    refine ⟨.init broker, .init broker, .init agent, .init page, ?_, ?_, List.nil_prefix,
      List.nil_prefix, List.nil_prefix, List.nil_prefix⟩
    all_goals
      obtain ⟨stored, hp⟩ := page
      simp [hp, Panel.State.received]
  case refine_2 => exact fun _ _ _ _ hi _ e => hi.step (Step.of e)

end Deployment
