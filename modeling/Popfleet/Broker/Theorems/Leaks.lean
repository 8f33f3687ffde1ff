import Popfleet.Broker.Theorems.Sessions

open Proto Store Program

namespace Broker

-- The agent said that the session ended, or close was enqueued for it.
def Told (σ : State) (s : Session) (ac : AgentConn) : Prop :=
  (∃ f, .read ac f ∈ σ.log ∧ (f.t = "exit" ∨ f.t = "err") ∧ f.sid = s.sid) ∨
  ∃ m ∈ (σ.agentConns ac).out, m.t = "close" ∧ m.sid = s.sid

-- When close is sent to an agent, its queue has room or is closed, and when an agent ends a session,
-- no other agent is registered for the machine.
def ClosesTaken (c : Config State Op) (l : Label Req Input) : Prop :=
  (∀ {t i ac m rest}, l = .step t i → c.procs t = .sendAgent ac m :: rest → m.t = "close" →
    (c.shared.agentConns ac).closed ∨ (c.shared.agentConns ac).full = false) ∧
  (∀ {t i ac f rest s}, l = .step t i → c.procs t = .ended ac f :: rest →
    c.shared.sess.get? f.sid = some s → s.mid = ac.mid →
    c.shared.agents.get? s.mid = some ac ∨ c.shared.agents.get? s.mid = none)

-- The session that a section may still open, or gave up to open.
def Op.opening : Op → Option Session
  | .sendOpen s _ _       => some s
  | .endSession s _ false => some s
  | _                     => none

-- A session is opened at most once, and not after that was given up.
structure Opening (c : Config State Op) : Prop where
  unopened : ∀ {o s}, c.Pending o → o.opening = some s → ∀ ac, (s, ac) ∉ c.shared.opens
  unique   : ∀ s, c.Unique (·.opening = some s)

-- What a section relies on: the agent did send the frame, and the agent to open on is no new one.
def Op.Grounded (σ : State) : Op → Prop
  | .ended ac f     => .read ac f ∈ σ.log ∧ (f.t = "exit" ∨ f.t = "err")
  | .upgrade _ _ ac => ∀ a, ac = some a → a.ptr < σ.next
  | .attach _ _ ac  => ∀ a, ac = some a → a.ptr < σ.next
  | .sendOpen _ ac _ => ∀ a, ac = some a → a.ptr < σ.next
  | _               => True

-- The agent that a session was or will be opened on.
def Linked (c : Config State Op) (s : Session) (ac : AgentConn) : Prop :=
  (s, ac) ∈ c.shared.opens ∨ ∃ cmd, c.Pending (.sendOpen s (some ac) cmd)

-- No shell is left running that is not about to be closed.
def Unleaked (c : Config State Op) : Prop :=
  ∀ s ac, Linked c s ac → c.shared.agents.get? s.mid = some ac →
    (c.shared.agentConns ac).closed = false →
    c.shared.sess.get? s.sid = some s ∨ Told c.shared s ac ∨
      c.Pending (.sendAgent ac { t := "close", sid := s.sid })

variable {sha256 : String → Digest} {σ σ' : State} {op : Op} {i : Input} {ops rest : List Op}
  {r : Req} {c c' : Config State Op} {l : Label Req Input} {t : Tid} {ac : AgentConn} {s : Session}

theorem Op.Grounded.mono (hl : σ.log <:+ σ'.log) (hn : σ.next ≤ σ'.next) (h : op.Grounded σ) :
    op.Grounded σ' := by
  cases op
  case ended => exact ⟨hl.mem h.left, h.right⟩
  case upgrade | attach | sendOpen => exact fun a ha => Nat.lt_of_lt_of_le (h a ha) hn
  all_goals trivial

theorem Exec.ops_grounded (e : Exec sha256 σ op i σ' ops) (h : Handles σ) (ho : op.Grounded σ) :
    ∀ o ∈ ops, o.Grounded σ' := by
  have grown := ho.mono e.log_suffix e.allocates.next
  cases e <;> simp only [List.cons_append, List.forall_mem_cons, List.forall_mem_append,
    List.forall_mem_map, List.not_mem_nil, IsEmpty.forall_iff, implies_true, and_true]
  case registered => exact ⟨trivial, trivial⟩
  case replaced => exact ⟨trivial, fun _ _ => trivial, trivial, trivial⟩
  case dropped => exact ⟨trivial, fun _ _ => trivial⟩
  case agentRead ac f =>
    exact ⟨forall_handleAgent trivial (fun _ => trivial) (fun ht => ⟨List.mem_cons_self, ht⟩), trivial⟩
  case sessEnded close | goneEnded close =>
    exact ⟨trivial, forall_close close fun _ _ => trivial⟩
  case accepted => exact fun a ha => h.agents ha
  case upgraded => exact grown
  case attached => exact grown
  case termRead => exact ⟨forall_handleTerm trivial trivial, trivial⟩
  case knownToken => exact ⟨trivial, trivial⟩
  case deleted => exact ⟨trivial, trivial⟩
  all_goals trivial

theorem grounded_reachable (h : (program sha256).system.Reachable c) :
    (∀ s ac, (s, ac) ∈ c.shared.opens → ac.ptr < c.shared.next) ∧
      ∀ o, c.Pending o → o.Grounded c.shared := by
  refine section_invariant (P := program sha256)
    (I := fun σ => ∀ s ac, (s, ac) ∈ σ.opens → ac.ptr < σ.next) (A := Op.Grounded)
    (R := fun σ σ' => σ.log <:+ σ'.log ∧ σ.next ≤ σ'.next) ?_ ?_ ?_ ?_ h
  case refine_1 =>
    rintro σ ⟨st, now, rfl⟩
    simp [State.opens]
  case refine_2 =>
    intro σ r σ' ops h e
    obtain ⟨next, _, _, opens⟩ := start_handles e
    obtain ⟨_, _, _, log⟩ := start_shared e
    refine ⟨next ▸ opens ▸ h, ⟨log ▸ List.suffix_refl _, next.ge⟩, ?_⟩
    cases r <;> cases e
    case wsAgent => split <;> simp [Op.Grounded]
    all_goals simp [Op.Grounded]
  case refine_3 =>
    intro c _ i op _ σ' ops hr _ _ h ho e
    replace e := Exec.of e
    refine ⟨fun s ac hs => ?_, ⟨e.log_suffix, e.allocates.next⟩,
      e.ops_grounded (handles_reachable hr).left ho⟩
    have next := e.allocates.next
    cases e
    case opened =>
      cases hs
      case head    => exact ho _ rfl
      case tail hs => exact h _ _ hs
    all_goals exact Nat.lt_of_lt_of_le (h _ _ hs) next
  case refine_4 => exact fun _ _ _ _ hr ho => ho.mono hr.left hr.right

-- Only `wsTerm` opens a session, and only one that it just attached.
theorem Exec.opening_cases (e : Exec sha256 σ op i σ' ops) :
    (σ'.opens = σ.opens ∧ ∀ o ∈ ops, o.opening = none) ∨
    (∃ sid p ac, op = .attach sid p ac ∧ σ'.opens = σ.opens ∧
      ops = [.sendOpen (σ.newSession sid p.mid).2 ac p.cmd]) ∨
    (∃ s ac cmd, op = .sendOpen s (some ac) cmd ∧ σ'.opens = (s, ac) :: σ.opens ∧
      ∀ o ∈ ops, o.opening = none) ∨
    (∃ s ac cmd final, op = .sendOpen s ac cmd ∧ σ' = σ ∧ ops = [.endSession s final false]) := by
  cases e
  case attached sid p ac => exact .inr (.inl ⟨sid, p, ac, rfl, rfl, rfl⟩)
  case opened s ac cmd _ =>
    exact .inr (.inr (.inl ⟨s, ac, cmd, rfl, rfl, by simp [Op.opening]⟩))
  case notOpened s ac cmd => exact .inr (.inr (.inr ⟨s, ac, cmd, _, rfl, rfl, rfl⟩))
  case agentRead =>
    refine .inl ⟨rfl, List.forall_mem_append.mpr ⟨?_, by simp [Op.opening]⟩⟩
    exact forall_handleAgent rfl (fun _ => rfl) (fun _ => rfl)
  case termRead =>
    refine .inl ⟨rfl, List.forall_mem_append.mpr ⟨?_, by simp [Op.opening]⟩⟩
    exact forall_handleTerm rfl rfl
  case sessEnded close | goneEnded close =>
    exact .inl ⟨rfl, List.forall_mem_cons.mpr ⟨rfl, forall_close close fun _ _ => rfl⟩⟩
  all_goals exact .inl ⟨rfl, by simp +contextual [Op.opening, or_imp]⟩

theorem start_opening (e : start σ r = some (σ', ops)) : ∀ o ∈ ops, o.opening = none := by
  cases r <;> cases e
  case wsAgent => split <;> simp [Op.opening]
  all_goals simp [Op.opening]

theorem Op.session_of_opening {o : Op} (h : o.opening = some s) : o.session = some s := by
  cases o
  case endSession notify =>
    cases notify
    case true  => contradiction
    case false => exact h
  case sendOpen => exact h
  all_goals contradiction

theorem Opening.start (e : Broker.start c.shared r = some (σ', ops)) (h : Opening c) :
    Opening (c.resume t σ' ops) := by
  have idle := start_opening e
  have ⟨_, _, _, opens⟩ := start_handles e
  constructor
  case unopened =>
    intro o s ho hs
    have hp := ho.of_resume.resolve_left fun hm => by simp [idle o hm] at hs
    exact opens ▸ h.unopened hp hs
  case unique =>
    intro s
    have none : ops.countP (·.opening = some s) = 0 :=
      List.countP_eq_zero.mpr fun o hm => by simp [idle o hm]
    exact (h.unique s).resume (none ▸ Nat.zero_le _)

theorem Opening.step (e : Exec sha256 c.shared op i σ' ops) (head : c.procs t = op :: rest)
    (handles : Handles c.shared) (known : ∀ o, c.Pending o → o.Known c.shared) (h : Opening c) :
    Opening (c.resume t σ' (ops ++ rest)) := by
  rcases e.opening_cases with ⟨opens, none⟩ | ⟨sid, p, ac, rfl, opens, rfl⟩ |
    ⟨s, ac, cmd, rfl, opens, none⟩ | ⟨s, ac, cmd, final, rfl, rfl, rfl⟩
  case inl =>
    constructor
    case unopened =>
      intro o s ho hs
      have hp := (ho.of_step head).resolve_left fun hm => by simp [none o hm] at hs
      exact opens ▸ h.unopened hp hs
    case unique => exact fun s => (h.unique s).step head fun o hm => by simp [none o hm]
  case inr.inl =>
    let s : Session := (c.shared.newSession sid p.mid).2
    have fresh : s ∉ c.shared.attaches := fun hs => Nat.lt_irrefl _ (handles.attaches hs)
    have none {o} (ho : c.Pending o) : o.opening ≠ some s := fun hs =>
      fresh (known o ho s (Op.session_of_opening hs))
    constructor
    case unopened =>
      intro o s' ho hs ac' hm
      replace hm : (s', ac') ∈ c.shared.opens := opens ▸ hm
      cases ho.of_step head
      case inl ho =>
        cases List.mem_singleton.mp ho
        cases hs
        exact fresh (handles.opens hm)
      case inr ho => exact h.unopened ho hs ac' hm
    case unique =>
      intro s'
      by_cases he : s' = s
      case neg => exact (h.unique s').step head (by simpa [Op.opening] using Ne.symm he)
      case pos =>
        apply Config.Unique.resume_of_none
        case h => exact fun t o ho => by simpa [he] using none ⟨t, ho⟩
        case hle =>
          have zero : rest.countP (·.opening = some s') = 0 := List.countP_eq_zero.mpr fun o ho => by
            simpa [he] using none ⟨t, head ▸ List.mem_cons_of_mem _ ho⟩
          simp [List.countP_cons, zero]
          split <;> simp
  case inr.inr.inl =>
    constructor
    case unopened =>
      intro o s' ho hs ac' hm
      rw [Config.resume_shared, opens] at hm
      have hp := (ho.of_step head).resolve_left fun hm => by simp [none o hm] at hs
      cases hm
      case tail hm => exact h.unopened hp hs ac' hm
      case head =>
        -- The section that was run is the only one that opens `s`.
        have ⟨t', ho⟩ := ho
        exact (h.unique s).none_of_head head (by simp [Op.opening]) (fun o hm => by simp [none o hm])
          ho (by simp [hs])
    case unique => exact fun s' => (h.unique s').step head fun o hm => by simp [none o hm]
  case inr.inr.inr =>
    have sendOpen : c.Pending (.sendOpen s ac cmd) := ⟨t, head ▸ List.mem_cons_self⟩
    constructor
    case unopened =>
      intro o s' ho hs
      cases ho.of_step head
      case inl ho =>
        cases List.mem_singleton.mp ho
        cases hs
        exact h.unopened sendOpen rfl
      case inr ho => exact h.unopened ho hs
    case unique =>
      intro s'
      apply (h.unique s').resume
      rw [head]
      simp [List.countP_cons, Op.opening]

theorem opening_reachable (h : (program sha256).system.Reachable c) : Opening c := by
  refine h.invariant (I := Opening) ?_ ?_
  case refine_1 =>
    intro c hi
    have ⟨_, hp⟩ := hi
    refine ⟨fun ⟨t, ho⟩ => ?_, fun s => ⟨by simp [hp], by simp [hp]⟩⟩
    simp [hp] at ho
  case refine_2 =>
    intro c l c' hr hi _ e
    replace e := Step.of e
    cases e
    case start e     => exact hi.start e
    case step head e =>
      exact hi.step (Exec.of e) head (handles_reachable hr).left (known_reachable hr).right

-- Frames stay on the queue of an agent, and a closed queue stays closed.

theorem State.sendAgent_grown {a : AgentConn} {m : Msg} :
    (σ.agentConns ac).out ⊆ ((σ.sendAgent a m).agentConns ac).out ∧
      ((σ.sendAgent a m).agentConns ac).closed = (σ.agentConns ac).closed := by
  refine ⟨?_, sendAgent_closed⟩
  simp only [State.sendAgent, Function.update_apply]
  split
  case isFalse => exact List.Subset.refl _
  case isTrue he =>
    rw [he, Conn.send]
    split
    case isTrue  => exact List.Subset.refl _
    case isFalse => exact List.subset_append_left ..

theorem Exec.agentConns_grown (e : Exec sha256 σ op i σ' ops) (hac : ac.ptr < σ.next) :
    (σ.agentConns ac).out ⊆ (σ'.agentConns ac).out ∧
      ((σ'.agentConns ac).closed = false → (σ.agentConns ac).closed = false) := by
  have registered {mid : String} : (σ.newAgent mid).1.agentConns ac = σ.agentConns ac := by
    refine Function.update_of_ne (fun he => ?_) ..
    exact absurd hac (he ▸ Nat.lt_irrefl _)
  cases e
  case registered | replaced =>
    exact ⟨registered ▸ List.Subset.refl _, fun hc => registered ▸ hc⟩
  case agentClosed a =>
    simp only [State.closeAgent, Function.update_apply]
    split
    case isTrue he => simp [he]
    case isFalse   => exact ⟨List.Subset.refl _, id⟩
  case agentSent | relayed | opened =>
    exact ⟨State.sendAgent_grown.left, fun hc => State.sendAgent_grown.right.symm.trans hc⟩
  all_goals exact ⟨List.Subset.refl _, id⟩

theorem start_agentConns (e : start σ r = some (σ', ops)) :
    (σ'.agentConns ac).out = (σ.agentConns ac).out ∧
      (σ'.agentConns ac).closed = (σ.agentConns ac).closed := by
  cases r <;> cases e
  case drainAgent =>
    simp only [Function.update_apply]
    split
    case isTrue he => simp [he]
    case isFalse   => exact ⟨rfl, rfl⟩
  all_goals exact ⟨rfl, rfl⟩

theorem Told.exec (e : Exec sha256 σ op i σ' ops) (hac : ac.ptr < σ.next) (h : Told σ s ac) :
    Told σ' s ac := by
  cases h
  case inl h =>
    have ⟨f, hf, h⟩ := h
    exact .inl ⟨f, e.log_suffix.mem hf, h⟩
  case inr h =>
    have ⟨m, hm, h⟩ := h
    exact .inr ⟨m, (e.agentConns_grown hac).left hm, h⟩

-- What takes a session out of the map.
theorem Exec.sess_lost (e : Exec sha256 σ op i σ' ops) (h : σ.sess.get? s.sid = some s) :
    σ'.sess.get? s.sid = some s ∨
    op = .register s.mid ∨
    (∃ a why, op = .dropAgent a why ∧ s.mid = a.mid ∧ σ.agents.get? a.mid = some a) ∨
    (∃ a f, op = .ended a f ∧ f.sid = s.sid ∧ s.mid = a.mid) ∨
    (∃ final notify, op = .endSession s final notify) ∨
    (∃ p ac, op = .attach s.sid p ac) := by
  cases e
  case replaced mid _ _ =>
    by_cases hm : s.mid = mid
    case neg => exact .inl (GoMap.get?_deleteWhere_eq_some.mpr ⟨h, decide_eq_false hm⟩)
    case pos => exact .inr (.inl (hm ▸ rfl))
  case dropped a why ha =>
    by_cases hm : s.mid = a.mid
    case neg => exact .inl (GoMap.get?_deleteWhere_eq_some.mpr ⟨h, decide_eq_false hm⟩)
    case pos => exact .inr (.inr (.inl ⟨a, why, rfl, hm, ha⟩))
  case ended a f s' hs' hm =>
    by_cases he : s.sid = f.sid
    case neg => exact .inl (GoMap.get?_delete.trans ((if_neg he).trans h))
    case pos =>
      cases (he ▸ h).symm.trans hs'
      exact .inr (.inr (.inr (.inl ⟨a, f, rfl, he.symm, hm⟩)))
  case sessEnded s' final notify _ hs' _ =>
    by_cases he : s.sid = s'.sid
    case neg => exact .inl (GoMap.get?_delete.trans ((if_neg he).trans h))
    case pos =>
      cases (he ▸ h).symm.trans hs'
      exact .inr (.inr (.inr (.inr (.inl ⟨final, notify, rfl⟩))))
  case attached sid p ac =>
    by_cases he : s.sid = sid
    case neg => exact .inl (GoMap.get?_set.trans ((if_neg he).trans h))
    case pos => exact .inr (.inr (.inr (.inr (.inr ⟨p, ac, he ▸ rfl⟩))))
  all_goals exact .inl h

theorem Linked.of_step (e : Exec sha256 c.shared op i σ' ops) (head : c.procs t = op :: rest)
    (h : Linked (c.resume t σ' (ops ++ rest)) s ac) :
    Linked c s ac ∨ σ'.sess.get? s.sid = some s := by
  cases h
  case inl ho =>
    rw [Config.resume_shared] at ho
    rcases e.opening_cases with ⟨opens, _⟩ | ⟨_, _, _, _, opens, _⟩ | ⟨s', a, cmd, rfl, opens, _⟩ |
      ⟨_, _, _, _, _, same, _⟩
    case inl         => exact .inl (.inl (opens ▸ ho))
    case inr.inl     => exact .inl (.inl (opens ▸ ho))
    case inr.inr.inl =>
      rw [opens] at ho
      cases ho
      case head    => exact .inl (.inr ⟨cmd, t, head ▸ List.mem_cons_self⟩)
      case tail ho => exact .inl (.inl ho)
    case inr.inr.inr => exact .inl (.inl (same ▸ ho))
  case inr hp =>
    have ⟨cmd, hp⟩ := hp
    cases hp.of_step head
    case inr hp => exact .inl (.inr ⟨cmd, hp⟩)
    case inl hm =>
      rcases e.opening_cases with ⟨_, none⟩ | ⟨sid, p, a, rfl, _, rfl⟩ | ⟨_, _, _, _, _, none⟩ |
        ⟨_, _, _, _, _, _, rfl⟩
      case inl         => cases none _ hm
      case inr.inr.inl => cases none _ hm
      case inr.inr.inr => simp at hm
      case inr.inl =>
        cases List.mem_singleton.mp hm
        cases e
        exact .inr (GoMap.get?_set.trans (if_pos rfl))

theorem Linked.ptr_lt (h : (program sha256).system.Reachable c) (hl : Linked c s ac) :
    ac.ptr < c.shared.next ∧ s ∈ c.shared.attaches := by
  have ⟨opens, grounded⟩ := grounded_reachable h
  have ⟨handles, handled⟩ := handles_reachable h
  cases hl
  case inl ho => exact ⟨opens _ _ ho, handles.opens ho⟩
  case inr hp =>
    have ⟨cmd, hp⟩ := hp
    exact ⟨grounded _ hp _ rfl, handled _ hp⟩

-- An agent that is registered after a section was before, unless it is a new one.
theorem Exec.registered_before (e : Exec sha256 σ op i σ' ops) (hac : ac.ptr < σ.next) {mid : String}
    (h : σ'.agents.get? mid = some ac) : σ.agents.get? mid = some ac ∧ op ≠ .register mid := by
  have old {mid' : String} : ac ≠ (σ.newAgent mid').2 := by
    intro he
    exact absurd hac (he ▸ Nat.lt_irrefl _)
  have unregistered : op ≠ .register mid := by
    rintro rfl
    have set : (σ.agents.set mid (σ.newAgent mid).2).get? mid = some ac := by cases e <;> exact h
    rw [GoMap.get?_set, if_pos rfl] at set
    exact old (Option.some.inj set).symm
  refine ⟨?_, unregistered⟩
  rcases e.agents_cases with ⟨same, _⟩ | ⟨mid', rfl, set, _⟩ | ⟨_, _, _, _, delete⟩
  case inl => exact same ▸ h
  case inr.inl =>
    rw [set] at h
    cases GoMap.of_get?_set h
    case inl h => exact absurd h.right old
    case inr h => exact h.right
  case inr.inr =>
    rw [delete] at h
    exact (GoMap.of_get?_delete h).right

theorem Unleaked.start (e : Broker.start c.shared r = some (σ', ops)) (idle : c.procs t = [])
    (h : Unleaked c) : Unleaked (c.resume t σ' ops) := by
  intro s ac hl ha hc
  have ⟨_, agents, sess, log⟩ := start_shared e
  have ⟨out, closed⟩ := @start_agentConns _ _ _ _ ac e
  have linked : Linked c s ac := by
    have ⟨_, _, _, opens⟩ := start_handles e
    cases hl
    case inl ho => exact .inl (opens ▸ ho)
    case inr hp =>
      have ⟨cmd, hp⟩ := hp
      refine .inr ⟨cmd, hp.of_resume.resolve_left fun hm => ?_⟩
      cases start_opening e _ hm
  rw [Config.resume_shared] at ha hc ⊢
  rcases h s ac linked (agents ▸ ha) (closed ▸ hc) with hs | told | hp
  case inl     => exact .inl (sess ▸ hs)
  case inr.inl => exact .inr (.inl (by simpa only [Told, log, out] using told))
  case inr.inr => exact .inr (.inr (hp.start idle))

-- A section that ends a session goes on to tell the agent, or the agent knows.
theorem Unleaked.lost (h : (program sha256).system.Reachable c) (fresh : c.shared.FreshSids)
    (hok : ClosesTaken c (.step t i)) (head : c.procs t = op :: rest)
    (e : exec sha256 c.shared op i = some (σ', ops)) (hl : Linked c s ac)
    (hl' : Linked (c.resume t σ' (ops ++ rest)) s ac) (ha : σ'.agents.get? s.mid = some ac)
    (hs : c.shared.sess.get? s.sid = some s) :
    σ'.sess.get? s.sid = some s ∨ Told σ' s ac ∨
      (c.resume t σ' (ops ++ rest)).Pending (.sendAgent ac { t := "close", sid := s.sid }) := by
  have ⟨ptr, attached⟩ := hl.ptr_lt h
  have graph := Exec.of e
  have ⟨registered, unreplaced⟩ := graph.registered_before ptr ha
  have pending : c.Pending op := ⟨t, head ▸ List.mem_cons_self⟩
  rcases graph.sess_lost hs with same | rfl | ⟨a, why, rfl, hm, hd⟩ | ⟨a, f, rfl, hf, hm⟩ |
    ⟨final, notify, rfl⟩ | ⟨p, a, rfl⟩
  case inl => exact .inl same
  case inr.inl => exact absurd rfl unreplaced
  case inr.inr.inl =>
    have delete : σ'.agents = c.shared.agents.delete a.mid := by
      cases graph
      case dropped       => rfl
      case zombieDropped => contradiction
    rw [delete, hm, GoMap.get?_delete, if_pos rfl] at ha
    contradiction
  case inr.inr.inr.inl =>
    have ⟨hr, ht⟩ := (grounded_reachable h).right _ pending
    have current : a = ac := by
      cases hok.right rfl head (hf ▸ hs) hm
      case inl hr => exact Option.some.inj (hr.symm.trans registered)
      case inr hr => simp [registered] at hr
    exact .inr (.inl (.inl ⟨f, graph.log_suffix.mem (current ▸ hr), ht, hf⟩))
  case inr.inr.inr.inr.inl =>
    cases notify
    case true =>
      simp only [exec, registered, if_true] at e
      cases e
      exact .inr (.inr (Config.pending_of_mem (by simp)))
    case false =>
      -- A session that is given up was not opened, and will not be.
      have opening := opening_reachable h
      obtain ⟨opens, unopening⟩ : σ'.opens = c.shared.opens ∧ ∀ o ∈ ops, o.opening = none := by
        rcases graph.opening_cases with same | ⟨_, _, _, hop, _⟩ | ⟨_, _, _, hop, _⟩ |
          ⟨_, _, _, _, hop, _⟩
        case inl => exact same
        all_goals cases hop
      cases hl'
      case inl ho => exact absurd (opens ▸ ho) (opening.unopened pending rfl ac)
      case inr hp =>
        obtain ⟨cmd, t', hp⟩ := hp
        exact absurd (by simp [Op.opening]) ((opening.unique s).none_of_head head
          (by simp [Op.opening]) (fun o hm => by simp [unopening o hm]) hp)
  case inr.inr.inr.inr.inr =>
    exact absurd rfl ((attaches_reachable h fresh).pending pending rfl |>.right s attached)

theorem Unleaked.step (h : (program sha256).system.Reachable c) (fresh : c.shared.FreshSids)
    (hok : ClosesTaken c (.step t i)) (head : c.procs t = op :: rest)
    (e : exec sha256 c.shared op i = some (σ', ops)) (hu : Unleaked c) :
    Unleaked (c.resume t σ' (ops ++ rest)) := by
  intro s ac hl' ha hc
  have graph := Exec.of e
  cases Linked.of_step graph head hl'
  case inr hs => exact .inl hs
  case inl hl =>
    have ⟨ptr, _⟩ := hl.ptr_lt h
    have ⟨grown, unclosed⟩ := graph.agentConns_grown ptr
    have ⟨registered, _⟩ := graph.registered_before ptr ha
    rcases hu s ac hl registered (unclosed hc) with hs | told | hp
    case inl     => exact Unleaked.lost h fresh hok head e hl hl' ha hs
    case inr.inl => exact .inr (.inl (told.exec graph ptr))
    case inr.inr =>
      cases hp.step head
      case inr hp => exact .inr (.inr hp)
      case inl hop =>
        -- The close is taken.
        subst hop
        refine .inr (.inl (.inr ⟨{ t := "close", sid := s.sid }, ?_, rfl, rfl⟩))
        have room : (c.shared.agentConns ac).full = false := by
          cases hok.left rfl head rfl
          case inl h => simp [unclosed hc] at h
          case inr h => exact h
        cases e
        simp [State.sendAgent, Conn.send, unclosed hc, room]

theorem unleaked_reachable (h : (program sha256).system.ReachableUnder ClosesTaken c)
    (hf : c.shared.FreshSids) : Unleaked c := by
  induction h
  case init c hi =>
    obtain ⟨⟨st, now, hs⟩, hp⟩ := hi
    intro s ac hl
    cases hl
    case inl ho => simp [hs, State.opens] at ho
    case inr hp' =>
      obtain ⟨_, t, hp'⟩ := hp'
      simp [hp] at hp'
  case step c l c' hr hok e hi =>
    replace e := Step.of e
    cases e
    case start idle e => exact (hi (hf.of_suffix ⟨[], (start_mints e).symm⟩)).start e idle
    case step head e =>
      have fresh := hf.of_suffix (Exec.of e).mints_suffix
      exact (hi fresh).step hr.reachable fresh hok head e

-- When no close is lost to a full queue, and no agent ends sessions that were not opened on it, an agent
-- that stays registered knows of every session that was opened on it and is over, as soon as the section
-- that tells it is no longer left to run.
theorem no_leaked_shell (h : (program sha256).system.ReachableUnder ClosesTaken c)
    (hf : c.shared.FreshSids) (ho : (s, ac) ∈ c.shared.opens)
    (hs : c.shared.sess.get? s.sid ≠ some s)
    (hn : ∀ m, m.t = "close" → m.sid = s.sid → ¬c.Pending (.sendAgent ac m))
    (ha : c.shared.agents.get? s.mid = some ac) (hc : (c.shared.agentConns ac).closed = false) :
    (∃ f, .read ac f ∈ c.shared.log ∧ (f.t = "exit" ∨ f.t = "err") ∧ f.sid = s.sid) ∨
    ∃ m ∈ (c.shared.agentConns ac).out, m.t = "close" ∧ m.sid = s.sid := by
  rcases unleaked_reachable h hf s ac (.inl ho) ha hc with attached | told | hp
  case inl     => exact absurd attached hs
  case inr.inl => exact told
  case inr.inr => exact absurd hp (hn _ rfl rfl)

-- A step that loses no close, and ends no session for an agent.
def losesNoClose (c : Config State Op) : Label Req Input → Bool
  | .start .. => true
  | .step t _ =>
    match c.procs t with
    | .sendAgent ac m :: _ => m.t ≠ "close" ∨ (c.shared.agentConns ac).full = false
    | .ended _ _ :: _      => false
    | _                    => true

theorem closesTaken_of_losesNoClose (c : Config State Op) (l : Label Req Input)
    (h : losesNoClose c l) : ClosesTaken c l := by
  refine ⟨?_, ?_⟩
  case refine_1 =>
    intro t i ac m rest hl hp hm
    subst hl
    exact .inr (by simpa [losesNoClose, hp, hm] using h)
  case refine_2 =>
    intro t i ac f rest s hl hp
    subst hl
    simp [losesNoClose, hp] at h

-- The browser leaves, and the agent is told.
theorem no_leaked_shell_sample :
    let s : Session := ⟨1, "a0", "5c"⟩
    let ls := sampleOpened ++ [.step 2 .failed, .step 2 .done, .step 2 .done, .step 2 .done]
    ∃ c, (program sampleSum).system.runWhile losesNoClose initial ls = some c ∧
      c.shared.sess.get? s.sid ≠ some s ∧
      ((∃ f, .read ⟨0, "5c"⟩ f ∈ c.shared.log ∧ (f.t = "exit" ∨ f.t = "err") ∧ f.sid = s.sid) ∨
        ∃ m ∈ (c.shared.agentConns ⟨0, "5c"⟩).out, m.t = "close" ∧ m.sid = s.sid) := by
  intro s ls
  cases e : (program sampleSum).system.runWhile losesNoClose initial ls
  case none => contradiction
  case some c =>
    have reachable := Transition.ReachableUnder.runWhile (.init (initial_init sampleSum))
      closesTaken_of_losesNoClose e
    have mints : c.shared.mints.map (·.1) = ["a0"] :=
      Transition.eq_of_run (f := (·.shared.mints.map (·.1))) e (by decide)
    have opens : c.shared.opens = [(s, ⟨0, "5c"⟩)] :=
      Transition.eq_of_run (f := (·.shared.opens)) e (by decide)
    have sess : c.shared.sess.get? "a0" = none :=
      Transition.eq_of_run (f := (·.shared.sess.get? "a0")) e (by decide)
    have agents : c.shared.agents.get? "5c" = some ⟨0, "5c"⟩ :=
      Transition.eq_of_run (f := (·.shared.agents.get? "5c")) e (by decide)
    have closed : (c.shared.agentConns ⟨0, "5c"⟩).closed = false :=
      Transition.eq_of_run (f := fun c => (c.shared.agentConns ⟨0, "5c"⟩).closed) e (by decide)
    have fresh : c.shared.FreshSids := by simp [State.FreshSids, mints]
    have gone : c.shared.sess.get? s.sid ≠ some s := by simp [s, sess]
    refine ⟨c, rfl, gone, no_leaked_shell reachable fresh (by simp [opens]) gone ?_ agents closed⟩
    rintro m - - ⟨t, hp⟩
    by_cases ht : t = 0 ∨ t = 1 ∨ t = 2
    case pos =>
      have procs : (c.procs 0, c.procs 1, c.procs 2) = ([], [.readAgent ⟨0, "5c"⟩], []) :=
        Transition.eq_of_run (f := fun c => (c.procs 0, c.procs 1, c.procs 2)) e (by decide)
      simp only [Prod.mk.injEq] at procs
      rcases ht with rfl | rfl | rfl <;> simp [procs] at hp
    case neg =>
      obtain ⟨h₀, h₁, h₂⟩ : 0 ≠ t ∧ 1 ≠ t ∧ 2 ≠ t := by simpa [eq_comm] using ht
      have procs : c.procs t = [] :=
        procs_of_run (Transition.run_of_runWhile e) (by simp [ls, sampleOpened, Label.tid, h₀, h₁, h₂])
      simp [procs] at hp

-- The frames on the queue of an agent that reads nothing.
def sampleTyped (n : Nat) : List Msg :=
  { t := "hello_ok", id := "5c" } :: { t := "open", sid := "a0" } ::
    List.replicate n { t := "in", sid := "a0", data := "eA==" }

theorem sampleTyped_length {n : Nat} : (sampleTyped n).length = n + 2 := by
  simp [sampleTyped]

-- The state after some keystrokes.
structure Typed (c₀ : Config State Op) (n : Nat) (c : Config State Op) : Prop where
  others : ∀ t ≠ 2, c.procs t = c₀.procs t
  term   : c.procs 2 = [.readTerm ⟨1, "a0", "5c"⟩ ⟨0, "5c"⟩]
  conn   : c.shared.agentConns ⟨0, "5c"⟩ = { out := sampleTyped n }
  shared : c.shared = { c₀.shared with agentConns := c.shared.agentConns }

theorem Typed.round {c₀ : Config State Op} {n : Nat} (h : Typed c₀ n c) (hn : n < queueLen - 2) :
    ∃ c', (program sampleSum).system.run c [
        .step 2 (.frame { t := "in", data := "eA==" }), .step 2 .done] = some c' ∧
      Typed c₀ (n + 1) c' := by
  have room : ¬queueLen ≤ n + 1 + 1 := by omega
  have run : ∃ c', (program sampleSum).system.run c [
        .step 2 (.frame { t := "in", data := "eA==" }), .step 2 .done] = some c' ∧
      (∀ t ≠ 2, c'.procs t = c.procs t) ∧ c'.procs 2 = [.readTerm ⟨1, "a0", "5c"⟩ ⟨0, "5c"⟩] ∧
      c'.shared = c.shared.sendAgent ⟨0, "5c"⟩ { t := "in", sid := "a0", data := "eA==" } := by
    simp +contextual [Transition.run, system, Program.step, program, exec, handleTerm, h.term]
  obtain ⟨c', e, others, term, shared⟩ := run
  refine ⟨c', e, fun t ht => (others t ht).trans (h.others t ht), term, ?_, ?_⟩
  case refine_1 =>
    simp [shared, State.sendAgent, h.conn, Conn.send, Conn.full, sampleTyped, room,
      List.replicate_succ']
  case refine_2 =>
    rw [shared]
    exact congrArg (·.sendAgent ⟨0, "5c"⟩ { t := "in", sid := "a0", data := "eA==" }) h.shared

-- The browser leaves when the queue of the agent is full.
theorem Typed.left {c₀ : Config State Op} (h : Typed c₀ (queueLen - 2) c)
    (sess : c₀.shared.sess.get? "a0" = some ⟨1, "a0", "5c"⟩)
    (agents : c₀.shared.agents.get? "5c" = some ⟨0, "5c"⟩) :
    ∃ c', (program sampleSum).system.run c [
        .step 2 .failed, .step 2 .done, .step 2 .done, .step 2 .done] = some c' ∧
      (∀ t ≠ 2, c'.procs t = c₀.procs t) ∧ c'.procs 2 = [] ∧
      c'.shared.sess.get? "a0" = none ∧ c'.shared.agents = c₀.shared.agents ∧
      c'.shared.log = c₀.shared.log ∧
      c'.shared.agentConns ⟨0, "5c"⟩ = { out := sampleTyped (queueLen - 2) } := by
  have sess : c.shared.sess.get? "a0" = some ⟨1, "a0", "5c"⟩ := by rw [h.shared]; exact sess
  have registered : c.shared.agents.get? "5c" = some ⟨0, "5c"⟩ := by rw [h.shared]; exact agents
  have full : (c.shared.agentConns ⟨0, "5c"⟩).full := by
    simpa [h.conn, Conn.full, sampleTyped_length] using by decide
  let left : State := { c.shared with sess := c.shared.sess.delete "a0" }
  have run : ∃ c', (program sampleSum).system.run c [
        .step 2 .failed, .step 2 .done, .step 2 .done, .step 2 .done] = some c' ∧
      (∀ t ≠ 2, c'.procs t = c.procs t) ∧ c'.procs 2 = [] ∧
      c'.shared = (left.closeSess ⟨1, "a0", "5c"⟩ none).sendAgent ⟨0, "5c"⟩
        { t := "close", sid := "a0" } := by
    simp +contextual [Transition.run, system, Program.step, program, exec, h.term, sess, registered,
      left]
  obtain ⟨c', e, others, term, shared⟩ := run
  refine ⟨c', e, fun t ht => (others t ht).trans (h.others t ht), term, ?_, ?_, ?_, ?_⟩
  case refine_1 => simp [shared, State.sendAgent, State.closeSess, left]
  case refine_2 =>
    have agents : c.shared.agents = c₀.shared.agents := by rw [h.shared]
    exact (congrArg State.agents shared).trans agents
  case refine_3 =>
    have log : c.shared.log = c₀.shared.log := by rw [h.shared]
    exact (congrArg State.log shared).trans log
  case refine_4 =>
    have sent : c'.shared.agentConns ⟨0, "5c"⟩ =
        ((c.shared.agentConns ⟨0, "5c"⟩).send { t := "close", sid := "a0" }).1 := by
      simp only [shared, State.sendAgent, Function.update_self]
      rfl
    rw [sent, Conn.send_of_full full, h.conn]

-- The browser of a session leaves while the agent does not read. The agent is never told.
theorem shell_leaked :
    let s : Session := ⟨1, "a0", "5c"⟩
    let ac : AgentConn := ⟨0, "5c"⟩
    let ls := sampleOpened ++
      (List.replicate (queueLen - 2)
        [.step 2 (.frame { t := "in", data := "eA==" }), .step 2 .done]).flatten ++
      [.step 2 .failed, .step 2 .done, .step 2 .done, .step 2 .done]
    ∃ c, (program sampleSum).system.run initial ls = some c ∧ (s, ac) ∈ c.shared.opens ∧
      c.shared.sess.get? s.sid ≠ some s ∧ (∀ t ≠ 1, c.procs t = []) ∧ c.procs 1 = [.readAgent ac] ∧
      c.shared.agents.get? s.mid = some ac ∧ (c.shared.agentConns ac).closed = false ∧
      (∀ f, .read ac f ∉ c.shared.log) ∧ ∀ m ∈ (c.shared.agentConns ac).out, m.t ≠ "close" := by
  intro s ac ls
  cases e₁ : (program sampleSum).system.run initial sampleOpened
  case none => contradiction
  case some c₀ =>
    have procs : (c₀.procs 0, c₀.procs 1, c₀.procs 2) = ([], [.readAgent ac], [.readTerm s ac]) :=
      Transition.eq_of_run (f := fun c => (c.procs 0, c.procs 1, c.procs 2)) e₁ (by decide)
    have conn : c₀.shared.agentConns ac = { out := sampleTyped 0 } :=
      Transition.eq_of_run (f := (·.shared.agentConns ac)) e₁ (by decide)
    have sess : c₀.shared.sess.get? "a0" = some s :=
      Transition.eq_of_run (f := (·.shared.sess.get? "a0")) e₁ (by decide)
    have agents : c₀.shared.agents.get? "5c" = some ac :=
      Transition.eq_of_run (f := (·.shared.agents.get? "5c")) e₁ (by decide)
    have logged : c₀.shared.log = [.opened s ac, .attached s, .accepted "a0" "9f" 0,
        .minted "a0" "9f" ⟨sampleSum "9f", "5c", "", keyTTL⟩, .machine "5c"] :=
      Transition.eq_of_run (f := (·.shared.log)) e₁ (by decide)
    simp only [Prod.mk.injEq] at procs
    obtain ⟨procs₀, procs₁, procs₂⟩ := procs
    have typed : Typed c₀ 0 c₀ := ⟨fun _ _ => rfl, procs₂, conn, rfl⟩
    obtain ⟨c₁, e₂, full⟩ := Transition.run_replicate typed fun n hn c h => h.round hn
    obtain ⟨c, e₃, others, term, sess', agents', log, conn'⟩ := full.left sess agents
    have run : (program sampleSum).system.run initial ls = some c :=
      Transition.run_append_eq_some.mpr ⟨c₁, Transition.run_append_eq_some.mpr ⟨c₀, e₁, e₂⟩, e₃⟩
    refine ⟨c, run, ?_, by simp [s, sess'], fun t h₁ => ?_, (others 1 (by simp)).trans procs₁,
      agents' ▸ agents, by rw [conn'], fun f hf => ?_, ?_⟩
    case refine_1 => simp [State.opens, log, logged]
    case refine_2 =>
      by_cases h₂ : t = 2
      case pos => exact h₂ ▸ term
      by_cases h₀ : t = 0
      case pos => exact h₀ ▸ (others 0 (by simp)).trans procs₀
      refine (others t h₂).trans (procs_of_run e₁ ?_)
      simp [sampleOpened, Label.tid, Ne.symm h₀, Ne.symm h₁, Ne.symm h₂]
    case refine_3 => simp [log, logged] at hf
    case refine_4 =>
      intro m hm
      replace hm : m ∈ sampleTyped (queueLen - 2) := by rwa [conn'] at hm
      rcases List.mem_cons.mp hm with rfl | hm
      case inl => decide
      rcases List.mem_cons.mp hm with rfl | hm
      case inl => decide
      rw [List.eq_of_mem_replicate hm]
      decide

end Broker
