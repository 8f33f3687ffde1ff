import Popfleet.Broker.Theorems.Registrations

open Proto Store Program

namespace Broker

-- The connections behind the pointers that were not handed out yet.
structure Unused (σ : State) : Prop where
  agent : ∀ {ac}, σ.next ≤ ac.ptr → σ.agentConns ac = {}
  sess  : ∀ {s}, σ.next ≤ s.ptr → σ.sessConns s = {}

-- The connection that a section may send a frame on was handed out.
def Op.Held (σ : State) : Op → Prop
  | .sendAgent ac _  => ac.ptr < σ.next
  | .relay _ ac _    => ac.ptr < σ.next
  | .readTerm _ ac   => ac.ptr < σ.next
  | _                => True

-- The sids for which open was enqueued on a connection, in this order.
def State.opened (σ : State) (ac : AgentConn) : List String :=
  ((σ.opens.filter (·.2 = ac)).map (·.1.sid)).reverse

-- `apiTerm` minted the session for the machine and the command.
def Commanded (σ : State) (sid mid cmd : String) : Prop :=
  ∃ key p, (sid, key, p) ∈ σ.mints ∧ p.mid = mid ∧ p.cmd = cmd

-- What is typed comes after the open frame of its session.
def Introduced (out : List Msg) : Prop :=
  ∀ before m after, out = before ++ m :: after → m.t = "in" ∨ m.t = "resize" →
    ∃ o ∈ before, o.t = "open" ∧ o.sid = m.sid

-- What is on the queues of the agents.
structure Opens (σ : State) : Prop where
  opened     : ∀ ac, ((σ.agentConns ac).out.filter (·.t = "open")).map (·.sid) = σ.opened ac
  commanded  : ∀ {ac m}, m ∈ (σ.agentConns ac).out → m.t = "open" →
    Commanded σ m.sid ac.mid m.cmd
  introduced : ∀ ac, Introduced (σ.agentConns ac).out
  once       : (σ.opens.map (·.1)).Nodup

-- What a section relies on: only `sendOpen` sends open, with the command of its session, and what is
-- relayed is of a session that was opened.
def Op.Opens (σ : State) : Op → Prop
  | .sendAgent _ m    => m.t ≠ "open"
  | .relay s ac _     => (s, ac) ∈ σ.opens
  | .readTerm s ac    => (s, ac) ∈ σ.opens
  | .sendOpen s _ cmd => Commanded σ s.sid s.mid cmd
  | .upgrade sid p _  => Commanded σ sid p.mid p.cmd
  | .attach sid p _   => Commanded σ sid p.mid p.cmd
  | _                 => True

-- What a section does to the queues of the agents.
inductive Queues (σ σ' : State) (op : Op) : Prop
  | same (opens : σ'.opens = σ.opens) (out : ∀ ac, (σ'.agentConns ac).out = (σ.agentConns ac).out)
  | sent {ac m} (hop : op = .sendAgent ac m ∨ ∃ s, op = .relay s ac m) (opens : σ'.opens = σ.opens)
    (out : (σ'.agentConns ac).out = (σ.agentConns ac).out ++ [m])
    (others : ∀ a ≠ ac, (σ'.agentConns a).out = (σ.agentConns a).out)
  | opened {s ac cmd} (hop : op = .sendOpen s (some ac) cmd) (opens : σ'.opens = (s, ac) :: σ.opens)
    (out : (σ'.agentConns ac).out = (σ.agentConns ac).out ++ [{ t := "open", sid := s.sid, cmd }])
    (others : ∀ a ≠ ac, (σ'.agentConns a).out = (σ.agentConns a).out)

variable {sha256 : String → Digest} {σ σ' : State} {op : Op} {i : Input} {ops rest : List Op}
  {r : Req} {c : Config State Op} {t : Tid} {ac : AgentConn} {s : Session} {m : Msg}

theorem Op.Held.mono (hn : σ.next ≤ σ'.next) (h : op.Held σ) : op.Held σ' := by
  cases op
  case sendAgent | relay | readTerm => exact Nat.lt_of_lt_of_le h hn
  all_goals trivial

theorem Exec.ops_held (e : Exec sha256 σ op i σ' ops) (h : Handles σ) (hg : op.Grounded σ)
    (ho : op.Held σ) : ∀ o ∈ ops, o.Held σ' := by
  cases e <;> simp only [List.cons_append, List.forall_mem_cons, List.forall_mem_append,
    List.forall_mem_map, List.not_mem_nil, IsEmpty.forall_iff, implies_true, and_true]
  case registered => exact ⟨Nat.lt_succ_self _, trivial⟩
  case replaced => exact ⟨trivial, fun _ _ => trivial, Nat.lt_succ_self _, trivial⟩
  case dropped => exact ⟨trivial, fun _ _ => trivial⟩
  case agentRead => exact ⟨forall_handleAgent trivial (fun _ => trivial) (fun _ => trivial), trivial⟩
  case sessEnded close | goneEnded close =>
    exact ⟨trivial, forall_close close fun a ha => h.agents ha⟩
  case opened => exact hg _ rfl
  case termRead => exact ⟨forall_handleTerm ho ho, ho⟩
  case knownToken => exact ⟨trivial, trivial⟩
  case deleted => exact ⟨trivial, trivial⟩
  all_goals trivial

theorem held_reachable (h : (program sha256).system.Reachable c) :
    ∀ o, c.Pending o → o.Held c.shared := by
  refine (section_invariant (P := program sha256) (I := fun _ => True) (A := Op.Held)
    (R := fun σ σ' => σ.next ≤ σ'.next) ?_ ?_ ?_ ?_ h).right
  case refine_1 => exact fun _ _ => trivial
  case refine_2 =>
    intro σ r σ' ops _ e
    refine ⟨trivial, (start_handles e).left.ge, ?_⟩
    cases r <;> cases e
    case wsAgent => split <;> simp [Op.Held]
    all_goals simp [Op.Held]
  case refine_3 =>
    intro c t i op _ σ' ops hr _ head _ ho e
    have pending : c.Pending op := ⟨t, head ▸ List.mem_cons_self⟩
    replace e := Exec.of e
    exact ⟨trivial, e.allocates.next,
      e.ops_held (handles_reachable hr).left ((grounded_reachable hr).right op pending) ho⟩
  case refine_4 => exact fun _ _ _ _ hn ho => ho.mono hn

-- Connections that are not handed out yet are not used.

theorem Unused.start (e : Broker.start σ r = some (σ', ops)) (h : Unused σ) : Unused σ' := by
  have next := (start_handles e).left
  cases r <;> cases e
  case drainAgent ac =>
    refine ⟨fun {a} ha => ?_, h.sess⟩
    have unused := h.agent ha
    by_cases he : a = ac
    case neg => simpa [Function.update_of_ne he] using unused
    case pos =>
      subst he
      simp [unused, Conn.drain]
  case drainSess s =>
    refine ⟨h.agent, fun {s'} hs => ?_⟩
    have unused := h.sess hs
    by_cases he : s' = s
    case neg => simpa [Function.update_of_ne he] using unused
    case pos =>
      subst he
      simp [unused, Conn.drain]
  all_goals exact ⟨h.agent, h.sess⟩

theorem Unused.exec (e : Exec sha256 σ op i σ' ops) (handled : op.Handled σ) (grounded : op.Grounded σ)
    (held : op.Held σ) (known : ∀ s, op.session = some s → s.ptr < σ.next) (h : Unused σ) :
    Unused σ' := by
  have agent {a ac : AgentConn} {q : Conn} (ha : a.ptr < σ.next) (hac : σ.next ≤ ac.ptr) :
      Function.update σ.agentConns a q ac = {} := by
    rw [Function.update_of_ne (by rintro rfl; omega)]
    exact h.agent hac
  have sess {s s' : Session} {q : Conn} (hs : s.ptr < σ.next) (hs' : σ.next ≤ s'.ptr) :
      Function.update σ.sessConns s q s' = {} := by
    rw [Function.update_of_ne (by rintro rfl; omega)]
    exact h.sess hs'
  cases e
  case registered mid _ | replaced mid _ _ =>
    refine ⟨fun {ac} ha => ?_, fun hs => h.sess (Nat.le_of_succ_le hs)⟩
    simp only [State.newAgent, State.evict, Function.update_apply]
    split
    case isTrue  => rfl
    case isFalse => exact h.agent (Nat.le_of_succ_le ha)
  case attached sid p _ =>
    refine ⟨fun ha => h.agent (Nat.le_of_succ_le ha), fun {s} hs => ?_⟩
    simp only [State.record, State.newSession, Function.update_apply]
    split
    case isTrue  => rfl
    case isFalse => exact h.sess (Nat.le_of_succ_le hs)
  case agentClosed => exact ⟨agent handled.left, h.sess⟩
  case agentSent => exact ⟨agent held, h.sess⟩
  case relayed => exact ⟨agent held, h.sess⟩
  case opened => exact ⟨agent (grounded _ rfl), h.sess⟩
  case sessClosed | browserSent | browserSlow => exact ⟨h.agent, sess (known _ rfl)⟩
  all_goals exact ⟨h.agent, h.sess⟩

theorem unused_reachable (h : (program sha256).system.Reachable c) : Unused c.shared := by
  induction h
  case init hi =>
    obtain ⟨⟨st, now, hs⟩, _⟩ := hi
    exact hs ▸ ⟨fun _ => rfl, fun _ => rfl⟩
  case step c l c' hr _ e hi =>
    replace e := Step.of e
    cases e
    case start e => exact hi.start e
    case step t i op _ _ _ head e =>
      have pending : c.Pending op := ⟨t, head ▸ List.mem_cons_self⟩
      have handles := handles_reachable hr
      exact hi.exec (Exec.of e) (handles.right op pending) ((grounded_reachable hr).right op pending)
        (held_reachable hr op pending)
        fun s hs => handles.left.attaches ((known_reachable hr).right op pending s hs)

theorem Conn.send_out_of_false {q : Conn} (h : (q.send m).2 = false) : (q.send m).1.out = q.out := by
  unfold send at h ⊢
  split at h <;> simp_all

theorem sendAgent_others {a : AgentConn} (ha : a ≠ ac) :
    ((σ.sendAgent ac m).agentConns a).out = (σ.agentConns a).out := by
  simp [State.sendAgent, Function.update_of_ne ha]

theorem Queues.of_send (hop : op = .sendAgent ac m ∨ ∃ s, op = .relay s ac m) :
    Queues σ (σ.sendAgent ac m) op := by
  have conn : (σ.sendAgent ac m).agentConns ac = ((σ.agentConns ac).send m).1 := by
    simp [State.sendAgent]
  cases hs : ((σ.agentConns ac).send m).2
  case true => exact .sent hop rfl (conn ▸ Conn.send_out hs) fun _ => sendAgent_others
  case false =>
    refine .same rfl fun a => ?_
    by_cases ha : a = ac
    case neg => exact sendAgent_others ha
    case pos => rw [ha, conn, Conn.send_out_of_false hs]

theorem Exec.queues (e : Exec sha256 σ op i σ' ops) (h : Unused σ) : Queues σ σ' op := by
  cases e
  case agentSent => exact .of_send (.inl rfl)
  case relayed s _ _ => exact .of_send (.inr ⟨s, rfl⟩)
  case opened s ac cmd hs =>
    refine .opened rfl rfl ?_ fun _ => sendAgent_others
    simpa [State.record, State.sendAgent] using Conn.send_out hs
  case agentClosed ac =>
    refine .same rfl fun a => ?_
    by_cases ha : a = ac
    case neg => simp [State.closeAgent, Function.update_of_ne ha]
    case pos => simp [State.closeAgent, ha]
  case registered mid _ | replaced mid _ _ =>
    refine .same rfl fun a => ?_
    by_cases ha : a = (σ.newAgent mid).2
    case pos =>
      have unused : σ.agentConns a = {} := h.agent (by simp [ha, State.newAgent])
      simp [State.newAgent, State.evict, Function.update_apply, unused]
    case neg => exact congrArg Conn.out (Function.update_of_ne ha ..)
  all_goals exact .same rfl fun _ => rfl

theorem Commanded.mono {sid mid cmd : String} (hm : σ.mints <:+ σ'.mints) (h : Commanded σ sid mid cmd) :
    Commanded σ' sid mid cmd :=
  have ⟨key, p, hp, hc⟩ := h
  ⟨key, p, hm.mem hp, hc⟩

theorem Exec.opens_subset (e : Exec sha256 σ op i σ' ops) : σ.opens ⊆ σ'.opens := by
  cases e
  case opened => exact List.subset_cons_self ..
  all_goals exact List.Subset.refl _

theorem Op.Opens.mono (hm : σ.mints <:+ σ'.mints) (ho : σ.opens ⊆ σ'.opens) (h : op.Opens σ) :
    op.Opens σ' := by
  cases op
  case sendAgent => exact h
  case relay | readTerm => exact ho h
  case sendOpen | upgrade | attach => exact Commanded.mono hm h
  all_goals trivial

theorem Exec.ops_opens (e : Exec sha256 σ op i σ' ops) (h : Keys sha256 σ) (ho : op.Opens σ) :
    ∀ o ∈ ops, o.Opens σ' := by
  cases e <;> simp only [List.cons_append, List.forall_mem_cons, List.forall_mem_append,
    List.forall_mem_map, List.not_mem_nil, IsEmpty.forall_iff, implies_true, and_true]
  case registered => exact ⟨by simp [Op.Opens], trivial⟩
  case replaced => exact ⟨trivial, fun _ _ => trivial, by simp [Op.Opens], trivial⟩
  case dropped => exact ⟨trivial, fun _ _ => trivial⟩
  case agentRead => exact ⟨forall_handleAgent trivial (fun _ => trivial) (fun _ => trivial), trivial⟩
  case sessEnded close | goneEnded close =>
    exact ⟨trivial, forall_close close fun _ _ => by simp [Op.Opens]⟩
  case accepted hv =>
    have ⟨hp, _, _⟩ := valid_eq_some.mp hv
    have ⟨key, hm⟩ := h.pend hp
    exact ⟨key, _, hm, rfl, rfl⟩
  case upgraded => exact ho
  case attached => exact ho
  case opened => exact List.mem_cons_self
  case termRead => exact ⟨forall_handleTerm ho ho, ho⟩
  case knownToken => exact ⟨trivial, trivial⟩
  case deleted => exact ⟨trivial, trivial⟩
  all_goals trivial

-- What is appended to a queue that is in order.
theorem Introduced.snoc {out : List Msg} (h : Introduced out)
    (hm : m.t = "in" ∨ m.t = "resize" → ∃ o ∈ out, o.t = "open" ∧ o.sid = m.sid) :
    Introduced (out ++ [m]) := by
  intro before m' after hs ht
  rcases List.eq_nil_or_concat after with rfl | ⟨after, last, rfl⟩
  case inl =>
    obtain ⟨rfl, he⟩ := List.append_inj' hs rfl
    cases he
    exact hm ht
  case inr =>
    rw [List.concat_eq_append, ← List.cons_append, ← List.append_assoc] at hs
    exact h _ _ _ (List.append_inj' hs rfl).left ht

theorem mem_opened {sid : String} :
    sid ∈ σ.opened ac ↔ ∃ s, (s, ac) ∈ σ.opens ∧ s.sid = sid := by
  simp [State.opened]

theorem State.opened_cons {a : AgentConn} (ho : σ'.opens = (s, ac) :: σ.opens) :
    σ'.opened a = σ.opened a ++ if a = ac then [s.sid] else [] := by
  by_cases ha : a = ac
  case pos => simp [State.opened, ho, ha]
  case neg => simp [State.opened, ho, ha, Ne.symm ha]

theorem Opens.exec (e : Exec sha256 σ op i σ' ops) (unused : Unused σ) (wf : op.WellFormed σ)
    (unopened : ∀ s, op.opening = some s → ∀ ac, (s, ac) ∉ σ.opens) (ho : op.Opens σ) (h : Opens σ) :
    Opens σ' := by
  have commanded {ac : AgentConn} {m : Msg} (hm : m ∈ (σ.agentConns ac).out) (ht : m.t = "open") :
      Commanded σ' m.sid ac.mid m.cmd := (h.commanded hm ht).mono e.mints_suffix
  have kept {a : AgentConn} (opens : σ'.opens = σ.opens) : σ'.opened a = σ.opened a := by
    simp only [State.opened, opens]
  cases e.queues unused
  case same opens out =>
    refine ⟨fun ac => ?_, fun hm => commanded (out _ ▸ hm), fun ac => out ac ▸ h.introduced ac,
      opens ▸ h.once⟩
    rw [out, kept opens, h.opened]
  case sent ac m hop opens out others =>
    have tag : m.t ≠ "open" := by
      rcases hop with rfl | ⟨s, rfl⟩
      case inl => exact ho
      case inr =>
        have ⟨typed, _⟩ := wf
        intro ht
        simp [ht] at typed
    have typed (ht : m.t = "in" ∨ m.t = "resize") :
        ∃ o ∈ (σ.agentConns ac).out, o.t = "open" ∧ o.sid = m.sid := by
      rcases hop with rfl | ⟨s, rfl⟩
      case inl =>
        have := wf.left
        rcases ht with ht | ht <;> simp [ht] at this
      case inr =>
        have ⟨_, sid, _⟩ := wf
        have opened : m.sid ∈ σ.opened ac := mem_opened.mpr ⟨s, ho, sid.symm⟩
        rw [← h.opened ac] at opened
        obtain ⟨o, hm, he⟩ := List.mem_map.mp opened
        have ⟨hm, ht⟩ := List.mem_filter.mp hm
        exact ⟨o, hm, by simpa using ht, he⟩
    refine ⟨fun a => ?_, fun {a m'} hm ht => ?_, fun a => ?_, opens ▸ h.once⟩
    case refine_1 =>
      rw [kept opens, ← h.opened]
      by_cases ha : a = ac
      case pos => simp [ha, out, tag]
      case neg => rw [others a ha]
    case refine_2 =>
      by_cases ha : a = ac
      case neg => exact commanded (others a ha ▸ hm) ht
      case pos =>
        subst ha
        rw [out] at hm
        rcases List.mem_append.mp hm with hm | hm
        case inl => exact commanded hm ht
        case inr => exact absurd (List.mem_singleton.mp hm ▸ ht) tag
    case refine_3 =>
      by_cases ha : a = ac
      case neg => exact others a ha ▸ h.introduced a
      case pos => exact ha ▸ out ▸ (h.introduced ac).snoc typed
  case opened s ac cmd hop opens out others =>
    subst hop
    refine ⟨fun a => ?_, fun {a m'} hm ht => ?_, fun a => ?_, ?_⟩
    case refine_1 =>
      rw [State.opened_cons opens, ← h.opened]
      by_cases ha : a = ac
      case pos => simp [ha, out]
      case neg => simp [ha, others a ha]
    case refine_2 =>
      by_cases ha : a = ac
      case neg => exact commanded (others a ha ▸ hm) ht
      case pos =>
        subst ha
        rw [out] at hm
        rcases List.mem_append.mp hm with hm | hm
        case inl => exact commanded hm ht
        case inr =>
          cases List.mem_singleton.mp hm
          have mid : a.mid = s.mid := wf.right a rfl
          exact mid ▸ Commanded.mono e.mints_suffix ho
    case refine_3 =>
      by_cases ha : a = ac
      case neg => exact others a ha ▸ h.introduced a
      case pos =>
        refine ha ▸ out ▸ (h.introduced ac).snoc fun ht => ?_
        simp at ht
    case refine_4 =>
      rw [opens, List.map_cons, List.nodup_cons]
      refine ⟨fun hm => ?_, h.once⟩
      obtain ⟨⟨_, a⟩, hs, rfl⟩ := List.mem_map.mp hm
      exact unopened _ rfl a hs

theorem opens_reachable (h : (program sha256).system.Reachable c) :
    Opens c.shared ∧ ∀ o, c.Pending o → o.Opens c.shared := by
  refine section_invariant (P := program sha256) (I := Opens) (A := Op.Opens)
    (R := fun σ σ' => σ.mints <:+ σ'.mints ∧ σ.opens ⊆ σ'.opens) ?_ ?_ ?_ ?_ h
  case refine_1 =>
    rintro σ ⟨st, now, rfl⟩
    refine ⟨fun _ => rfl, by simp, fun _ before m after hs => ?_, by simp [State.opens]⟩
    simp at hs
  case refine_2 =>
    intro σ r σ' ops h e
    have opens := (start_handles e).right.right.right
    have mints := start_mints e
    have out (ac : AgentConn) : (σ'.agentConns ac).out = (σ.agentConns ac).out :=
      (start_agentConns e).left
    refine ⟨⟨fun ac => ?_, fun hm ht => ?_, fun ac => out ac ▸ h.introduced ac, opens ▸ h.once⟩,
      ⟨mints ▸ List.suffix_refl _, opens ▸ List.Subset.refl _⟩, ?_⟩
    case refine_1 => rw [out, h.opened, State.opened, State.opened, opens]
    case refine_2 => exact (h.commanded (out _ ▸ hm) ht).mono (mints ▸ List.suffix_refl _)
    case refine_3 =>
      cases r <;> cases e
      case wsAgent => split <;> simp [Op.Opens]
      all_goals simp [Op.Opens]
  case refine_3 =>
    intro c t i op _ σ' ops hr _ head h ho e
    have pending : c.Pending op := ⟨t, head ▸ List.mem_cons_self⟩
    replace e := Exec.of e
    exact ⟨h.exec e (unused_reachable hr) ((wellFormed_reachable hr).right op pending)
        (fun s => (opening_reachable hr).unopened pending) ho,
      ⟨e.mints_suffix, e.opens_subset⟩, e.ops_opens (keys_reachable hr).left ho⟩
  case refine_4 => exact fun _ _ _ _ hr ho => ho.mono hr.left hr.right

-- A sid that was drawn once is opened on one connection, once.

theorem opens_unique {s' : Session} {a : AgentConn} (h : (program sha256).system.Reachable c)
    (hf : c.shared.FreshSids) (ho : (s, ac) ∈ c.shared.opens) (ho' : (s', a) ∈ c.shared.opens)
    (hs : s'.sid = s.sid) : s' = s ∧ a = ac := by
  have handles := (handles_reachable h).left
  have same : s' = s :=
    List.inj_on_of_nodup_map (attaches_nodup h hf) (handles.opens ho') (handles.opens ho) hs
  subst same
  have pair := List.inj_on_of_nodup_map (opens_reachable h).left.once ho' ho rfl
  exact ⟨rfl, (Prod.mk.inj pair).right⟩

theorem length_opens_le (h : (program sha256).system.Reachable c) (hf : c.shared.FreshSids)
    (sid : String) :
    ((c.shared.agentConns ac).out.filter fun m => m.t = "open" ∧ m.sid = sid).length ≤ 1 := by
  have handles := (handles_reachable h).left
  have opens := (opens_reachable h).left
  have attached : c.shared.opens.map (·.1) ⊆ c.shared.attaches := by
    intro s hs
    obtain ⟨⟨_, _⟩, ho, rfl⟩ := List.mem_map.mp hs
    exact handles.opens ho
  have sids : (c.shared.opens.map (·.1.sid)).Nodup := by
    show (c.shared.opens.map (Session.sid ∘ (·.1))).Nodup
    rw [← List.map_map]
    refine List.Nodup.map_on (fun s hs s' hs' he => ?_) opens.once
    exact List.inj_on_of_nodup_map (attaches_nodup h hf) (attached hs) (attached hs') he
  have nodup : (c.shared.opened ac).Nodup := by
    rw [State.opened, List.nodup_reverse]
    exact sids.sublist (List.filter_sublist.map _)
  rw [← opens.opened ac] at nodup
  have count := List.nodup_iff_count_le_one.mp nodup sid
  rw [List.count_eq_length_filter, List.filter_map, List.length_map, List.filter_filter] at count
  have same : (fun m : Msg => decide (m.t = "open" ∧ m.sid = sid)) = fun m =>
      ((· == sid) ∘ Msg.sid) m && decide (m.t = "open") := by
    funext m
    simp [Bool.and_comm, beq_eq_decide]
  exact same ▸ count

-- In every run, what an agent is sent of a session starts with open: nothing that was typed comes before
-- it. The open frame has the machine and the command that the session was minted for. When no sid was
-- drawn twice, no second open frame has the same sid, on whatever connection.
theorem agent_queue (h : (program sha256).system.Reachable c) :
    (∀ ac before m after, (c.shared.agentConns ac).out = before ++ m :: after →
      m.t = "in" ∨ m.t = "resize" → ∃ o ∈ before, o.t = "open" ∧ o.sid = m.sid) ∧
    (∀ ac, ∀ m ∈ (c.shared.agentConns ac).out, m.t = "open" →
      ∃ key p, (m.sid, key, p) ∈ c.shared.mints ∧ p.mid = ac.mid ∧ p.cmd = m.cmd) ∧
    (c.shared.FreshSids → ∀ ac ac' m m', m ∈ (c.shared.agentConns ac).out →
      m' ∈ (c.shared.agentConns ac').out → m.t = "open" → m'.t = "open" → m'.sid = m.sid →
      ac' = ac ∧ ((c.shared.agentConns ac).out.filter fun o => o.t = "open" ∧ o.sid = m.sid) = [m]) := by
  have opens := (opens_reachable h).left
  refine ⟨opens.introduced, fun ac m hm ht => opens.commanded hm ht,
    fun hf ac ac' m m' hm hm' ht ht' hs => ?_⟩
  have opened {ac : AgentConn} {m : Msg} (hm : m ∈ (c.shared.agentConns ac).out) (ht : m.t = "open") :
      ∃ s, (s, ac) ∈ c.shared.opens ∧ s.sid = m.sid := by
    rw [← mem_opened, ← opens.opened ac]
    exact List.mem_map_of_mem (List.mem_filter.mpr ⟨hm, by simpa using ht⟩)
  have ⟨s, ho, hs₁⟩ := opened hm ht
  have ⟨s', ho', hs₂⟩ := opened hm' ht'
  refine ⟨(opens_unique h hf ho ho' (by rw [hs₁, hs₂, hs])).right, ?_⟩
  have here : m ∈ (c.shared.agentConns ac).out.filter fun o => o.t = "open" ∧ o.sid = m.sid :=
    List.mem_filter.mpr ⟨hm, by simpa using ht⟩
  obtain ⟨o, single⟩ := List.length_eq_one_iff.mp <|
    Nat.le_antisymm (length_opens_le h hf m.sid) (List.length_pos_of_mem here)
  rw [single] at here ⊢
  rw [List.mem_singleton.mp here]

-- The agent of 5c was greeted and sent the open frame of a0.
theorem agent_queue_sample :
    let o : Msg := { t := "open", sid := "a0" }
    ∃ c, (program sampleSum).system.run initial sampleOpened = some c ∧
      (c.shared.agentConns ⟨0, "5c"⟩).out = [{ t := "hello_ok", id := "5c" }, o] ∧
      (∃ key p, ("a0", key, p) ∈ c.shared.mints ∧ p.mid = "5c" ∧ p.cmd = "") ∧
      ((c.shared.agentConns ⟨0, "5c"⟩).out.filter fun m => m.t = "open" ∧ m.sid = "a0") = [o] := by
  intro o
  have ran : ((program sampleSum).system.run initial sampleOpened).isSome := by decide
  have ⟨c, e⟩ := Option.isSome_iff_exists.mp ran
  have mints : c.shared.mints.map (·.1) = ["a0"] :=
    Transition.eq_of_run (f := fun c => c.shared.mints.map (·.1)) e (by decide)
  have out : (c.shared.agentConns ⟨0, "5c"⟩).out = [{ t := "hello_ok", id := "5c" }, o] :=
    Transition.eq_of_run (f := fun c => (c.shared.agentConns ⟨0, "5c"⟩).out) e (by decide)
  have sent : o ∈ (c.shared.agentConns ⟨0, "5c"⟩).out := by simp [out]
  have ⟨_, commanded, once⟩ := agent_queue (.run (.init (initial_init sampleSum)) e)
  exact ⟨c, e, out, commanded _ o sent rfl,
    (once (by simp [State.FreshSids, mints]) _ _ o o sent sent rfl rfl rfl).right⟩

end Broker
