import Popfleet.Broker.Theorems.Leaks

open Proto Store Program

namespace Broker

-- A machine is in the store when its agent is registered, or the `apiDelete` that took it out has not
-- yet looked for its agent.
def RegistersLive (c : Config State Op) (l : Label Req Input) : Prop :=
  ∀ {t i mid rest}, l = .step t i → c.procs t = .register mid :: rest →
    (c.shared.st.get? mid).isSome ∨ c.Pending (.revoke mid)

-- `Mint` does not draw the id of a machine that exists or was deleted.
def DrawsFresh (c : Config State Op) (l : Label Req Input) : Prop :=
  ∀ {t i m saved rest}, l = .step t i → c.procs t = .mint m saved :: rest →
    c.shared.st.get? m.id = none ∧ m.id ∉ c.shared.revocations ∧ ¬c.Pending (.respond m.id)

-- When `wsTerm` gets to send open on a connection of a machine whose deletion was answered, no other
-- thread has yet to close this connection, or it cannot take the frame.
def ClosesFirst (c : Config State Op) (l : Label Req Input) : Prop :=
  ∀ {t i s ac cmd rest}, l = .step t i → c.procs t = .sendOpen s (some ac) cmd :: rest →
    ac.mid ∈ c.shared.revocations → c.Pending (.closeAgent ac) →
    (c.shared.agentConns ac).closed ∨ (c.shared.agentConns ac).full

-- The connection that a section of `wsTerm` may yet open a session on.
def Op.holds : Op → Option AgentConn
  | .upgrade _ _ ac  => ac
  | .attach _ _ ac   => ac
  | .sendOpen _ ac _ => ac
  | _                => none

-- A connection is registered until it is replaced or dropped, and who does that goes on to close it.
def Kept (c : Config State Op) (ac : AgentConn) : Prop :=
  c.shared.agents.get? ac.mid = some ac ∨ (c.shared.agentConns ac).closed ∨ c.Pending (.closeAgent ac)

-- No session was opened on a machine whose deletion had been answered.
def OpenedBefore (log : List Event) : Prop :=
  Transition.Throughout (fun before e => ∀ s ac, e = .opened s ac → .revoked ac.mid ∉ before) log

-- A machine is gone from the store once some `apiDelete` has its answer left to give or gave it, and
-- only one does.
structure Deletions (c : Config State Op) : Prop where
  gone   : ∀ {id}, c.Pending (.respond id) ∨ id ∈ c.shared.revocations → c.shared.st.get? id = none
  done   : ∀ {id}, id ∈ c.shared.revocations → ¬c.Pending (.respond id)
  unique : ∀ id, c.Unique (· = .respond id)

-- A registered machine is in the store, or the `apiDelete` that took it out has yet to drop its agent.
def Registered (c : Config State Op) : Prop :=
  ∀ id ac, c.shared.agents.get? id = some ac →
    (c.shared.st.get? id).isSome ∨ c.Pending (.revoke id) ∨
      c.Pending (.dropAgent ac "machine revoked")

variable {sha256 : String → Digest} {σ σ' : State} {op : Op} {i : Input} {ops rest : List Op}
  {r : Req} {c c' : Config State Op} {l : Label Req Input} {t : Tid} {id mid : String}
  {ac : AgentConn} {o : Op}

theorem mem_revocations : id ∈ σ.revocations ↔ .revoked id ∈ σ.log := by
  simp only [State.revocations, List.mem_filterMap]
  constructor
  case mp =>
    rintro ⟨e, he, h⟩
    cases e <;> simp_all
  case mpr => exact fun h => ⟨_, h, rfl⟩

theorem Exec.get?_st_eq_none (e : Exec sha256 σ op i σ' ops)
    (hm : ∀ m saved, op = .mint m saved → m.id ≠ id)
    (h : σ.st.get? id = none) : σ'.st.get? id = none := by
  cases e
  case touched => simp only [Machines.get?_touch]; split <;> simp_all
  case machine m => simp [State.record, h, Ne.symm (hm m true rfl)]
  case noMachine m => simp [h]
  case deleted => simp [h]
  all_goals exact h

theorem start_ops (e : start σ r = some (σ', ops)) : .respond id ∉ ops := by
  cases r <;> cases e
  case wsAgent => split <;> simp
  all_goals simp

theorem Exec.respond_mem (e : Exec sha256 σ op i σ' ops) (h : .respond id ∈ ops) :
    op = .delete id ∧ (σ.st.get? id).isSome ∧ ops = [.revoke id, .respond id] ∧
      σ' = { σ with st := σ.st.erase id } := by
  cases e
  case deleted id' m hm =>
    have same : id = id' := by simpa using h
    subst same
    exact ⟨rfl, by simp [hm], rfl, rfl⟩
  case sessEnded close | goneEnded close =>
    cases h
    case tail h =>
      have ⟨_, _, h⟩ := close _ h
      contradiction
  all_goals simp [mem_handleAgent, mem_handleTerm] at h

theorem Exec.revocations_cases (e : Exec sha256 σ op i σ' ops) :
    σ'.revocations = σ.revocations ∨
    ∃ id, op = .respond id ∧ σ'.revocations = id :: σ.revocations := by
  cases e
  case responded id => exact .inr ⟨id, rfl, rfl⟩
  all_goals exact .inl rfl

theorem Deletions.start {r ops} (e : start c.shared r = some (σ', ops)) (h : Deletions c) :
    Deletions (c.resume t σ' ops) := by
  have ⟨st, _, _, log⟩ := start_shared e
  have revocations : σ'.revocations = c.shared.revocations := by simp only [State.revocations, log]
  have pending {id} (hp : (c.resume t σ' ops).Pending (.respond id)) : c.Pending (.respond id) :=
    hp.of_resume.resolve_left (start_ops e)
  constructor
  case gone =>
    intro id hid
    rw [Config.resume_shared, revocations] at hid
    exact st ▸ h.gone (hid.imp_left pending)
  case done =>
    intro id hid hp
    rw [Config.resume_shared, revocations] at hid
    exact h.done hid (pending hp)
  case unique =>
    intro id
    have none : ops.countP (· = .respond id) = 0 :=
      List.countP_eq_zero.mpr fun o ho hr => start_ops e (of_decide_eq_true hr ▸ ho)
    exact (h.unique id).resume (none ▸ Nat.zero_le _)

-- The store is asked to delete a machine that it has.
theorem Deletions.delete (head : c.procs t = .delete id :: rest) (hs : (c.shared.st.get? id).isSome)
    (h : Deletions c) :
    Deletions (c.resume t { c.shared with st := c.shared.st.erase id }
      ([.revoke id, .respond id] ++ rest)) := by
  have unpending : ¬c.Pending (.respond id) := fun hp => by simp [h.gone (.inl hp)] at hs
  have unrevoked : id ∉ c.shared.revocations := fun hm => by simp [h.gone (.inr hm)] at hs
  have pending {id'} (hp : (c.resume t { c.shared with st := c.shared.st.erase id }
      ([.revoke id, .respond id] ++ rest)).Pending (.respond id')) :
      id' = id ∨ c.Pending (.respond id') :=
    (hp.of_step head).imp_left (by simp)
  constructor
  case gone =>
    intro id' hid
    change (c.shared.st.erase id).get? id' = none
    rw [Machines.get?_erase]
    split
    case isTrue     => rfl
    case isFalse hne => exact h.gone (hid.imp_left fun hp => (pending hp).resolve_left hne)
  case done =>
    intro id' hid hp
    cases pending hp
    case inl he => exact unrevoked (he ▸ hid)
    case inr hp => exact h.done hid hp
  case unique =>
    intro id'
    by_cases he : id' = id
    case pos =>
      subst he
      have none : ∀ t, ∀ o ∈ c.procs t, ¬(decide (o = .respond id') = true) := by
        intro t o ho hr
        exact unpending ⟨t, of_decide_eq_true hr ▸ ho⟩
      apply Config.Unique.resume_of_none none
      have := List.countP_eq_zero.mpr fun o ho => none t o (head ▸ List.mem_cons_of_mem _ ho)
      simp [this]
    case neg =>
      apply (h.unique id').step head
      simp [Ne.symm he]

theorem Deletions.step (e : Exec sha256 c.shared op i σ' ops) (head : c.procs t = op :: rest)
    (hf : ∀ m saved, op = .mint m saved →
      c.shared.st.get? m.id = none ∧ m.id ∉ c.shared.revocations ∧ ¬c.Pending (.respond m.id))
    (h : Deletions c) : Deletions (c.resume t σ' (ops ++ rest)) := by
  by_cases hr : ∃ id, .respond id ∈ ops
  case pos =>
    have ⟨id, hr⟩ := hr
    have ⟨hop, hs, hops, hσ⟩ := e.respond_mem hr
    subst hop hops hσ
    exact h.delete head hs
  case neg =>
    have none {id} : ∀ o ∈ ops, ¬(decide (o = .respond id) = true) := by
      intro o ho he
      exact hr ⟨id, of_decide_eq_true he ▸ ho⟩
    have pending {id} (hp : (c.resume t σ' (ops ++ rest)).Pending (.respond id)) :
        c.Pending (.respond id) :=
      (hp.of_step head).resolve_left fun ho => hr ⟨id, ho⟩
    have revoked {id} (hm : id ∈ σ'.revocations) :
        op = .respond id ∨ id ∈ c.shared.revocations := by
      rcases e.revocations_cases with he | ⟨id', hop, he⟩ <;> rw [he] at hm
      case inl => exact .inr hm
      case inr =>
        cases hm
        case head    => exact .inl hop
        case tail hm => exact .inr hm
    constructor
    case gone =>
      intro id hid
      have hid : c.Pending (.respond id) ∨ id ∈ c.shared.revocations := by
        cases hid
        case inl hp => exact .inl (pending hp)
        case inr hm => exact (revoked hm).imp_left fun hop => ⟨t, by simp [head, hop]⟩
      refine e.get?_st_eq_none (fun m saved hop hm => ?_) (h.gone hid)
      have ⟨_, unrevoked, unpending⟩ := hf m saved hop
      subst hm
      exact hid.elim unpending unrevoked
    case done =>
      intro id hid hp
      cases revoked hid
      case inr hm => exact h.done hm (pending hp)
      case inl hop =>
        have ⟨t', ho⟩ := hp
        exact (h.unique id).none_of_head head (by simp [hop]) none ho (by simp)
    case unique => exact fun id => (h.unique id).step head none

theorem deletions_reachable
    (h : (program sha256).system.ReachableUnder DrawsFresh c) : Deletions c := by
  induction h
  case init c hi =>
    have ⟨⟨st, now, hs⟩, hp⟩ := hi
    have unpending {id} : ¬c.Pending (.respond id) := by simp [Config.Pending, hp]
    constructor
    case gone   => simp [unpending, hs, State.revocations]
    case done   => exact fun _ => unpending
    case unique => exact fun id => ⟨by simp [hp], by simp [hp]⟩
  case step c l c' _ hf e hi =>
    replace e := Step.of e
    cases e
    case start e     => exact hi.start e
    case step head e => exact hi.step (Exec.of e) head fun m saved hop => hf rfl (hop ▸ head)

theorem Exec.isSome_st (e : Exec sha256 σ op i σ' ops)
    (hf : ∀ m saved, op = .mint m saved → σ.st.get? m.id = none) (h : (σ.st.get? id).isSome) :
    (σ'.st.get? id).isSome ∨ .revoke id ∈ ops := by
  cases e
  case touched =>
    left
    simp only [Machines.get?_touch]
    split <;> simp_all
  case machine =>
    left
    simp only [State.record, Machines.get?_insert]
    split <;> simp_all
  case noMachine m =>
    have ne : id ≠ m.id := by
      intro he
      simp [he, hf m false rfl] at h
    simp [ne, h]
  case deleted id' _ _ =>
    by_cases he : id = id'
    case pos => simp [he]
    case neg => simp [he, h]
  all_goals exact .inl h

-- The agent of a machine that stays registered, whatever some thread does.
theorem Registered.kept (e : Exec sha256 c.shared op i σ' ops) (head : c.procs t = op :: rest)
    {ac : AgentConn} (ha : c.shared.agents.get? id = some ac)
    (hd : op ≠ .dropAgent ac "machine revoked")
    (hf : ∀ m saved, op = .mint m saved → c.shared.st.get? m.id = none) (h : Registered c) :
    (σ'.st.get? id).isSome ∨ (c.resume t σ' (ops ++ rest)).Pending (.revoke id) ∨
      (c.resume t σ' (ops ++ rest)).Pending (.dropAgent ac "machine revoked") := by
  rcases h id ac ha with hs | hr | hp
  case inl =>
    refine (e.isSome_st hf hs).imp_right fun hr => .inl ?_
    exact Config.pending_of_mem (List.mem_append_left _ hr)
  case inr.inl =>
    cases hr.step head
    case inr hr => exact .inr (.inl hr)
    case inl hop =>
      subst hop
      cases e
      case offlineRevoked hn => simp [ha] at hn
      case onlineRevoked ac' ha' =>
        cases ha.symm.trans ha'
        exact .inr (.inr (Config.pending_of_mem (by simp)))
  case inr.inr => exact .inr (.inr (hp.step head |>.resolve_left hd.symm))

theorem Registered.step (e : Exec sha256 c.shared op i σ' ops) (head : c.procs t = op :: rest)
    (wf : WellFormed c.shared)
    (hl : ∀ mid, op = .register mid → (c.shared.st.get? mid).isSome ∨ c.Pending (.revoke mid))
    (hf : ∀ m saved, op = .mint m saved → c.shared.st.get? m.id = none) (h : Registered c) :
    Registered (c.resume t σ' (ops ++ rest)) := by
  intro id ac ha
  rw [Config.resume_shared] at ha
  rcases e.agents_cases with ⟨same, hne⟩ | ⟨mid, hop, set, st⟩ | ⟨ac', why, hop, _, delete⟩
  case inl =>
    rw [same] at ha
    refine h.kept e head ha (fun hop => ?_) hf
    exact hne ac _ hop ((wf.agents ha).symm ▸ ha)
  case inr.inl =>
    rw [set] at ha
    cases GoMap.of_get?_set ha
    case inr hc =>
      obtain ⟨_, ha⟩ := hc
      exact h.kept e head ha (by simp [hop]) hf
    case inl h =>
      obtain ⟨rfl, _⟩ := h
      rw [Config.resume_shared, st]
      exact (hl _ hop).imp_right fun hp => .inl (hp.step head |>.resolve_left (by simp [hop]))
  case inr.inr =>
    rw [delete] at ha
    have ⟨hne, found⟩ := GoMap.of_get?_delete ha
    refine h.kept e head found (fun hop' => ?_) hf
    cases hop.symm.trans hop'
    exact hne (wf.agents found).symm

theorem registered_reachable
    (h : (program sha256).system.ReachableUnder (fun c l => RegistersLive c l ∧ DrawsFresh c l) c) :
    Registered c := by
  induction h
  case init c hi =>
    have ⟨⟨st, now, hs⟩, _⟩ := hi
    simp [Registered, hs]
  case step c l c' hr hok e hi =>
    have wf := (wellFormed_reachable hr.reachable).left
    replace e := Step.of e
    cases e
    case start idle e =>
      intro id ac ha
      have ⟨st, agents, _⟩ := start_shared e
      rw [Config.resume_shared, agents] at ha
      rw [Config.resume_shared, st]
      exact (hi id ac ha).imp_right (.imp (·.start idle) (·.start idle))
    case step head e =>
      exact hi.step (Exec.of e) head wf (fun mid hop => hok.left rfl (hop ▸ head))
        fun m saved hop => (hok.right rfl (hop ▸ head)).left

theorem Kept.start {ac : AgentConn} (idle : c.procs t = []) (e : Broker.start c.shared r = some (σ', ops))
    (h : Kept c ac) : Kept (c.resume t σ' ops) ac := by
  have ⟨_, agents, _⟩ := start_shared e
  have ⟨_, closed⟩ := @start_agentConns _ _ _ _ ac e
  rcases h with registered | shut | pending
  case inl     => exact .inl (agents ▸ registered)
  case inr.inl => exact .inr (.inl (closed ▸ shut))
  case inr.inr => exact .inr (.inr (pending.start idle))

theorem Kept.step {ac : AgentConn} (e : Exec sha256 c.shared op i σ' ops) (head : c.procs t = op :: rest)
    (handed : ac.ptr < c.shared.next) (h : Kept c ac) : Kept (c.resume t σ' (ops ++ rest)) ac := by
  have closing (ho : .closeAgent ac ∈ ops) : Kept (c.resume t σ' (ops ++ rest)) ac :=
    .inr (.inr (Config.pending_of_mem (List.mem_append_left _ ho)))
  rcases h with registered | shut | pending
  case inl =>
    cases e
    case registered mid hn =>
      by_cases hm : ac.mid = mid
      case pos => simp [hm ▸ hn] at registered
      case neg => exact .inl (GoMap.get?_set.trans ((if_neg hm).trans registered))
    case replaced mid old ho =>
      by_cases hm : ac.mid = mid
      case neg => exact .inl (GoMap.get?_set.trans ((if_neg hm).trans registered))
      case pos =>
        cases (hm ▸ registered).symm.trans ho
        exact closing (by simp)
    case dropped a why ha =>
      by_cases hm : ac.mid = a.mid
      case neg => exact .inl (GoMap.get?_delete.trans ((if_neg hm).trans registered))
      case pos =>
        cases (hm ▸ registered).symm.trans ha
        exact closing List.mem_cons_self
    all_goals exact .inl registered
  case inr.inl =>
    refine .inr (.inl ?_)
    by_contra hc
    have opened := (e.agentConns_grown handed).right (Bool.eq_false_iff.mpr hc)
    simp [opened] at shut
  case inr.inr =>
    cases pending.step head
    case inr pending => exact .inr (.inr pending)
    case inl he =>
      subst he
      cases e
      exact .inr (.inl (by simp [State.closeAgent]))

-- What `wsTerm` goes on with is the connection that it read, which was registered then.
theorem Exec.ops_hold (e : Exec sha256 σ op i σ' ops) (wf : WellFormed σ) :
    ∀ o ∈ ops, ∀ ac, o.holds = some ac → op.holds = some ac ∨ σ'.agents.get? ac.mid = some ac := by
  cases e <;> simp only [List.cons_append, List.forall_mem_cons, List.forall_mem_append,
    List.forall_mem_map, List.not_mem_nil, IsEmpty.forall_iff, implies_true, and_true, Op.holds,
    reduceCtorEq]
  case accepted => exact fun ac ha => .inr (wf.agents ha ▸ ha)
  case upgraded => exact fun _ => .inl
  case attached => exact fun _ => .inl
  case agentRead => exact forall_handleAgent nofun (fun _ => nofun) (fun _ => nofun)
  case termRead => exact forall_handleTerm nofun nofun
  case sessEnded close | goneEnded close =>
    exact ⟨trivial, forall_close close fun _ _ _ => nofun⟩

-- A session is opened by `wsTerm`, on a connection that takes the frame.
theorem Exec.log_opened (e : Exec sha256 σ op i σ' ops) :
    σ'.log = σ.log ∨ ∃ ev, σ'.log = ev :: σ.log ∧ ∀ s ac, ev = .opened s ac →
      (∃ cmd, op = .sendOpen s (some ac) cmd) ∧ (σ.agentConns ac).closed = false ∧
        (σ.agentConns ac).full = false := by
  cases e
  case opened s ac cmd hs =>
    refine .inr ⟨_, rfl, ?_⟩
    rintro _ _ ⟨⟩
    exact ⟨⟨cmd, rfl⟩, Conn.send_eq_true hs⟩
  case agentRead | machine | minted | accepted | refused | responded | attached =>
    exact .inr ⟨_, rfl, by simp⟩
  all_goals exact .inl rfl

theorem start_holds (e : start σ r = some (σ', ops)) (ho : o ∈ ops) : o.holds = none := by
  cases r <;> cases e
  case wsAgent =>
    split at ho
    case isTrue  => cases List.mem_singleton.mp ho; rfl
    case isFalse => contradiction
  all_goals first | contradiction | (cases List.mem_singleton.mp ho; rfl)

theorem kept_reachable (h : (program sha256).system.Reachable c) (ho : c.Pending o)
    (ha : o.holds = some ac) : Kept c ac := by
  induction h generalizing o
  case init c hi =>
    have ⟨_, hp⟩ := hi
    simp [Config.Pending, hp] at ho
  case step c l c' hr _ e hi =>
    have wf := (wellFormed_reachable hr).left
    have grounded := (grounded_reachable hr).right
    replace e := Step.of e
    cases e
    case start idle e =>
      have old := ho.of_resume.resolve_left fun ho => by simp [start_holds e ho] at ha
      exact (hi old ha).start idle e
    case step op _ _ _ head e =>
      replace e := Exec.of e
      have handed {o} (hp : c.Pending o) (ha : o.holds = some ac) : ac.ptr < c.shared.next := by
        have known := grounded o hp
        cases o
        case upgrade | attach | sendOpen => exact known ac ha
        all_goals contradiction
      cases ho.of_step head
      case inr hp => exact (hi hp ha).step e head (handed hp ha)
      case inl hm =>
        cases e.ops_hold wf o hm ac ha
        case inr registered => exact .inl registered
        case inl hop =>
          have hp : c.Pending op := ⟨_, head ▸ List.mem_cons_self⟩
          exact (hi hp hop).step e head (handed hp hop)

-- The conditions under which a deletion is final.
def Settled (c : Config State Op) (l : Label Req Input) : Prop :=
  RegistersLive c l ∧ DrawsFresh c l ∧ ClosesFirst c l

theorem unregistered_reachable
    (h : (program sha256).system.ReachableUnder (fun c l => RegistersLive c l ∧ DrawsFresh c l) c) :
    (∀ {id}, ¬c.Pending (.respond id) → (c.shared.agents.get? id).isSome →
      (c.shared.st.get? id).isSome) ∧
    (∀ {id}, id ∈ c.shared.revocations → c.shared.agents.get? id = none) := by
  have wf := (wellFormed_reachable h.reachable).left
  have in_store {id} (hn : ¬c.Pending (.respond id)) (ha : (c.shared.agents.get? id).isSome) :
      (c.shared.st.get? id).isSome := by
    have ⟨ac, ha⟩ := Option.isSome_iff_exists.mp ha
    rcases registered_reachable h id ac ha with hs | ⟨t, hr⟩ | ⟨t, hd⟩
    case inl => exact hs
    case inr.inl =>
      have respond : .respond id ∈ c.procs t := (followed_reachable h.reachable t).mem hr rfl
      exact absurd ⟨t, respond⟩ hn
    case inr.inr =>
      have respond : .respond ac.mid ∈ c.procs t := (followed_reachable h.reachable t).mem hd rfl
      exact absurd ⟨t, wf.agents ha ▸ respond⟩ hn
  refine ⟨in_store, fun {id} hid => ?_⟩
  have deletions := deletions_reachable (h.mono fun _ _ => And.right)
  cases ha : c.shared.agents.get? id
  case none => rfl
  case some =>
    have stored := in_store (deletions.done hid) (by simp [ha])
    simp [deletions.gone (.inr hid)] at stored

theorem openedBefore_reachable (h : (program sha256).system.ReachableUnder Settled c) :
    OpenedBefore c.shared.log := by
  induction h
  case init c hi =>
    have ⟨⟨st, now, hs⟩, _⟩ := hi
    rw [hs]
    exact Transition.Throughout.nil
  case step c l c' hr hok e hi =>
    obtain ⟨live, fresh, first⟩ := hok
    have ⟨_, out⟩ := unregistered_reachable (hr.mono fun _ _ ok => ⟨ok.left, ok.right.left⟩)
    replace e := Step.of e
    cases e
    case start e =>
      have ⟨_, _, _, log⟩ := start_shared e
      exact log ▸ hi
    case step t i op rest σ' ops head e =>
      replace e := Exec.of e
      rcases e.log_opened with same | ⟨ev, log, opened⟩
      case inl => exact same ▸ hi
      case inr =>
        rw [Config.resume_shared, log]
        refine hi.cons fun s ac hev hm => ?_
        obtain ⟨⟨cmd, rfl⟩, open', room⟩ := opened s ac hev
        have revoked := mem_revocations.mpr hm
        have held : c.Pending (.sendOpen s (some ac) cmd) := ⟨t, head ▸ List.mem_cons_self⟩
        rcases kept_reachable hr.reachable held rfl with registered | shut | pending
        case inl     => simp [out revoked] at registered
        case inr.inl => simp [open'] at shut
        case inr.inr =>
          have unsent := first rfl head revoked pending
          simp [open', room] at unsent

-- When every handshake registers its machine before a deletion looks for the agent, a registered
-- machine is in the store unless its deletion is in progress, and is none whose deletion was answered.
-- When besides a connection of such a machine is closed before `wsTerm` sends on it, no session is opened
-- on it any more.
theorem revoked_stays_out (h : (program sha256).system.ReachableUnder Settled c) :
    (∀ {id}, ¬c.Pending (.respond id) → (c.shared.agents.get? id).isSome →
      (c.shared.st.get? id).isSome) ∧
    (∀ {id}, id ∈ c.shared.revocations → c.shared.agents.get? id = none) ∧
    ∀ {after before s ac}, c.shared.log = after ++ .opened s ac :: before → .revoked ac.mid ∉ before := by
  have ⟨stored, out⟩ := unregistered_reachable (h.mono fun _ _ ok => ⟨ok.left, ok.right.left⟩)
  exact ⟨stored, out, fun log => openedBefore_reachable h _ _ _ log _ _ rfl⟩

-- A step that mints no machine, registers agents only of machines in the store and opens sessions only
-- on machines that were not deleted.
def calm (c : Config State Op) : Label Req Input → Bool
  | .start .. => true
  | .step t _ =>
    match c.procs t with
    | .register mid :: _            => (c.shared.st.get? mid).isSome
    | .mint .. :: _                 => false
    | .sendOpen _ (some ac) _ :: _  => ac.mid ∉ c.shared.revocations
    | _                             => true

theorem settled_of_calm (c : Config State Op) (l : Label Req Input) (h : calm c l) : Settled c l := by
  refine ⟨?_, ?_, ?_⟩
  case refine_1 =>
    intro t i mid rest hl hp
    subst hl
    exact .inl (by simpa [calm, hp] using h)
  case refine_2 =>
    intro t i m saved rest hl hp
    subst hl
    simp [calm, hp] at h
  case refine_3 =>
    intro t i s ac cmd rest hl hp revoked
    subst hl
    simp [calm, hp, revoked] at h

-- A session is open when its machine is deleted.
theorem revoked_stays_out_sample :
    let c₀ : Config State Op :=
      { shared := { st := (∅ : Machines).insert { id := "5c", token := "e1" } }, procs := fun _ => [] }
    let ls : List (Label Req Input) := sampleOpened.drop 2 ++ [
      .start 0 (.apiDelete "5c"), .step 0 .done, .step 0 .done, .step 0 .done, .step 0 .done,
      .step 0 .done, .step 0 .done]
    ∃ c, (program sampleSum).system.runWhile calm c₀ ls = some c ∧ "5c" ∈ c.shared.revocations ∧
      c.shared.agents.get? "5c" = none ∧ c.shared.opens = [(⟨1, "a0", "5c"⟩, ⟨0, "5c"⟩)] ∧
      ∀ {after before s ac}, c.shared.log = after ++ .opened s ac :: before →
        .revoked ac.mid ∉ before := by
  intro c₀ ls
  cases e : (program sampleSum).system.runWhile calm c₀ ls
  case none => contradiction
  case some c =>
    have initial : (program sampleSum).system.Init c₀ := ⟨⟨_, 0, rfl⟩, fun _ => rfl⟩
    have reachable := Transition.ReachableUnder.runWhile (.init initial) settled_of_calm e
    have revoked : c.shared.revocations = ["5c"] :=
      Transition.eq_of_run (f := (·.shared.revocations)) e (by decide)
    have opens : c.shared.opens = [(⟨1, "a0", "5c"⟩, ⟨0, "5c"⟩)] :=
      Transition.eq_of_run (f := (·.shared.opens)) e (by decide)
    have ⟨_, out, before⟩ := revoked_stays_out reachable
    exact ⟨c, rfl, by simp [revoked], out (by simp [revoked]), opens, before⟩

-- The handshake looks the token up, the deletion takes the machine out of the store and finds no agent
-- to drop, and then the handshake registers the agent.
theorem revoked_registers_again :
    let ls : List (Label Req Input) := [
      .start 0 (.apiMint "" "5c" "e1" true), .step 0 .done,
      .start 1 (.wsAgent { t := "hello", token := "e1" }), .step 1 .done, .step 1 .done,
      .start 0 (.apiDelete "5c"), .step 0 .done, .step 0 .done, .step 0 .done,
      .step 1 .done]
    ∃ c, (program sampleSum).system.run initial ls = some c ∧ "5c" ∈ c.shared.revocations ∧
      (∀ id, ¬c.Pending (.respond id)) ∧ (c.shared.agents.get? "5c").isSome ∧
      c.shared.st.get? "5c" = none := by
  intro ls
  cases e : (program sampleSum).system.run initial ls
  case none => contradiction
  case some c =>
    have revoked : c.shared.revocations = ["5c"] :=
      Transition.eq_of_run (f := (·.shared.revocations)) e (by decide)
    have agents : (c.shared.agents.get? "5c").isSome = true :=
      Transition.eq_of_run (f := fun c => (c.shared.agents.get? "5c").isSome) e (by decide)
    have st : c.shared.st.get? "5c" = none :=
      Transition.eq_of_run (f := (·.shared.st.get? "5c")) e (by decide)
    have procs₀ : c.procs 0 = [] := Transition.eq_of_run (f := (·.procs 0)) e (by decide)
    have procs₁ : c.procs 1 = [.sendAgent ⟨0, "5c"⟩ { t := "hello_ok", id := "5c" },
        .readAgent ⟨0, "5c"⟩] :=
      Transition.eq_of_run (f := (·.procs 1)) e (by decide)
    refine ⟨c, rfl, by simp [revoked], fun id ⟨t, hp⟩ => ?_, agents, st⟩
    by_cases h₀ : t = 0
    case pos => simp [h₀, procs₀] at hp
    by_cases h₁ : t = 1
    case pos => simp [h₁, procs₁] at hp
    have procs : c.procs t = [] := procs_of_run e (by simp [ls, Label.tid, Ne.symm h₀, Ne.symm h₁])
    simp [procs] at hp

-- `wsTerm` reads the connection of the agent, the agent registers again, and its machine is deleted before
-- the old connection is closed: the session is opened on that one.
theorem revoked_opens_again :
    let ls : List (Label Req Input) := sampleOpened.take 14 ++ [
      .start 3 (.wsAgent { t := "hello", token := "e1" }), .step 3 .done, .step 3 .done, .step 3 .done,
      .start 0 (.apiDelete "5c"), .step 0 .done, .step 0 .done, .step 0 .done, .step 0 .done,
      .step 0 .done, .step 2 .done]
    ∃ c, (program sampleSum).system.run initial ls = some c ∧
      ∃ before, c.shared.log = .opened ⟨1, "a0", "5c"⟩ ⟨0, "5c"⟩ :: .revoked "5c" :: before := by
  intro ls
  cases e : (program sampleSum).system.run initial ls
  case none => contradiction
  case some c =>
    have log : c.shared.log.take 2 = [.opened ⟨1, "a0", "5c"⟩ ⟨0, "5c"⟩, .revoked "5c"] :=
      Transition.eq_of_run (f := (·.shared.log.take 2)) e (by decide)
    refine ⟨c, rfl, c.shared.log.drop 2, ?_⟩
    exact (List.take_append_drop 2 _).symm.trans (congrArg (· ++ _) log)

end Broker
