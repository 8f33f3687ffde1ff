import Popfleet.Broker.Theorems.Gapless
import Popfleet.Broker.Theorems.Leaks

open Proto Store Program

namespace Broker

def offlineAfter : Time := 25 * 10 ^ 9

-- A machine as `apiMachines` reports it.
structure Out where
  id       : String
  name     : String
  online   : Bool
  lastSeen : Option Time
  agentVer : String
  sessions : Nat
  deriving DecidableEq

-- `machines` is what `List` returned before the lock was taken.
def apiMachines (machines : List Machine) (σ : State) : List Out :=
  machines.map fun m => {
    id       := m.id
    name     := m.name
    online   := (σ.agents.get? m.id).isSome ∧ σ.now - m.lastSeen < offlineAfter
    lastSeen := if m.lastSeen = 0 then none else some m.lastSeen
    agentVer := m.agentVer
    sessions := (σ.sess.valuesWhere fun _ s => s.mid = m.id).length
  }

-- What `wsTerm` has left to run for a session that it attached, up to where it ends the session.
inductive Serves (s : Session) : List Op → Prop
  | opening {ac cmd}      : Serves s [.sendOpen s ac cmd]
  | reading {ac}          : Serves s [.readTerm s ac]
  | relaying {ac m}       : Serves s [.relay s ac m, .readTerm s ac]
  | ending {final notify} : Serves s [.endSession s final notify]

-- What `wsAgent` has left to run for a connection that it registered, up to where it drops it.
def Hosts (ac : AgentConn) (ops : List Op) : Prop :=
  .readAgent ac ∈ ops ∨ .dropAgent ac "agent went offline" ∈ ops

-- A section that is all that a `wsTerm` has left to run.
def Op.alone : Op → Bool
  | .consume _ _   => true
  | .upgrade _ _ _ => true
  | .attach _ _ _  => true
  | _              => false

def Alone (ops : List Op) : Prop :=
  ∀ o ∈ ops, o.alone → ops = [o]

-- The thread serves the session, or has taken it out of the map and closed it, or is about to close it.
def Finishing (t : Tid) (s : Session) (c : Config State Op) : Prop :=
  Serves s (c.procs t) ∨ c.shared.sess.get? s.sid ≠ some s ∧
    ((c.shared.sessConns s).closed ∨ ∃ final, .closeSess s final ∈ c.procs t)

def Departing (t : Tid) (ac : AgentConn) (c : Config State Op) : Prop :=
  Hosts ac (c.procs t) ∨ c.shared.agents.get? ac.mid ≠ some ac ∧
    ((c.shared.agentConns ac).closed ∨ .closeAgent ac ∈ c.procs t)

-- The handlers of what is in the maps.
structure Manned (c : Config State Op) : Prop where
  sess   : ∀ {sid s}, c.shared.sess.get? sid = some s → ∃ t, Serves s (c.procs t)
  agents : ∀ {mid ac}, c.shared.agents.get? mid = some ac → ∃ t, Hosts ac (c.procs t)

variable {sha256 : String → Digest} {σ σ' : State} {op : Op} {i : Input} {ops rest : List Op}
  {r : Req} {c c₁ c₂ : Config State Op} {t t' : Tid} {s : Session} {ac : AgentConn}

theorem Exec.ops_alone (e : Exec sha256 σ op i σ' ops) :
    (∀ o ∈ ops, o.alone = false) ∨ op.alone ∧ ∃ o, ops = [o] := by
  cases e
  case accepted | upgraded => exact .inr ⟨rfl, _, rfl⟩
  case agentRead =>
    refine .inl (List.forall_mem_append.mpr ⟨?_, by simp [Op.alone]⟩)
    exact forall_handleAgent rfl (fun _ => rfl) (fun _ => rfl)
  case termRead =>
    exact .inl (List.forall_mem_append.mpr ⟨forall_handleTerm rfl rfl, by simp [Op.alone]⟩)
  case sessEnded close | goneEnded close =>
    exact .inl (List.forall_mem_cons.mpr ⟨rfl, forall_close close fun _ _ => rfl⟩)
  all_goals exact .inl (by simp +contextual [Op.alone, or_imp])

theorem alone_reachable (h : (program sha256).system.Reachable c) (t : Tid) : Alone (c.procs t) := by
  refine (thread_invariant (P := program sha256) (I := fun _ => True) (B := fun _ ops => Alone ops)
    (R := fun _ _ => True) ?_ ?_ ?_ ?_ ?_ h).right t
  case refine_1 => exact fun _ _ => trivial
  case refine_2 => exact fun _ o ho => absurd ho List.not_mem_nil
  case refine_3 =>
    intro σ r σ' ops _ e
    refine ⟨trivial, trivial, ?_⟩
    cases r <;> cases e
    case wsAgent => split <;> simp [Alone, Op.alone]
    all_goals simp [Alone, Op.alone]
  case refine_4 =>
    intro c _ i op rest σ' ops _ _ _ _ ha e
    refine ⟨trivial, trivial, fun o ho hs => ?_⟩
    rcases (Exec.of e).ops_alone with none | ⟨alone, o', rfl⟩
    case inl =>
      cases List.mem_append.mp ho
      case inl ho => simp [none o ho] at hs
      case inr ho =>
        have rest := ha o (List.mem_cons_of_mem _ ho) hs
        cases rest
        exact absurd ho List.not_mem_nil
    case inr =>
      cases ha op List.mem_cons_self alone
      cases List.mem_singleton.mp ho
      rfl
  case refine_5 => exact fun _ _ _ _ _ h => h

-- The handler goes on until it ends the session.

theorem Serves.exec (e : Exec sha256 σ op i σ' ops) (h : Serves s (op :: rest)) :
    Serves s (ops ++ rest) ∨ ∃ final notify, op = .endSession s final notify := by
  cases h
  case opening => cases e <;> exact .inl (by constructor)
  case relaying => cases e; exact .inl .reading
  case ending final notify => exact .inr ⟨final, notify, rfl⟩
  case reading ac =>
    cases e
    case termLost => exact .inl .ending
    case termRead f =>
      unfold handleTerm
      split
      case h_1 => exact .inl .relaying
      case h_2 => exact .inl .relaying
      case h_3 => exact .inl .reading

theorem Hosts.exec (e : Exec sha256 σ op i σ' ops) (h : Hosts ac (op :: rest)) :
    Hosts ac (ops ++ rest) ∨ op = .dropAgent ac "agent went offline" := by
  cases h
  case inl h =>
    cases h
    case tail h => exact .inl (.inl (List.mem_append_right _ h))
    case head =>
      cases e
      case agentRead => exact .inl (.inl (by simp))
      case agentLost => exact .inl (.inr (by simp))
  case inr h =>
    cases h
    case tail h => exact .inl (.inr (List.mem_append_right _ h))
    case head   => exact .inr rfl

theorem Exec.unattached (e : Exec sha256 σ op i σ' ops) (hs : s.ptr < σ.next)
    (h : σ.sess.get? s.sid ≠ some s) : σ'.sess.get? s.sid ≠ some s :=
  fun hs' => h (e.sess_before (fun _ _ _ _ => ne_newSession hs) hs')

theorem Exec.endSession_unattached {final : Option Msg} {notify : Bool}
    (e : Exec sha256 σ (.endSession s final notify) i σ' ops) :
    σ'.sess.get? s.sid ≠ some s ∧ .closeSess s final ∈ ops := by
  cases e
  case sessEnded     => exact ⟨by simp, List.mem_cons_self⟩
  case goneEnded h _ => exact ⟨h, List.mem_cons_self⟩

theorem Exec.dropAgent_unregistered {why : String} (e : Exec sha256 σ (.dropAgent ac why) i σ' ops) :
    σ'.agents.get? ac.mid ≠ some ac ∧ .closeAgent ac ∈ ops := by
  cases e
  case dropped         => exact ⟨by simp, List.mem_cons_self⟩
  case zombieDropped h => exact ⟨h, List.mem_cons_self⟩

theorem Exec.agentConns_closed (e : Exec sha256 σ op i σ' ops) (hac : ac.ptr < σ.next)
    (h : (σ.agentConns ac).closed) : (σ'.agentConns ac).closed := by
  have ⟨_, unclosed⟩ := e.agentConns_grown hac
  cases hc : (σ'.agentConns ac).closed
  case true  => rfl
  case false => simp [unclosed hc] at h

-- What the section at the head of a thread leaves of the others in it.
theorem Config.mem_procs_step (σ' : State) (ops : List Op) {o : Op} (head : c.procs t' = op :: rest)
    (h : o ∈ c.procs t) : (t = t' ∧ o = op) ∨ o ∈ (c.resume t' σ' (ops ++ rest)).procs t := by
  rw [Config.resume_procs]
  split
  case isFalse => exact .inr h
  case isTrue ht =>
    subst ht
    rw [head] at h
    cases h
    case head   => exact .inl ⟨rfl, rfl⟩
    case tail h => exact .inr (List.mem_append_right _ h)

theorem Finishing.step (e : Exec sha256 c.shared op i σ' ops) (head : c.procs t' = op :: rest)
    (hs : s.ptr < c.shared.next) (h : Finishing t s c) :
    Finishing t s (c.resume t' σ' (ops ++ rest)) := by
  rcases h with serves | ⟨unattached, hc | ⟨final, hp⟩⟩
  case inr.inl => exact .inr ⟨e.unattached hs unattached, .inl (e.sessConns_closed hs hc)⟩
  case inr.inr =>
    refine .inr ⟨e.unattached hs unattached, ?_⟩
    cases Config.mem_procs_step σ' ops head hp
    case inr hp => exact .inr ⟨final, hp⟩
    case inl hop =>
      obtain ⟨_, rfl⟩ := hop
      cases e
      exact .inl (by simp [State.closeSess])
  case inl =>
    by_cases ht : t = t'
    case neg => exact .inl (by simpa [ht] using serves)
    case pos =>
      subst ht
      rw [head] at serves
      cases serves.exec e
      case inl serves => exact .inl (by simpa using serves)
      case inr hop =>
        obtain ⟨final, notify, rfl⟩ := hop
        obtain ⟨unattached, close⟩ := e.endSession_unattached
        exact .inr ⟨unattached, .inr ⟨final, by simp [close]⟩⟩

theorem Departing.step (e : Exec sha256 c.shared op i σ' ops) (head : c.procs t' = op :: rest)
    (hac : ac.ptr < c.shared.next) (h : Departing t ac c) :
    Departing t ac (c.resume t' σ' (ops ++ rest)) := by
  have unregistered (hn : c.shared.agents.get? ac.mid ≠ some ac) : σ'.agents.get? ac.mid ≠ some ac :=
    fun ha => hn (e.registered_before hac ha).left
  rcases h with hosts | ⟨hn, hc | hp⟩
  case inr.inl => exact .inr ⟨unregistered hn, .inl (e.agentConns_closed hac hc)⟩
  case inr.inr =>
    refine .inr ⟨unregistered hn, ?_⟩
    cases Config.mem_procs_step σ' ops head hp
    case inr hp => exact .inr hp
    case inl hop =>
      obtain ⟨_, rfl⟩ := hop
      cases e
      exact .inl (by simp [State.closeAgent])
  case inl =>
    by_cases ht : t = t'
    case neg => exact .inl (by simpa [Hosts, ht] using hosts)
    case pos =>
      subst ht
      rw [head] at hosts
      cases hosts.exec e
      case inl hosts => exact .inl (by simpa using hosts)
      case inr hop =>
        subst hop
        obtain ⟨unregistered, close⟩ := e.dropAgent_unregistered
        exact .inr ⟨unregistered, .inr (by simp [close])⟩

theorem Finishing.start (e : Broker.start c.shared r = some (σ', ops)) (idle : c.procs t' = [])
    (h : Finishing t s c) : Finishing t s (c.resume t' σ' ops) := by
  have ⟨_, _, sess, _⟩ := start_shared e
  have ⟨_, closed⟩ := @start_sessConns _ _ _ _ s e
  have kept {o : Op} (ho : o ∈ c.procs t) : t ≠ t' := by
    rintro rfl
    simp [idle] at ho
  rcases h with serves | ⟨unattached, hc | ⟨final, hp⟩⟩
  case inl =>
    have other : t ≠ t' := by
      rintro rfl
      rw [idle] at serves
      cases serves
    exact .inl (by simpa [other] using serves)
  case inr.inl => exact .inr ⟨sess ▸ unattached, .inl (closed.trans hc)⟩
  case inr.inr => exact .inr ⟨sess ▸ unattached, .inr ⟨final, by simpa [kept hp] using hp⟩⟩

theorem Departing.start (e : Broker.start c.shared r = some (σ', ops)) (idle : c.procs t' = [])
    (h : Departing t ac c) : Departing t ac (c.resume t' σ' ops) := by
  have ⟨_, agents, _, _⟩ := start_shared e
  have ⟨_, closed⟩ := @start_agentConns _ _ _ _ ac e
  have kept {o : Op} (ho : o ∈ c.procs t) : t ≠ t' := by
    rintro rfl
    simp [idle] at ho
  rcases h with (ho | ho) | ⟨hn, hc | hp⟩
  case inl.inl => exact .inl (.inl (by simpa [kept ho] using ho))
  case inl.inr => exact .inl (.inr (by simpa [kept ho] using ho))
  case inr.inl => exact .inr ⟨agents ▸ hn, .inl (closed.trans hc)⟩
  case inr.inr => exact .inr ⟨agents ▸ hn, .inr (by simpa [kept hp] using hp)⟩

theorem Manned.step (e : Exec sha256 c.shared op i σ' ops) (head : c.procs t = op :: rest)
    (wf : WellFormed σ') (alone : Alone (op :: rest)) (h : Manned c) :
    Manned (c.resume t σ' (ops ++ rest)) := by
  constructor
  case sess =>
    intro sid s hs
    have ⟨hsid, _⟩ := wf.sess hs
    rw [Config.resume_shared, ← hsid] at hs
    by_cases new : ∃ sid p ac, op = .attach sid p ac ∧ s = (c.shared.newSession sid p.mid).2
    case pos =>
      obtain ⟨sid, p, ac, rfl, rfl⟩ := new
      cases alone _ List.mem_cons_self rfl
      cases e
      exact ⟨t, by simpa using .opening⟩
    case neg =>
      have old := e.sess_before (fun sid p ac hop he => new ⟨sid, p, ac, hop, he⟩) hs
      have ⟨t', serves⟩ := h.sess old
      by_cases ht : t' = t
      case neg => exact ⟨t', by simpa [ht] using serves⟩
      case pos =>
        rw [ht, head] at serves
        cases serves.exec e
        case inl serves => exact ⟨t, by simpa using serves⟩
        case inr hop =>
          obtain ⟨_, _, rfl⟩ := hop
          exact absurd hs e.endSession_unattached.left
  case agents =>
    intro mid ac ha
    have hmid := wf.agents ha
    have old (ha' : c.shared.agents.get? mid = some ac) :
        ∃ t', Hosts ac ((c.resume t σ' (ops ++ rest)).procs t') := by
      have ⟨t', hosts⟩ := h.agents ha'
      by_cases ht : t' = t
      case neg => exact ⟨t', by simpa [ht] using hosts⟩
      case pos =>
        rw [ht, head] at hosts
        cases hosts.exec e
        case inl hosts => exact ⟨t, by simpa using hosts⟩
        case inr hop =>
          subst hop
          exact absurd (hmid ▸ ha) e.dropAgent_unregistered.left
    rcases e.agents_cases with ⟨same, _⟩ | ⟨mid', rfl, set, _⟩ | ⟨_, _, _, _, delete⟩
    case inl => exact old (same ▸ ha)
    case inr.inl =>
      rw [Config.resume_shared, set] at ha
      cases GoMap.of_get?_set ha
      case inr ha => exact old ha.right
      case inl ha =>
        obtain ⟨_, rfl⟩ := ha
        exact ⟨t, .inl (by cases e <;> simp)⟩
    case inr.inr =>
      rw [Config.resume_shared, delete] at ha
      exact old (GoMap.of_get?_delete ha).right

theorem manned_reachable (h : (program sha256).system.Reachable c) : Manned c := by
  refine h.invariant (I := Manned) ?_ ?_
  case refine_1 =>
    rintro c ⟨⟨st, now, hs⟩, _⟩
    exact ⟨by simp [hs], by simp [hs]⟩
  case refine_2 =>
    intro c l c' hr hi _ e
    have wf := (wellFormed_reachable (.step hr trivial e)).left
    replace e := Step.of e
    cases e
    case start t r σ' ops idle e =>
      have ⟨_, agents, sess, _⟩ := start_shared e
      have other {t' : Tid} {Q : List Op → Prop} (hn : ¬Q []) (hq : Q (c.procs t')) :
          Q ((c.resume t σ' ops).procs t') := by
        rw [Config.resume_procs, if_neg]
        · exact hq
        · rintro rfl
          exact hn (idle ▸ hq)
      constructor
      case sess =>
        intro sid s hs
        have ⟨t', serves⟩ := hi.sess (sess ▸ hs)
        exact ⟨t', other nofun serves⟩
      case agents =>
        intro mid ac ha
        have ⟨t', hosts⟩ := hi.agents (agents ▸ ha)
        exact ⟨t', other (by simp [Hosts]) hosts⟩
    case step t i op rest σ' ops head e =>
      exact hi.step (Exec.of e) head wf (head ▸ alone_reachable hr t)

-- A session is attached at most once.
theorem attaches_nodup (h : (program sha256).system.Reachable c) (hf : c.shared.FreshSids) :
    (c.shared.attaches.map (·.sid)).Nodup := by
  induction h
  case init c hi =>
    obtain ⟨⟨st, now, hs⟩, _⟩ := hi
    simp [hs, State.attaches]
  case step c l c' hr _ e hi =>
    replace e := Step.of e
    cases e
    case start e =>
      obtain ⟨_, attaches, _⟩ := start_attaching e
      rw [Config.resume_shared, attaches]
      exact hi (hf.of_suffix ⟨[], (start_mints e).symm⟩)
    case step t i op rest σ' ops head e =>
      replace e := Exec.of e
      have fresh := hf.of_suffix e.mints_suffix
      rw [Config.resume_shared]
      rcases e.attaching_cases with ⟨_, same, _⟩ | ⟨_, _, _, _, same, _⟩ |
        ⟨sid, p, ac, rfl, _, attaches, _⟩ | ⟨_, _, _, _, _, _, _, same, _⟩
      case inl         => exact same ▸ hi fresh
      case inr.inl     => exact same ▸ hi fresh
      case inr.inr.inr => exact same ▸ hi fresh
      case inr.inr.inl =>
        obtain ⟨_, unattached⟩ := (attaches_reachable hr fresh).pending ⟨t, head ▸ List.mem_cons_self⟩ rfl
        rw [attaches, List.map_cons, List.nodup_cons]
        refine ⟨fun hm => ?_, hi fresh⟩
        obtain ⟨s, hs, he⟩ := List.mem_map.mp hm
        exact unattached s hs he

-- A handler that attached a session, or registered a connection, and has nothing left to run, has closed
-- it and taken it out of the map for good.

theorem session_over (h : (program sha256).system.Reachable c) (hs : Serves s (c.procs t))
    (h₁ : ((program sha256).system.after c).Reachable c₁) (done : c₁.procs t = [])
    (h₂ : ((program sha256).system.after c₁).Reachable c₂) :
    (c₂.shared.sessConns s).closed ∧ c₂.shared.sess.get? s.sid ≠ some s := by
  have pending : ∃ o ∈ c.procs t, o.session = some s := by
    generalize c.procs t = ops at hs
    cases hs <;> exact ⟨_, List.mem_cons_self, rfl⟩
  have ⟨o, ho, hos⟩ := pending
  have attached := (known_reachable h).right o ⟨t, ho⟩ s hos
  have ptr := (handles_reachable h).left.attaches attached
  have ⟨finishing, next⟩ := kept_after (I := Finishing t s) (fun e idle h => h.start e idle)
    (fun e head hs h => h.step e head hs) ptr (.inl hs) h₁
  have ended : (c₁.shared.sessConns s).closed ∧ c₁.shared.sess.get? s.sid ≠ some s := by
    rcases finishing with serves | ⟨unattached, hc | ⟨_, hp⟩⟩
    case inl     => rw [done] at serves; cases serves
    case inr.inl => exact ⟨hc, unattached⟩
    case inr.inr => simp [done] at hp
  refine (kept_after (I := fun c => (c.shared.sessConns s).closed ∧ c.shared.sess.get? s.sid ≠ some s)
    ?_ ?_ (Nat.lt_of_lt_of_le ptr next) ended h₂).left
  case refine_1 =>
    intro c t r σ' ops e _ h
    have ⟨_, _, sess, _⟩ := start_shared e
    have ⟨_, closed⟩ := @start_sessConns _ _ _ _ s e
    exact ⟨closed.trans h.left, sess ▸ h.right⟩
  case refine_2 => exact fun e _ hs h => ⟨e.sessConns_closed hs h.left, e.unattached hs h.right⟩

theorem agent_over (h : (program sha256).system.Reachable c) (ha : Hosts ac (c.procs t))
    (h₁ : ((program sha256).system.after c).Reachable c₁) (done : c₁.procs t = [])
    (h₂ : ((program sha256).system.after c₁).Reachable c₂) :
    (c₂.shared.agentConns ac).closed ∧ c₂.shared.agents.get? ac.mid ≠ some ac := by
  have handled := (handles_reachable h).right
  have ptr : ac.ptr < c.shared.next := by
    cases ha
    case inl ha => exact handled _ ⟨t, ha⟩
    case inr ha => exact handled _ ⟨t, ha⟩
  have ⟨departing, next⟩ := kept_after (I := Departing t ac) (fun e idle h => h.start e idle)
    (fun e head hs h => h.step e head hs) ptr (.inl ha) h₁
  have ended : (c₁.shared.agentConns ac).closed ∧ c₁.shared.agents.get? ac.mid ≠ some ac := by
    rcases departing with hosts | ⟨unregistered, hc | hp⟩
    case inl     => simp [Hosts, done] at hosts
    case inr.inl => exact ⟨hc, unregistered⟩
    case inr.inr => simp [done] at hp
  refine (kept_after
    (I := fun c => (c.shared.agentConns ac).closed ∧ c.shared.agents.get? ac.mid ≠ some ac)
    ?_ ?_ (Nat.lt_of_lt_of_le ptr next) ended h₂).left
  case refine_1 =>
    intro c t r σ' ops e _ h
    have ⟨_, agents, _, _⟩ := start_shared e
    have ⟨_, closed⟩ := @start_agentConns _ _ _ _ ac e
    exact ⟨closed.trans h.left, agents ▸ h.right⟩
  case refine_2 =>
    intro c t i op rest σ' ops e _ hac h
    exact ⟨e.agentConns_closed hac h.left, fun ha => h.right (e.registered_before hac ha).left⟩

-- Each entry of the maps has its own key and a handler that still runs, a sid is registered once, and
-- what a handler that returned had registered is closed and stays out of the maps. So `apiMachines`
-- counts sessions with running handlers only, and a machine that it reports online has one.
theorem no_leaked_registration (h : (program sha256).system.Reachable c) :
    (∀ sid s, c.shared.sess.get? sid = some s → s.sid = sid ∧ ∃ t, Serves s (c.procs t)) ∧
    (∀ mid ac, c.shared.agents.get? mid = some ac → ac.mid = mid ∧ ∃ t, Hosts ac (c.procs t)) ∧
    (c.shared.FreshSids → (c.shared.attaches.map (·.sid)).Nodup) ∧
    (∀ t s, Serves s (c.procs t) → ∀ c₁, ((program sha256).system.after c).Reachable c₁ →
      c₁.procs t = [] → ∀ c₂, ((program sha256).system.after c₁).Reachable c₂ →
      (c₂.shared.sessConns s).closed ∧ c₂.shared.sess.get? s.sid ≠ some s) ∧
    (∀ t ac, Hosts ac (c.procs t) → ∀ c₁, ((program sha256).system.after c).Reachable c₁ →
      c₁.procs t = [] → ∀ c₂, ((program sha256).system.after c₁).Reachable c₂ →
      (c₂.shared.agentConns ac).closed ∧ c₂.shared.agents.get? ac.mid ≠ some ac) ∧
    (∀ machines, ∀ o ∈ apiMachines machines c.shared,
      (∃ l : List Session, l.Nodup ∧ o.sessions = l.length ∧
        ∀ s ∈ l, s.mid = o.id ∧ ∃ t, Serves s (c.procs t)) ∧
      (o.online → ∃ ac t, ac.mid = o.id ∧ Hosts ac (c.procs t))) := by
  have ⟨wf, _⟩ := wellFormed_reachable h
  have manned := manned_reachable h
  refine ⟨fun sid s hs => ⟨(wf.sess hs).left, manned.sess hs⟩,
    fun mid ac ha => ⟨wf.agents ha, manned.agents ha⟩, attaches_nodup h,
    fun t s hs c₁ h₁ done c₂ h₂ => session_over h hs h₁ done h₂,
    fun t ac ha c₁ h₁ done c₂ h₂ => agent_over h ha h₁ done h₂, fun machines o ho => ?_⟩
  have ⟨m, _, hm⟩ := List.mem_map.mp ho
  subst hm
  refine ⟨⟨_, ?_, rfl, fun s hs => ?_⟩, fun online => ?_⟩
  case refine_1 => exact GoMap.valuesWhere_nodup (·.sid) fun sid s hs => (wf.sess hs).left
  case refine_2 =>
    have ⟨sid, hs, hmid⟩ := GoMap.mem_valuesWhere.mp hs
    exact ⟨of_decide_eq_true hmid, manned.sess hs⟩
  case refine_3 =>
    have ⟨connected, _⟩ := of_decide_eq_true online
    have ⟨ac, ha⟩ := Option.isSome_iff_exists.mp connected
    have ⟨t, hosts⟩ := manned.agents ha
    exact ⟨ac, t, wf.agents ha, hosts⟩

-- The browser of a terminal leaves, and `wsTerm` returns.
theorem no_leaked_registration_sample :
    let s : Session := ⟨1, "a0", "5c"⟩
    let left := [.step 2 .failed, .step 2 .done, .step 2 .done, .step 2 .done]
    ∃ c c', (program sampleSum).system.run initial sampleOpened = some c ∧
      c.shared.sess.get? "a0" = some s ∧ (∃ t, Serves s (c.procs t)) ∧
      (program sampleSum).system.run c left = some c' ∧ c'.procs 2 = [] ∧
      (c'.shared.sessConns s).closed ∧ c'.shared.sess.get? "a0" ≠ some s := by
  intro s left
  have ran : ((program sampleSum).system.run initial (sampleOpened ++ left)).isSome := by decide
  have ⟨c', e⟩ := Option.isSome_iff_exists.mp ran
  have ⟨c, e₀, e₁⟩ := Transition.run_append_eq_some.mp e
  have reachable := Transition.Reachable.run (.init (initial_init sampleSum)) e₀
  have ⟨serving, _, _, ended, _⟩ := no_leaked_registration reachable
  have sess : c.shared.sess.get? "a0" = some s :=
    Transition.eq_of_run (f := (·.shared.sess.get? "a0")) e₀ (by decide)
  have term : c.procs 2 = [.readTerm s ⟨0, "5c"⟩] :=
    Transition.eq_of_run (f := (·.procs 2)) e₀ (by decide)
  have done : c'.procs 2 = [] := Transition.eq_of_run (f := (·.procs 2)) e (by decide)
  have serves : Serves s (c.procs 2) := term ▸ .reading
  have ⟨closed, gone⟩ := ended 2 s serves c' (Transition.after_of_run e₁) done c' (.init rfl)
  exact ⟨c, c', e₀, sess, (serving _ s sess).right, e₁, done, closed, gone⟩

end Broker
