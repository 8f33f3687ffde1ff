import Popfleet.Broker.Step

open Proto Store

namespace Broker

-- The graph of `exec`, for case analysis.
inductive Exec (sha256 : String → Digest) (σ : State) : Op → Input → State → List Op → Prop
  | unknownToken {hello i} (h : σ.st.byToken hello.token = none) :
    Exec sha256 σ (.byToken hello) i σ []
  | knownToken {hello m i} (h : σ.st.byToken hello.token = some m) :
    Exec sha256 σ (.byToken hello) i σ [.touch m.id hello.name hello.ver, .register m.id]
  | touched {mid name ver i} :
    Exec sha256 σ (.touch mid name ver) i { σ with st := σ.st.touch mid name ver σ.now } []
  | registered {mid i} (h : σ.agents.get? mid = none) :
    Exec sha256 σ (.register mid) i
      { (σ.newAgent mid).1 with agents := σ.agents.set mid (σ.newAgent mid).2 }
      [.sendAgent (σ.newAgent mid).2 { t := "hello_ok", id := mid }, .readAgent (σ.newAgent mid).2]
  | replaced {mid old i} (h : σ.agents.get? mid = some old) :
    Exec sha256 σ (.register mid) i
      ({ (σ.newAgent mid).1 with agents := σ.agents.set mid (σ.newAgent mid).2 }.evict mid)
      (.closeAgent old ::
        (σ.victims mid).map (.closeSess · (some { t := "err", msg := "agent reconnected" })) ++
        [.sendAgent (σ.newAgent mid).2 { t := "hello_ok", id := mid },
          .readAgent (σ.newAgent mid).2])
  | agentClosed {ac i} : Exec sha256 σ (.closeAgent ac) i (σ.closeAgent ac) []
  | sessClosed {s final i} : Exec sha256 σ (.closeSess s final) i (σ.closeSess s final) []
  | agentSent {ac m i} : Exec sha256 σ (.sendAgent ac m) i (σ.sendAgent ac m) []
  | agentRead {ac f} :
    Exec sha256 σ (.readAgent ac) (.frame f) (σ.record (.read ac f))
      (handleAgent ac f ++ [.readAgent ac])
  | agentLost {ac i} : Exec sha256 σ (.readAgent ac) i σ [.dropAgent ac "agent went offline"]
  | unrouted {ac sid m i} : Exec sha256 σ (.toBrowser ac sid m) i σ []
  | routed {ac sid m s i} (h : σ.sess.get? sid = some s) (hm : s.mid = ac.mid) :
    Exec sha256 σ (.toBrowser ac sid m) i σ [.sendBrowser s m]
  | browserSent {s m i} (h : ((σ.sessConns s).send m).2 = true) :
    Exec sha256 σ (.sendBrowser s m) i (σ.sendBrowser s m) []
  | browserSlow {s m i} (h : ((σ.sessConns s).send m).2 = false) :
    Exec sha256 σ (.sendBrowser s m) i (σ.sendBrowser s m)
      [.endSession s (some { t := "err", msg := "session dropped: browser too slow" }) true]
  | notEnded {ac f i} : Exec sha256 σ (.ended ac f) i σ []
  | ended {ac f s i} (h : σ.sess.get? f.sid = some s) (hm : s.mid = ac.mid) :
    Exec sha256 σ (.ended ac f) i { σ with sess := σ.sess.delete f.sid }
      [.closeSess s (endedMsg f)]
  | dropped {ac why i} (h : σ.agents.get? ac.mid = some ac) :
    Exec sha256 σ (.dropAgent ac why) i
      { σ.evict ac.mid with agents := σ.agents.delete ac.mid }
      (.closeAgent ac :: (σ.victims ac.mid).map (.closeSess · (some { t := "err", msg := why })))
  | zombieDropped {ac why i} (h : σ.agents.get? ac.mid ≠ some ac) :
    Exec sha256 σ (.dropAgent ac why) i σ [.closeAgent ac]
  | sessEnded {s final notify i ops} (h : σ.sess.get? s.sid = some s)
    (ho : ∀ o ∈ ops, ∃ ac, σ.agents.get? s.mid = some ac ∧
      o = .sendAgent ac { t := "close", sid := s.sid }) :
    Exec sha256 σ (.endSession s final notify) i { σ with sess := σ.sess.delete s.sid }
      (.closeSess s final :: ops)
  | goneEnded {s final notify i ops} (h : σ.sess.get? s.sid ≠ some s)
    (ho : ∀ o ∈ ops, ∃ ac, σ.agents.get? s.mid = some ac ∧
      o = .sendAgent ac { t := "close", sid := s.sid }) :
    Exec sha256 σ (.endSession s final notify) i σ (.closeSess s final :: ops)
  | refused {sid k i} (h : valid sha256 σ sid k = none) :
    Exec sha256 σ (.consume sid k) i (σ.record (.refused sid k)) []
  | accepted {sid k p i} (h : valid sha256 σ sid k = some p) :
    Exec sha256 σ (.consume sid k) i
      ({ σ with pend := σ.pend.delete sid }.record (.accepted sid k σ.now))
      [.upgrade sid p (σ.agents.get? p.mid)]
  | notUpgraded {sid p ac} : Exec sha256 σ (.upgrade sid p ac) .failed σ []
  | upgraded {sid p ac i} : Exec sha256 σ (.upgrade sid p ac) i σ [.attach sid p ac]
  | attached {sid p ac i} :
    Exec sha256 σ (.attach sid p ac) i
      ({ (σ.newSession sid p.mid).1 with sess := σ.sess.set sid (σ.newSession sid p.mid).2 }.record
        (.attached (σ.newSession sid p.mid).2))
      [.sendOpen (σ.newSession sid p.mid).2 ac p.cmd]
  | opened {s ac cmd i}
    (h : ((σ.agentConns ac).send { t := "open", sid := s.sid, cmd }).2 = true) :
    Exec sha256 σ (.sendOpen s (some ac) cmd) i
      ((σ.sendAgent ac { t := "open", sid := s.sid, cmd }).record (.opened s ac))
      [.readTerm s ac]
  | notOpened {s ac cmd i} :
    Exec sha256 σ (.sendOpen s ac cmd) i σ
      [.endSession s (some { t := "err", msg := "agent is offline" }) false]
  | termRead {s ac f} :
    Exec sha256 σ (.readTerm s ac) (.frame f) σ (handleTerm s ac f ++ [.readTerm s ac])
  | termLost {s ac i} : Exec sha256 σ (.readTerm s ac) i σ [.endSession s none true]
  | relayed {s ac m i} : Exec sha256 σ (.relay s ac m) i (σ.sendAgent ac m) []
  | machine {m i} :
    Exec sha256 σ (.mint m true) i ({ σ with st := σ.st.insert m }.record (.machine m.id)) []
  | noMachine {m i} :
    Exec sha256 σ (.mint m false) i { σ with st := (σ.st.insert m).erase m.id } []
  | unknownID {id cmd sid key i} (h : σ.st.get? id = none) :
    Exec sha256 σ (.byID id cmd sid key) i σ []
  | knownID {id cmd sid key m i} (h : σ.st.get? id = some m) :
    Exec sha256 σ (.byID id cmd sid key) i σ [.mintKey id cmd sid key]
  | minted {id cmd sid key i p}
    (hp : p = { keySum := sha256 key, mid := id, cmd, exp := σ.now + keyTTL }) :
    Exec sha256 σ (.mintKey id cmd sid key) i
      ({ σ with pend := σ.pend.set sid p }.record (.minted sid key p)) []
  | notDeleted {id i} (h : σ.st.get? id = none) : Exec sha256 σ (.delete id) i σ []
  | deleted {id m i} (h : σ.st.get? id = some m) :
    Exec sha256 σ (.delete id) i { σ with st := σ.st.erase id } [.revoke id, .respond id]
  | offlineRevoked {id i} (h : σ.agents.get? id = none) : Exec sha256 σ (.revoke id) i σ []
  | onlineRevoked {id ac i} (h : σ.agents.get? id = some ac) :
    Exec sha256 σ (.revoke id) i σ [.dropAgent ac "machine revoked"]
  | responded {id i} : Exec sha256 σ (.respond id) i (σ.record (.revoked id)) []
  | swept {now i} :
    Exec sha256 σ (.sweepAt now) i
      { σ with pend := σ.pend.deleteWhere fun _ p => p.exp < now } []

variable {sha256 : String → Digest} {σ σ' : State} {op : Op} {i : Input} {ops : List Op}
  {r : Req}

-- Only the agent of the machine is told of a session that ended.
theorem mem_notify {s : Session} {notifyAgent : Bool} {o : Op}
    (ho : o ∈ (match σ.agents.get? s.mid with
      | some ac => if notifyAgent then [Op.sendAgent ac { t := "close", sid := s.sid }] else []
      | none    => [])) :
    ∃ ac, σ.agents.get? s.mid = some ac ∧ o = .sendAgent ac { t := "close", sid := s.sid } := by
  split at ho
  case h_1 ac h => exact ⟨ac, h, by split at ho <;> simp_all⟩
  case h_2      => simp at ho

theorem Exec.of (h : exec sha256 σ op i = some (σ', ops)) : Exec sha256 σ op i σ' ops := by
  cases op <;> simp only [exec] at h
  case byToken =>
    split at h <;> cases h
    case h_1 h => exact .unknownToken h
    case h_2 h => exact .knownToken h
  case touch => cases h; exact .touched
  case register =>
    split at h <;> cases h
    case h_1 h => exact .registered h
    case h_2 h => exact .replaced h
  case closeAgent => cases h; exact .agentClosed
  case closeSess => cases h; exact .sessClosed
  case sendAgent => cases h; exact .agentSent
  case readAgent =>
    cases i <;> cases h
    case frame => exact .agentRead
    case done | failed => exact .agentLost
  case toBrowser =>
    split at h
    case h_1 => cases h; exact .unrouted
    case h_2 h' =>
      cases h
      split
      case isTrue hm => exact .routed h' hm
      case isFalse   => exact .unrouted
  case sendBrowser =>
    cases h
    split
    case isTrue h  => exact .browserSent h
    case isFalse h => exact .browserSlow (by simpa using h)
  case ended =>
    split at h
    case h_1 => cases h; exact .notEnded
    case h_2 h' =>
      split at h <;> cases h
      case isTrue hm => exact .ended h' hm
      case isFalse   => exact .notEnded
  case dropAgent =>
    split at h <;> cases h
    case isTrue h  => exact .dropped h
    case isFalse h => exact .zombieDropped h
  case endSession s final notifyAgent =>
    cases h
    split
    case isTrue h  => exact .sessEnded h fun _ => mem_notify
    case isFalse h => exact .goneEnded h fun _ => mem_notify
  case consume =>
    split at h <;> cases h
    case h_1 h => exact .refused h
    case h_2 h => exact .accepted h
  case upgrade =>
    cases i <;> cases h
    case failed => exact .notUpgraded
    case done | frame => exact .upgraded
  case attach => cases h; exact .attached
  case sendOpen =>
    split at h
    case h_1 => cases h; exact .notOpened
    case h_2 =>
      split at h <;> cases h
      case isTrue h  => exact .opened h
      case isFalse h => exact .notOpened
  case readTerm =>
    cases i <;> cases h
    case frame => exact .termRead
    case done | failed => exact .termLost
  case relay => cases h; exact .relayed
  case mint =>
    split at h <;> cases h
    case isTrue h  => cases h; exact .machine
    case isFalse h => simp only [Bool.not_eq_true] at h; cases h; exact .noMachine
  case byID =>
    split at h <;> cases h
    case h_1 h => exact .unknownID h
    case h_2 h => exact .knownID h
  case mintKey => cases h; exact .minted rfl
  case delete =>
    split at h <;> cases h
    case h_1 h => exact .notDeleted h
    case h_2 h => exact .deleted h
  case revoke =>
    split at h <;> cases h
    case h_1 h => exact .offlineRevoked h
    case h_2 h => exact .onlineRevoked h
  case respond => cases h; exact .responded
  case sweepAt => cases h; exact .swept

theorem start_shared (e : start σ r = some (σ', ops)) :
    σ'.st = σ.st ∧ σ'.agents = σ.agents ∧ σ'.sess = σ.sess ∧ σ'.log = σ.log := by
  cases r <;> cases e <;> exact ⟨rfl, rfl, rfl, rfl⟩

theorem Exec.log_suffix (e : Exec sha256 σ op i σ' ops) : σ.log <:+ σ'.log := by
  cases e
  all_goals first | exact List.suffix_refl _ | exact List.suffix_cons ..

-- Only a handshake and a drop change which agents are registered.
theorem Exec.agents_cases (e : Exec sha256 σ op i σ' ops) :
    (σ'.agents = σ.agents ∧ ∀ ac why, op = .dropAgent ac why → σ.agents.get? ac.mid ≠ some ac) ∨
    (∃ mid, op = .register mid ∧ σ'.agents = σ.agents.set mid (σ.newAgent mid).2 ∧
      σ'.st = σ.st) ∨
    (∃ ac why, op = .dropAgent ac why ∧ σ.agents.get? ac.mid = some ac ∧
      σ'.agents = σ.agents.delete ac.mid) := by
  cases e
  case registered mid _ => exact .inr (.inl ⟨mid, rfl, rfl, rfl⟩)
  case replaced mid _ _ => exact .inr (.inl ⟨mid, rfl, rfl, rfl⟩)
  case dropped ac why h => exact .inr (.inr ⟨ac, why, rfl, h, rfl⟩)
  case zombieDropped h  => exact .inl ⟨rfl, by rintro _ _ ⟨⟩; exact h⟩
  all_goals exact .inl ⟨rfl, by simp⟩

theorem mem_handleAgent {ac : AgentConn} {f : Msg} {o : Op} :
    o ∈ handleAgent ac f ↔
      (f.t = "hb" ∧ o = .touch ac.mid "" "") ∨
      (f.t = "out" ∧ o = .toBrowser ac f.sid { t := "out", data := f.data }) ∨
      ((f.t = "exit" ∨ f.t = "err") ∧ o = .ended ac f) := by
  unfold handleAgent
  split <;> simp_all

theorem mem_handleTerm {s : Session} {ac : AgentConn} {f : Msg} {o : Op} :
    o ∈ handleTerm s ac f ↔
      (f.t = "in" ∧ o = .relay s ac { t := "in", sid := s.sid, data := f.data }) ∨
      (f.t = "resize" ∧ o = .relay s ac { t := "resize", sid := s.sid, c := f.c, r := f.r }) := by
  unfold handleTerm
  split <;> simp_all

-- What holds of each section that a frame or the end of a session calls for.

theorem forall_handleAgent {ac : AgentConn} {f : Msg} {P : Op → Prop} (touch : P (.touch ac.mid "" ""))
    (out : f.t = "out" → P (.toBrowser ac f.sid { t := "out", data := f.data }))
    (ended : f.t = "exit" ∨ f.t = "err" → P (.ended ac f)) : ∀ o ∈ handleAgent ac f, P o := by
  intro o hm
  rcases mem_handleAgent.mp hm with ⟨_, rfl⟩ | ⟨ht, rfl⟩ | ⟨ht, rfl⟩
  case inl     => exact touch
  case inr.inl => exact out ht
  case inr.inr => exact ended ht

theorem forall_handleTerm {s : Session} {ac : AgentConn} {f : Msg} {P : Op → Prop}
    (typed : P (.relay s ac { t := "in", sid := s.sid, data := f.data }))
    (resized : P (.relay s ac { t := "resize", sid := s.sid, c := f.c, r := f.r })) :
    ∀ o ∈ handleTerm s ac f, P o := by
  intro o hm
  rcases mem_handleTerm.mp hm with ⟨_, rfl⟩ | ⟨_, rfl⟩
  case inl => exact typed
  case inr => exact resized

theorem forall_close {s : Session} {P : Op → Prop}
    (ho : ∀ o ∈ ops, ∃ ac, σ.agents.get? s.mid = some ac ∧
      o = .sendAgent ac { t := "close", sid := s.sid })
    (h : ∀ ac, σ.agents.get? s.mid = some ac → P (.sendAgent ac { t := "close", sid := s.sid })) :
    ∀ o ∈ ops, P o := by
  intro o hm
  have ⟨ac, ha, hc⟩ := ho o hm
  exact hc ▸ h ac ha

end Broker
