import Popfleet.Broker.Theorems.Attaches

open Proto Store Program

namespace Broker

-- When `wsTerm` gets to send open, the agent that it read is still registered, or cannot take the
-- frame, or the session is already gone.
def OpensLive (c : Config State Op) (l : Label Req Input) : Prop :=
  ∀ {t i s ac cmd rest}, l = .step t i → c.procs t = .sendOpen s (some ac) cmd :: rest →
    c.shared.agents.get? s.mid = some ac ∨ (c.shared.agentConns ac).closed ∨
      (c.shared.agentConns ac).full ∨ c.shared.sess.get? s.sid ≠ some s

-- The agent of every session opened and still attached is registered and can be reached.
def Attended (σ : State) : Prop :=
  ∀ s ac, (s, ac) ∈ σ.opens → σ.sess.get? s.sid = some s →
    σ.agents.get? s.mid = some ac ∧ (σ.agentConns ac).closed = false

-- Every session ever attached still is, or its connection is closed or about to be.
def Detached (c : Config State Op) : Prop :=
  ∀ s ∈ c.shared.attaches, c.shared.sess.get? s.sid = some s ∨ (c.shared.sessConns s).closed ∨
    ∃ final, c.Pending (.closeSess s final)

namespace Conn

variable {c : Conn} {m : Msg} {final : Option Msg}

@[simp]
theorem send_closed : (c.send m).1.closed = c.closed := by
  unfold send
  split <;> rfl

@[simp]
theorem close_closed : (c.close final).closed = true := by
  unfold close
  split
  case isTrue h => exact h
  case isFalse  => split <;> rfl

@[simp]
theorem drain_closed : c.drain.closed = c.closed := by
  unfold drain
  split <;> rfl

theorem send_eq_true (h : (c.send m).2 = true) : c.closed = false ∧ c.full = false := by
  unfold send at h
  split at h
  case isTrue  => contradiction
  case isFalse => simp_all

end Conn

variable {sha256 : String → Digest} {σ σ' : State} {op : Op} {i : Input} {ops rest : List Op}
  {r : Req} {c c' : Config State Op} {l : Label Req Input} {t : Tid} {ac a : AgentConn}
  {s : Session} {m : Msg}

theorem sendAgent_closed : ((σ.sendAgent a m).agentConns ac).closed = (σ.agentConns ac).closed := by
  simp only [State.sendAgent, Function.update_apply]
  split
  case isTrue h => simp [h]
  case isFalse  => rfl

theorem Exec.sessConns_closed (e : Exec sha256 σ op i σ' ops) (hs : s.ptr < σ.next)
    (h : (σ.sessConns s).closed) : (σ'.sessConns s).closed := by
  cases e
  case sessClosed =>
    simp only [State.closeSess, Function.update_apply]
    split <;> simp [h]
  case browserSent | browserSlow =>
    simp only [State.sendBrowser, Function.update_apply]
    split
    case isTrue he => simpa [he] using h
    case isFalse   => exact h
  case attached sid p ac =>
    have old : s ≠ (σ.newSession sid p.mid).2 := by
      intro he
      exact absurd hs (he ▸ Nat.lt_irrefl _)
    exact (congrArg Conn.closed (Function.update_of_ne old ..)).trans h
  all_goals exact h

theorem State.mem_victims {mid : String} (h : σ.sess.get? s.sid = some s) (hm : s.mid = mid) :
    s ∈ σ.victims mid :=
  GoMap.mem_valuesWhere.mpr ⟨s.sid, h, decide_eq_true hm⟩

-- A session is taken out of the map by sections that go on to close its connection.
theorem Exec.sess_cases (e : Exec sha256 σ op i σ' ops) (h : σ.sess.get? s.sid = some s)
    (hn : ∀ p ac, op ≠ .attach s.sid p ac) :
    σ'.sess.get? s.sid = some s ∨ ∃ final, .closeSess s final ∈ ops := by
  cases e
  case replaced mid _ _ =>
    by_cases hm : s.mid = mid
    case neg => exact .inl (GoMap.get?_deleteWhere_eq_some.mpr ⟨h, decide_eq_false hm⟩)
    case pos =>
      have victim := State.mem_victims h hm
      exact .inr ⟨_, List.mem_append_left _ (.tail _ (List.mem_map.mpr ⟨s, victim, rfl⟩))⟩
  case dropped a _ _ =>
    by_cases hm : s.mid = a.mid
    case neg => exact .inl (GoMap.get?_deleteWhere_eq_some.mpr ⟨h, decide_eq_false hm⟩)
    case pos =>
      have victim := State.mem_victims h hm
      exact .inr ⟨_, .tail _ (List.mem_map.mpr ⟨s, victim, rfl⟩)⟩
  case ended f s' hs' _ =>
    by_cases he : s.sid = f.sid
    case neg => exact .inl (GoMap.get?_delete.trans ((if_neg he).trans h))
    case pos =>
      cases (he ▸ h).symm.trans hs'
      exact .inr ⟨_, List.mem_cons_self⟩
  case sessEnded s' final notify _ hs' _ =>
    by_cases he : s.sid = s'.sid
    case neg => exact .inl (GoMap.get?_delete.trans ((if_neg he).trans h))
    case pos =>
      cases (he ▸ h).symm.trans hs'
      exact .inr ⟨_, List.mem_cons_self⟩
  case attached sid p ac =>
    have hne : s.sid ≠ sid := by
      rintro rfl
      exact hn p ac rfl
    exact .inl (GoMap.get?_set.trans ((if_neg hne).trans h))
  all_goals exact .inl h

theorem Attended.start (e : start σ r = some (σ', ops)) (h : Attended σ) : Attended σ' := by
  cases r <;> cases e
  case drainAgent a =>
    intro s ac ho hs
    have ⟨agents, closed⟩ := h s ac ho hs
    refine ⟨agents, ?_⟩
    simp only [Function.update_apply]
    split
    case isTrue ha => exact Conn.drain_closed.trans (ha ▸ closed)
    case isFalse   => exact closed
  all_goals exact h

-- A session that stays attached was not opened on an agent that is yet to be registered.
theorem Attended.register {mid : String} {s : Session} {ac : AgentConn} (handles : Handles σ)
    (h : Attended σ) (ho : (s, ac) ∈ σ.opens) (hs : σ.sess.get? s.sid = some s) (hne : s.mid ≠ mid) :
    (σ.agents.set mid (σ.newAgent mid).2).get? s.mid = some ac ∧
      ((σ.newAgent mid).1.agentConns ac).closed = false := by
  have ⟨registered, closed⟩ := h s ac ho hs
  have old : ac ≠ (σ.newAgent mid).2 := by
    intro he
    exact absurd (handles.agents registered) (he ▸ Nat.lt_irrefl _)
  rw [GoMap.get?_set, if_neg hne]
  exact ⟨registered, (congrArg Conn.closed (Function.update_of_ne old ..)).trans closed⟩

theorem Attended.exec (e : Exec sha256 σ op i σ' ops) (wf : WellFormed σ) (handles : Handles σ)
    (ho : op.Handled σ)
    (hl : ∀ s ac cmd, op = .sendOpen s (some ac) cmd → σ.agents.get? s.mid = some ac ∨
      (σ.agentConns ac).closed ∨ (σ.agentConns ac).full ∨ σ.sess.get? s.sid ≠ some s)
    (h : Attended σ) : Attended σ' := by
  cases e
  case registered mid hn =>
    intro s ac hm hs
    refine h.register handles hm hs fun he => ?_
    have ⟨registered, _⟩ := h s ac hm hs
    simp [← he, registered] at hn
  case replaced mid old hold =>
    intro s ac hm hs
    have ⟨hs, hne⟩ := GoMap.get?_deleteWhere_eq_some.mp hs
    exact h.register handles hm hs (of_decide_eq_false hne)
  case dropped a why ha =>
    intro s ac hm hs
    have ⟨hs, hne⟩ := GoMap.get?_deleteWhere_eq_some.mp hs
    have ⟨registered, closed⟩ := h s ac hm hs
    have hne : s.mid ≠ a.mid := of_decide_eq_false hne
    exact ⟨GoMap.get?_delete.trans ((if_neg hne).trans registered), closed⟩
  case agentClosed a =>
    intro s ac hm hs
    have ⟨registered, closed⟩ := h s ac hm hs
    have hne : ac ≠ a := by
      intro he
      exact ho.right (he ▸ wf.agents registered ▸ registered)
    exact ⟨registered, (congrArg Conn.closed (Function.update_of_ne hne ..)).trans closed⟩
  case agentSent | relayed =>
    intro s ac hm hs
    have ⟨registered, closed⟩ := h s ac hm hs
    exact ⟨registered, sendAgent_closed.trans closed⟩
  case ended | sessEnded =>
    intro s ac hm hs
    exact h s ac hm (GoMap.of_get?_delete hs).right
  case attached =>
    intro s ac hm hs
    cases GoMap.of_get?_set hs
    case inl h =>
      obtain ⟨_, rfl⟩ := h
      exact absurd (handles.attaches (handles.opens hm)) (Nat.lt_irrefl _)
    case inr hc =>
      obtain ⟨_, hs⟩ := hc
      exact h s ac hm hs
  case opened s ac cmd sent =>
    intro s' ac' hm hs
    cases hm
    case head =>
      have ⟨closed, full⟩ := Conn.send_eq_true sent
      have registered : σ.agents.get? s.mid = some ac := by
        rcases hl s ac cmd rfl with hr | hc | hf | hn
        case inl         => exact hr
        case inr.inl     => simp [closed] at hc
        case inr.inr.inl => simp [full] at hf
        case inr.inr.inr => exact absurd hs hn
      exact ⟨registered, sendAgent_closed.trans closed⟩
    case tail hm =>
      have ⟨registered, closed⟩ := h s' ac' hm hs
      exact ⟨registered, sendAgent_closed.trans closed⟩
  all_goals exact h

theorem attended_reachable (h : (program sha256).system.ReachableUnder OpensLive c) :
    Attended c.shared := by
  induction h
  case init c hi =>
    obtain ⟨⟨st, now, hs⟩, _⟩ := hi
    simp [Attended, hs, State.opens]
  case step c l c' hr hl e hi =>
    have wf := (wellFormed_reachable hr.reachable).left
    obtain ⟨handles, handled⟩ := handles_reachable hr.reachable
    replace e := Step.of e
    cases e
    case start e     => exact hi.start e
    case step head e =>
      exact hi.exec (Exec.of e) wf handles (handled _ ⟨_, head ▸ List.mem_cons_self⟩)
        fun s ac cmd hop => hl rfl (hop ▸ head)

theorem Detached.start (e : Broker.start c.shared r = some (σ', ops)) (idle : c.procs t = [])
    (h : Detached c) : Detached (c.resume t σ' ops) := by
  intro s hs
  obtain ⟨_, _, sess, log⟩ := start_shared e
  have attaches : σ'.attaches = c.shared.attaches := by simp only [State.attaches, log]
  have closed (h : (c.shared.sessConns s).closed) : (σ'.sessConns s).closed := by
    cases r <;> cases e
    case drainSess =>
      simp only [Function.update_apply]
      split
      case isTrue he => simpa [he] using h
      case isFalse   => exact h
    all_goals exact h
  rw [Config.resume_shared, attaches] at hs
  rw [Config.resume_shared, sess]
  exact (h s hs).imp_right (.imp closed (.imp fun _ hp => hp.start idle))

theorem Detached.step (e : Exec sha256 c.shared op i σ' ops) (head : c.procs t = op :: rest)
    (handles : Handles c.shared) (attaches : Attaches c) (h : Detached c) :
    Detached (c.resume t σ' (ops ++ rest)) := by
  intro s hs
  have old : s ∈ c.shared.attaches ∨ σ'.sess.get? s.sid = some s := by
    cases e
    case attached =>
      cases hs
      case head    => exact .inr (GoMap.get?_set.trans (if_pos rfl))
      case tail hs => exact .inl hs
    all_goals exact .inl hs
  rcases old with hs | hs
  case inr => exact .inl hs
  rcases h s hs with hs' | hc | ⟨final, hp⟩
  case inl =>
    have unattached : ∀ p ac, op ≠ .attach s.sid p ac := by
      rintro p ac rfl
      exact (attaches.pending ⟨t, head ▸ List.mem_cons_self⟩ rfl).right s hs rfl
    refine (e.sess_cases hs' unattached).imp_right fun ⟨final, hm⟩ => .inr ⟨final, ?_⟩
    exact Config.pending_of_mem (List.mem_append_left _ hm)
  case inr.inl => exact .inr (.inl (e.sessConns_closed (handles.attaches hs) hc))
  case inr.inr =>
    cases hp.step head
    case inl h =>
      subst h
      cases e
      exact .inr (.inl (by simp [State.closeSess]))
    case inr hp => exact .inr (.inr ⟨final, hp⟩)

theorem detached_reachable (h : (program sha256).system.Reachable c) (hf : c.shared.FreshSids) :
    Detached c := by
  induction h
  case init c hi =>
    have ⟨⟨st, now, hs⟩, _⟩ := hi
    simp [Detached, hs, State.attaches]
  case step c l c' hr _ e hi =>
    replace e := Step.of e
    cases e
    case start idle e => exact (hi (hf.of_suffix ⟨[], (start_mints e).symm⟩)).start e idle
    case step head e =>
      replace e := Exec.of e
      have fresh := hf.of_suffix e.mints_suffix
      exact (hi fresh).step e head (handles_reachable hr).left (attaches_reachable hr fresh)

-- When `wsTerm` never sends open on a connection that was already replaced or dropped and is yet to be
-- closed, a session in the map that was opened has its agent registered and open. Once that agent is
-- replaced or dropped, the session is out of the map, and its browser disconnected as soon as that is
-- no longer left to do.
theorem no_orphans (h : (program sha256).system.ReachableUnder OpensLive c) :
    (∀ s ac, (s, ac) ∈ c.shared.opens → c.shared.sess.get? s.sid = some s →
      c.shared.agents.get? s.mid = some ac ∧ (c.shared.agentConns ac).closed = false) ∧
    (c.shared.FreshSids → ∀ s ac, (s, ac) ∈ c.shared.opens → c.shared.agents.get? s.mid ≠ some ac →
      (∀ final, ¬c.Pending (.closeSess s final)) →
      c.shared.sess.get? s.sid ≠ some s ∧ (c.shared.sessConns s).closed) := by
  have attended := attended_reachable h
  refine ⟨attended, fun hf s ac ho ha hn => ?_⟩
  have removed : c.shared.sess.get? s.sid ≠ some s := fun hs => ha (attended s ac ho hs).left
  have opened := (handles_reachable h.reachable).left.opens ho
  rcases detached_reachable h.reachable hf s opened with hs | hc | ⟨final, hp⟩
  case inl     => exact absurd hs removed
  case inr.inl => exact ⟨removed, hc⟩
  case inr.inr => exact absurd hp (hn final)

-- A step that opens sessions on registered agents only.
def onRegistered (c : Config State Op) : Label Req Input → Bool
  | .start .. => true
  | .step t _ =>
    match c.procs t with
    | .sendOpen s (some ac) _ :: _ => c.shared.agents.get? s.mid = some ac
    | _                            => true

theorem opensLive_of_onRegistered (c : Config State Op) (l : Label Req Input)
    (h : onRegistered c l) : OpensLive c l := by
  intro t i s ac cmd rest hl hp
  subst hl
  exact .inl (by simpa [onRegistered, hp] using h)

-- A terminal on a machine whose agent is lost afterwards.
theorem no_orphans_sample :
    let s : Session := ⟨1, "a0", "5c"⟩
    let ls : List (Label Req Input) := [
      .start 0 (.apiMint "" "5c" "e1" true), .step 0 .done,
      .start 1 (.wsAgent { t := "hello", token := "e1" }), .step 1 .done, .step 1 .done,
      .step 1 .done, .step 1 .done,
      .start 0 (.apiTerm "5c" "" "a0" "9f"), .step 0 .done, .step 0 .done,
      .start 2 (.wsTerm "a0" "9f"), .step 2 .done, .step 2 .done, .step 2 .done, .step 2 .done,
      .step 1 .failed, .step 1 .done, .step 1 .done, .step 1 .done]
    ∃ c, (program sampleSum).system.runWhile onRegistered initial ls = some c ∧
      c.shared.sess.get? "a0" ≠ some s ∧ (c.shared.sessConns s).closed := by
  intro s ls
  cases e : (program sampleSum).system.runWhile onRegistered initial ls
  case none => contradiction
  case some c =>
    have reachable := Transition.ReachableUnder.runWhile (.init (initial_init sampleSum))
      opensLive_of_onRegistered e
    have mints : c.shared.mints.map (·.1) = ["a0"] :=
      Transition.eq_of_run (f := (·.shared.mints.map (·.1))) e (by decide)
    have opens : c.shared.opens = [(s, ⟨0, "5c"⟩)] :=
      Transition.eq_of_run (f := (·.shared.opens)) e (by decide)
    have agents : c.shared.agents.get? "5c" = none :=
      Transition.eq_of_run (f := (·.shared.agents.get? "5c")) e (by decide)
    obtain ⟨_, orphans⟩ := no_orphans reachable
    have fresh : c.shared.FreshSids := by simp [State.FreshSids, mints]
    refine ⟨c, rfl, orphans fresh s ⟨0, "5c"⟩ (by simp [opens]) (by simp [s, agents]) ?_⟩
    rintro final ⟨t, hp⟩
    by_cases ht : t = 0 ∨ t = 1 ∨ t = 2
    case pos =>
      have procs : (c.procs 0, c.procs 1, c.procs 2) = ([], [], [.readTerm s ⟨0, "5c"⟩]) :=
        Transition.eq_of_run (f := fun c => (c.procs 0, c.procs 1, c.procs 2)) e (by decide)
      simp only [Prod.mk.injEq] at procs
      rcases ht with rfl | rfl | rfl <;> simp [procs] at hp
    case neg =>
      obtain ⟨h₀, h₁, h₂⟩ : 0 ≠ t ∧ 1 ≠ t ∧ 2 ≠ t := by simpa [eq_comm] using ht
      have procs : c.procs t = [] :=
        procs_of_run (Transition.run_of_runWhile e) (by simp [ls, Label.tid, h₀, h₁, h₂])
      simp [procs] at hp

-- The drop of the agent has collected its victims when the session is attached, and closes the queue
-- of the agent only after open was enqueued.
theorem dropped_agent_keeps_session :
    let s : Session := ⟨1, "a0", "5c"⟩
    let ac : AgentConn := ⟨0, "5c"⟩
    let ls : List (Label Req Input) := [
      .start 0 (.apiMint "" "5c" "e1" true), .step 0 .done,
      .start 1 (.wsAgent { t := "hello", token := "e1" }), .step 1 .done, .step 1 .done,
      .step 1 .done, .step 1 .done,
      .start 0 (.apiTerm "5c" "" "a0" "9f"), .step 0 .done, .step 0 .done,
      .start 2 (.wsTerm "a0" "9f"), .step 2 .done, .step 2 .done,
      .step 1 .failed, .step 1 .done,
      .step 2 .done, .step 2 .done, .step 1 .done]
    ∃ c, (program sampleSum).system.run initial ls = some c ∧ (∀ t ≠ 2, c.procs t = []) ∧
      c.procs 2 = [.readTerm s ac] ∧ (s, ac) ∈ c.shared.opens ∧ c.shared.sess.get? "a0" = some s ∧
      (c.shared.sessConns s).closed = false ∧ c.shared.agents.get? "5c" = none ∧
      (c.shared.agentConns ac).closed := by
  intro s ac ls
  cases e : (program sampleSum).system.run initial ls
  case none => contradiction
  case some c =>
    have opens : c.shared.opens = [(s, ac)] :=
      Transition.eq_of_run (f := (·.shared.opens)) e (by decide)
    have sess : c.shared.sess.get? "a0" = some s :=
      Transition.eq_of_run (f := (·.shared.sess.get? "a0")) e (by decide)
    have attached : (c.shared.sessConns s).closed = false :=
      Transition.eq_of_run (f := fun c => (c.shared.sessConns s).closed) e (by decide)
    have agents : c.shared.agents.get? "5c" = none :=
      Transition.eq_of_run (f := (·.shared.agents.get? "5c")) e (by decide)
    have closed : (c.shared.agentConns ac).closed = true :=
      Transition.eq_of_run (f := fun c => (c.shared.agentConns ac).closed) e (by decide)
    have procs : (c.procs 0, c.procs 1, c.procs 2) = ([], [], [.readTerm s ac]) :=
      Transition.eq_of_run (f := fun c => (c.procs 0, c.procs 1, c.procs 2)) e (by decide)
    simp only [Prod.mk.injEq] at procs
    have ⟨procs₀, procs₁, procs₂⟩ := procs
    refine ⟨c, rfl, fun t h₂ => ?_, procs₂, by simp [opens], sess, attached, agents, closed⟩
    by_cases h₀ : t = 0
    case pos => exact h₀ ▸ procs₀
    by_cases h₁ : t = 1
    case pos => exact h₁ ▸ procs₁
    exact procs_of_run e (by simp [ls, Label.tid, Ne.symm h₀, Ne.symm h₁, Ne.symm h₂])

end Broker
