import Mathlib.Algebra.GroupWithZero.Nat
import Popfleet.Broker.Theorems.Leaks
import Popfleet.Lib.TwoRuns

open Proto Store Program

namespace Broker

-- The frames for the agent that the end of a session brings: close, and those that its browser typed
-- of which `typed` says that the two runs may differ in them.
def Session.own (slow : Session) (typed : Msg → Bool) (m : Msg) : Bool :=
  m.sid = slow.sid && (m.t = "close" || typed m)

-- The sections that send output to the browser of a session, end it, read its browser and relay such
-- frames.
def Op.own (slow : Session) (typed : Msg → Bool) : Op → Bool
  | .sendBrowser s _  => s = slow
  | .endSession s _ _ => s = slow
  | .closeSess s _    => s = slow
  | .readTerm s _     => s = slow
  | .sendAgent _ m    => slow.own typed m
  | .relay s _ m      => s = slow && slow.own typed m
  | _                 => false

-- The two states agree, but for the session: its entry in the map, its connection, and the frames that
-- are its own on the queues of the agents. How much of its queue an agent has read is left open with them.
structure Alike (slow : Session) (typed : Msg → Bool) (σ₁ σ₂ : State) : Prop where
  st        : σ₁.st = σ₂.st
  agents    : σ₁.agents = σ₂.agents
  pend      : σ₁.pend = σ₂.pend
  next      : σ₁.next = σ₂.next
  now       : σ₁.now = σ₂.now
  log       : σ₁.log = σ₂.log
  sess      : (σ₁.sess.deleteWhere fun _ s => s = slow) = σ₂.sess.deleteWhere fun _ s => s = slow
  sessConns : ∀ s ≠ slow, σ₁.sessConns s = σ₂.sessConns s
  closed    : ∀ ac, (σ₁.agentConns ac).closed = (σ₂.agentConns ac).closed
  out       : ∀ ac, (σ₁.agentConns ac).out.filter (!slow.own typed ·) =
    (σ₂.agentConns ac).out.filter (!slow.own typed ·)

-- The sections of a thread that are not the session's own.
def Op.others (slow : Session) (typed : Msg → Bool) (ops : List Op) : List Op :=
  ops.filter (!·.own slow typed)

def AlikeRuns (slow : Session) (typed : Msg → Bool) (c₁ c₂ : Config State Op) : Prop :=
  Alike slow typed c₁.shared c₂.shared ∧
    ∀ t, Op.others slow typed (c₁.procs t) = Op.others slow typed (c₂.procs t)

-- The agent that a section sends a frame to.
def Op.sendsTo : Op → Option AgentConn
  | .sendAgent ac _ => some ac
  | .relay _ ac _   => some ac
  | .sendOpen _ ac _ => ac
  | _               => none

-- Both runs make the step: a thread runs the same section in both.
def Together (c₁ c₂ : Config State Op) : Label Req Input → Prop
  | .start _ _ => True
  | .step t _  => ∃ op rest₁ rest₂, c₁.procs t = op :: rest₁ ∧ c₂.procs t = op :: rest₂

-- No frame but those of the session itself finds the queue of an agent full in one run only.
def SameRoom (slow : Session) (typed : Msg → Bool) (c₁ c₂ : Config State Op) (l : Label Req Input) :
    Prop :=
  ∀ {t i op rest ac}, l = .step t i → c₁.procs t = op :: rest → op.own slow typed = false →
    op.sendsTo = some ac → (c₁.shared.agentConns ac).full = (c₂.shared.agentConns ac).full

-- One run alone may drain the queue of the slow browser, or that of an agent, and run sections of the
-- session.
def OwnStep (sha256 : String → Digest) (slow : Session) (typed : Msg → Bool) (c : Config State Op) :
    Label Req Input → Prop
  | .start _ r => r = .drainSess slow ∨ ∃ ac, r = .drainAgent ac
  | .step t i  => ∃ op rest σ' ops, c.procs t = op :: rest ∧ op.own slow typed ∧
    exec sha256 c.shared op i = some (σ', ops) ∧ ∀ o ∈ ops, o.own slow typed

-- How many sections `toBrowser` and the ones that it calls for take at most.
def Op.cost : Op → Nat
  | .toBrowser _ _ _  => 5
  | .sendBrowser _ _  => 4
  | .endSession _ _ _ => 3
  | .closeSess _ _    => 1
  | .sendAgent _ _    => 1
  | _                 => 0

variable {sha256 : String → Digest} {slow : Session} {typed : Msg → Bool}
  {σ σ' σ₁ σ₂ σ₁' σ₂' : State} {op : Op} {i : Input} {ops ops₁ ops₂ rest rest₁ rest₂ : List Op} {r : Req}
  {c c' c₁ c₂ : Config State Op} {t : Tid} {ac : AgentConn} {s : Session} {m : Msg}

theorem alike_equivalence : Equivalence (Alike slow typed) where
  refl _ := ⟨rfl, rfl, rfl, rfl, rfl, rfl, rfl, fun _ _ => rfl, fun _ => rfl, fun _ => rfl⟩
  symm h := ⟨h.st.symm, h.agents.symm, h.pend.symm, h.next.symm, h.now.symm, h.log.symm, h.sess.symm,
    fun s hs => (h.sessConns s hs).symm, fun ac => (h.closed ac).symm, fun ac => (h.out ac).symm⟩
  trans h h' := ⟨h.st.trans h'.st, h.agents.trans h'.agents, h.pend.trans h'.pend, h.next.trans h'.next,
    h.now.trans h'.now, h.log.trans h'.log, h.sess.trans h'.sess,
    fun s hs => (h.sessConns s hs).trans (h'.sessConns s hs),
    fun ac => (h.closed ac).trans (h'.closed ac),
    fun ac => (h.out ac).trans (h'.out ac)⟩

theorem alikeRuns_equivalence : Equivalence (AlikeRuns slow typed) where
  refl _     := ⟨alike_equivalence.refl _, fun _ => rfl⟩
  symm h     := ⟨alike_equivalence.symm h.left, fun t => (h.right t).symm⟩
  trans h h' := ⟨alike_equivalence.trans h.left h'.left, fun t => (h.right t).trans (h'.right t)⟩

namespace Op

@[simp]
theorem others_nil : others slow typed [] = [] :=
  rfl

theorem others_cons : others slow typed (op :: ops) =
    if op.own slow typed then others slow typed ops else op :: others slow typed ops := by
  cases h : op.own slow typed <;> simp [others, h]

theorem others_append {ops' : List Op} :
    others slow typed (ops ++ ops') = others slow typed ops ++ others slow typed ops' :=
  List.filter_append ..

theorem others_of_own (h : ∀ o ∈ ops, o.own slow typed) : others slow typed ops = [] :=
  List.filter_eq_nil_iff.mpr fun o ho => by simp [h o ho]

theorem others_closes {l : List Session} {final : Option Msg} :
    others slow typed (l.map (.closeSess · final)) =
      (l.filter fun s => !decide (s = slow)).map (.closeSess · final) := by
  simp [others, List.filter_map, Function.comp_def, own]

end Op

namespace Alike

-- What is found in the map, but for the session itself.
theorem get?_sess (h : Alike slow typed σ₁ σ₂) {sid : String} (hs : s ≠ slow) :
    σ₁.sess.get? sid = some s ↔ σ₂.sess.get? sid = some s := by
  have found {m : GoMap String Session} :
      (m.deleteWhere fun _ s => s = slow).get? sid = some s ↔ m.get? sid = some s := by
    simp [hs]
  rw [← found, h.sess, found]

theorem victims (h : Alike slow typed σ₁ σ₂) (mid : String) :
    (σ₁.victims mid).filter (fun s => !decide (s = slow)) =
      (σ₂.victims mid).filter fun s => !decide (s = slow) := by
  have visited {m : GoMap String Session} : (m.deleteWhere fun _ s => s = slow).valuesWhere
      (fun _ s => s.mid = mid) =
        (m.valuesWhere fun _ s => s.mid = mid).filter fun s => !decide (s = slow) :=
    GoMap.valuesWhere_deleteWhere
  exact visited.symm.trans ((congrArg (GoMap.valuesWhere · _) h.sess).trans visited)

-- What the sections do to the map of sessions and to the connections.

theorem evict (h : Alike slow typed σ₁ σ₂) (mid : String) :
    Alike slow typed (σ₁.evict mid) (σ₂.evict mid) :=
  { h with
    sess := by
      simp only [State.evict]
      rw [GoMap.deleteWhere_comm, h.sess, GoMap.deleteWhere_comm] }

theorem delete (h : Alike slow typed σ₁ σ₂) (sid : String) :
    Alike slow typed { σ₁ with sess := σ₁.sess.delete sid } { σ₂ with sess := σ₂.sess.delete sid } :=
  { h with sess := by simp only [GoMap.deleteWhere_delete, h.sess] }

theorem delete_own {sid : String} (hs : σ.sess.get? sid = some slow) :
    Alike slow typed σ { σ with sess := σ.sess.delete sid } :=
  { alike_equivalence.refl σ with
    sess := by
      have gone : (σ.sess.deleteWhere fun _ s => s = slow).get? sid = none := by simp [hs]
      rw [GoMap.deleteWhere_delete, GoMap.delete_of_none gone] }

theorem sessConns_own {c : Conn} :
    Alike slow typed σ { σ with sessConns := Function.update σ.sessConns slow c } :=
  { alike_equivalence.refl σ with
    sessConns := fun _ hs => (Function.update_of_ne hs ..).symm }

theorem update_sessConns (h : Alike slow typed σ₁ σ₂) (s : Session) (c : Conn) :
    Alike slow typed { σ₁ with sessConns := Function.update σ₁.sessConns s c }
      { σ₂ with sessConns := Function.update σ₂.sessConns s c } :=
  { h with
    sessConns := fun s' hs => by
      simp only [Function.update_apply]
      split
      case isTrue  => rfl
      case isFalse => exact h.sessConns s' hs }

theorem update_agentConns (h : Alike slow typed σ₁ σ₂) (ac : AgentConn) (conn₁ conn₂ : Conn)
    (closed : conn₁.closed = conn₂.closed)
    (out : conn₁.out.filter (!slow.own typed ·) = conn₂.out.filter (!slow.own typed ·)) :
    Alike slow typed { σ₁ with agentConns := Function.update σ₁.agentConns ac conn₁ }
      { σ₂ with agentConns := Function.update σ₂.agentConns ac conn₂ } := by
  refine { h with closed := fun a => ?_, out := fun a => ?_ }
  all_goals
    simp only [Function.update_apply]
    split
  case refine_1.isTrue  => exact closed
  case refine_1.isFalse => exact h.closed a
  case refine_2.isTrue  => exact out
  case refine_2.isFalse => exact h.out a

theorem agentConns_own {conn : Conn} (closed : (σ.agentConns ac).closed = conn.closed)
    (out : (σ.agentConns ac).out.filter (!slow.own typed ·) = conn.out.filter (!slow.own typed ·)) :
    Alike slow typed σ { σ with agentConns := Function.update σ.agentConns ac conn } := by
  have same : Alike slow typed σ σ := alike_equivalence.refl σ
  simpa using same.update_agentConns ac (σ.agentConns ac) conn closed out

-- A frame of the session is no difference, and another one is enqueued in both runs or in neither.

theorem sendAgent_own (hm : slow.own typed m) : Alike slow typed σ (σ.sendAgent ac m) := by
  have same : ((σ.agentConns ac).send m).1.out.filter (!slow.own typed ·) =
      (σ.agentConns ac).out.filter (!slow.own typed ·) := by
    unfold Conn.send
    split <;> simp [hm]
  exact agentConns_own Conn.send_closed.symm same.symm

theorem send (h : Alike slow typed σ₁ σ₂)
    (room : (σ₁.agentConns ac).full = (σ₂.agentConns ac).full) :
    ((σ₁.agentConns ac).send m).2 = ((σ₂.agentConns ac).send m).2 := by
  simp only [Conn.send, h.closed ac, room]
  split <;> rfl

theorem sendAgent (h : Alike slow typed σ₁ σ₂)
    (room : (σ₁.agentConns ac).full = (σ₂.agentConns ac).full) :
    Alike slow typed (σ₁.sendAgent ac m) (σ₂.sendAgent ac m) := by
  refine h.update_agentConns ac _ _ ?_ ?_
  case refine_1 => simp [h.closed ac]
  case refine_2 =>
    simp only [Conn.send, h.closed ac, room]
    split
    case isTrue  => exact h.out ac
    case isFalse => simp [h.out ac]

end Alike

-- A section of the session's own.
theorem Alike.own (hop : op.own slow typed) (e : exec sha256 σ op i = some (σ', ops)) :
    Alike slow typed σ σ' := by
  cases op <;> simp only [Op.own, Bool.false_eq_true, decide_eq_true_eq, Bool.and_eq_true] at hop
  case closeSess => subst hop; cases e; exact sessConns_own
  case sendAgent => cases e; exact sendAgent_own hop
  case sendBrowser => subst hop; cases e; exact sessConns_own
  case relay => cases e; exact sendAgent_own hop.right
  case readTerm => cases i <;> cases e <;> exact alike_equivalence.refl _
  case endSession s final notify =>
    subst hop
    cases e
    split
    case isTrue h => exact delete_own h
    case isFalse  => exact alike_equivalence.refl _

-- Where the two maps differ, only the session is found in either.
theorem Alike.sess_cases (h : Alike slow typed σ₁ σ₂) (sid : String) :
    σ₁.sess.get? sid = σ₂.sess.get? sid ∨
    ((∀ s, σ₁.sess.get? sid = some s → s = slow) ∧ ∀ s, σ₂.sess.get? sid = some s → s = slow) := by
  by_cases other : ∃ s, s ≠ slow ∧ σ₁.sess.get? sid = some s
  case pos =>
    have ⟨s, hs, found⟩ := other
    exact .inl (found.trans ((h.get?_sess hs).mp found).symm)
  case neg =>
    refine .inr ⟨fun s found => ?_, fun s found => ?_⟩
    case refine_1 => exact not_not.mp fun hs => other ⟨s, hs, found⟩
    case refine_2 => exact not_not.mp fun hs => other ⟨s, hs, (h.get?_sess hs).mpr found⟩

-- What a frame does when only the session could be found under its sid.

theorem toBrowser_own {sid : String} (only : ∀ s, σ.sess.get? sid = some s → s = slow)
    (e : exec sha256 σ (.toBrowser ac sid m) i = some (σ', ops)) :
    Alike slow typed σ σ' ∧ Op.others slow typed ops = [] := by
  simp only [exec] at e
  split at e <;> cases e
  case h_1 => exact ⟨alike_equivalence.refl _, rfl⟩
  case h_2 s hs =>
    refine ⟨alike_equivalence.refl _, Op.others_of_own ?_⟩
    split <;> simp [Op.own, only s hs]

theorem ended_own (only : ∀ s, σ.sess.get? m.sid = some s → s = slow)
    (e : exec sha256 σ (.ended ac m) i = some (σ', ops)) :
    Alike slow typed σ σ' ∧ Op.others slow typed ops = [] := by
  simp only [exec] at e
  split at e
  case h_1 => cases e; exact ⟨alike_equivalence.refl _, rfl⟩
  case h_2 s hs =>
    have hs : σ.sess.get? m.sid = some slow := only s hs ▸ hs
    split at e
    case isTrue =>
      cases e
      exact ⟨.delete_own hs, Op.others_of_own (by simp [Op.own, only s ‹_›])⟩
    case isFalse => cases e; exact ⟨alike_equivalence.refl _, rfl⟩

theorem endSession_own {final : Option Msg} {notify : Bool}
    (e : exec sha256 σ (.endSession slow final notify) i = some (σ', ops)) :
    Op.others slow typed ops = [] := by
  cases e
  refine Op.others_of_own (List.forall_mem_cons.mpr ⟨by simp [Op.own], fun o ho => ?_⟩)
  have ⟨_, _, close⟩ := mem_notify ho
  simp [close, Op.own, Session.own]

theorem Alike.exec (h : Alike slow typed σ₁ σ₂)
    (room : ∀ ac, op.own slow typed = false → op.sendsTo = some ac →
      (σ₁.agentConns ac).full = (σ₂.agentConns ac).full)
    (e₁ : exec sha256 σ₁ op i = some (σ₁', ops₁)) (e₂ : exec sha256 σ₂ op i = some (σ₂', ops₂)) :
    Alike slow typed σ₁' σ₂' ∧ Op.others slow typed ops₁ = Op.others slow typed ops₂ := by
  have within (h₁ : Alike slow typed σ₁ σ₁') (h₂ : Alike slow typed σ₂ σ₂') :
      Alike slow typed σ₁' σ₂' :=
    alike_equivalence.trans (alike_equivalence.symm h₁) (alike_equivalence.trans h h₂)
  have own (hop : op.own slow typed) : Alike slow typed σ₁' σ₂' := within (.own hop e₁) (.own hop e₂)
  cases op
  case toBrowser ac sid m =>
    rcases h.sess_cases sid with same | ⟨only₁, only₂⟩
    case inr =>
      obtain ⟨h₁, none₁⟩ : Alike slow typed σ₁ σ₁' ∧ _ := toBrowser_own only₁ e₁
      obtain ⟨h₂, none₂⟩ : Alike slow typed σ₂ σ₂' ∧ _ := toBrowser_own only₂ e₂
      exact ⟨within h₁ h₂, none₁.trans none₂.symm⟩
    case inl =>
      simp only [Broker.exec, ← same] at e₁ e₂
      cases hs : σ₁.sess.get? sid <;> simp only [hs] at e₁ e₂ <;> cases e₁ <;> cases e₂ <;> exact ⟨h, rfl⟩
  case ended ac f =>
    rcases h.sess_cases f.sid with same | ⟨only₁, only₂⟩
    case inr =>
      obtain ⟨h₁, none₁⟩ : Alike slow typed σ₁ σ₁' ∧ _ := ended_own only₁ e₁
      obtain ⟨h₂, none₂⟩ : Alike slow typed σ₂ σ₂' ∧ _ := ended_own only₂ e₂
      exact ⟨within h₁ h₂, none₁.trans none₂.symm⟩
    case inl =>
      simp only [Broker.exec, ← same] at e₁ e₂
      cases hs : σ₁.sess.get? f.sid <;> simp only [hs] at e₁ e₂
      case none => cases e₁; cases e₂; exact ⟨h, rfl⟩
      case some s =>
        by_cases hm : s.mid = ac.mid <;> simp only [hm, if_true, if_false] at e₁ e₂ <;> cases e₁ <;>
          cases e₂
        case pos => exact ⟨h.delete f.sid, rfl⟩
        case neg => exact ⟨h, rfl⟩
  case endSession s final notify =>
    by_cases hs : s = slow
    case pos =>
      subst hs
      exact ⟨own (by simp [Op.own]), (endSession_own e₁).trans (endSession_own e₂).symm⟩
    case neg =>
      simp only [Broker.exec, ← h.agents, ← h.get?_sess hs] at e₁ e₂
      cases e₁; cases e₂
      refine ⟨?_, rfl⟩
      split
      case isTrue  => exact { h.delete s.sid with agents := rfl }
      case isFalse => exact h
  case sendBrowser s m =>
    by_cases hs : s = slow
    case pos =>
      refine ⟨own (by simp [Op.own, hs]), ?_⟩
      cases e₁; cases e₂
      rw [Op.others_of_own, Op.others_of_own]
      all_goals split <;> simp [Op.own, hs]
    case neg =>
      cases e₁; cases e₂
      simp only [State.sendBrowser, h.sessConns s hs]
      exact ⟨h.update_sessConns s _, trivial⟩
  case closeSess s final =>
    by_cases hs : s = slow
    case pos => exact ⟨own (by simp [Op.own, hs]), by cases e₁; cases e₂; rfl⟩
    case neg =>
      cases e₁; cases e₂
      simp only [State.closeSess, h.sessConns s hs]
      exact ⟨h.update_sessConns s _, trivial⟩
  case sendAgent ac m =>
    cases hop : slow.own typed m
    case true  => exact ⟨own hop, by cases e₁; cases e₂; rfl⟩
    case false => cases e₁; cases e₂; exact ⟨h.sendAgent (room ac hop rfl), rfl⟩
  case relay s ac m =>
    cases hop : (Op.relay s ac m).own slow typed
    case true  => exact ⟨own hop, by cases e₁; cases e₂; rfl⟩
    case false => cases e₁; cases e₂; exact ⟨h.sendAgent (room ac hop rfl), rfl⟩
  case sendOpen s ac cmd =>
    cases ac
    case none => cases e₁; cases e₂; exact ⟨h, rfl⟩
    case some ac =>
      have room := room ac rfl rfl
      simp only [Broker.exec, h.send room] at e₁ e₂
      split at e₁
      case isTrue sent =>
        simp only [sent, if_true] at e₂
        cases e₁; cases e₂
        exact ⟨{ h.sendAgent room with log := congrArg (_ :: ·) h.log }, rfl⟩
      case isFalse sent =>
        simp only [sent] at e₂
        cases e₁; cases e₂
        exact ⟨h, rfl⟩
  case attach sid p ac =>
    simp only [Broker.exec, State.newSession, ← h.next] at e₁ e₂
    cases e₁; cases e₂
    refine ⟨?_, rfl⟩
    exact { h.update_sessConns _ _ with
      next := rfl
      log  := congrArg (_ :: ·) h.log
      sess := by
        simp only [State.record, GoMap.deleteWhere_set, h.sess] }
  case dropAgent ac why =>
    simp only [Broker.exec, ← h.agents] at e₁ e₂
    split at e₁
    case isTrue registered =>
      simp only [registered, if_true] at e₂
      cases e₁; cases e₂
      refine ⟨{ h.evict ac.mid with agents := rfl }, ?_⟩
      simp only [Op.others_cons, Op.others_closes, h.victims ac.mid]
    case isFalse registered =>
      simp only [registered, if_false] at e₂
      cases e₁; cases e₂
      exact ⟨h, rfl⟩
  case register mid =>
    simp only [Broker.exec, State.newAgent, ← h.agents, ← h.next] at e₁ e₂
    have registered := h.update_agentConns ⟨σ₁.next, mid⟩ {} {} rfl rfl
    cases hm : σ₁.agents.get? mid <;> simp only [hm] at e₁ e₂ <;> cases e₁ <;> cases e₂
    case none => exact ⟨{ registered with agents := rfl, next := rfl }, rfl⟩
    case some old =>
      refine ⟨{ registered.evict mid with agents := rfl, next := rfl }, ?_⟩
      simp only [Op.others_append, Op.others_cons, Op.others_closes, h.victims mid]
  case closeAgent ac =>
    cases e₁; cases e₂
    exact ⟨h.update_agentConns ac _ _ (by simp) (by simp [h.out]), rfl⟩
  case readAgent ac =>
    cases i <;> cases e₁ <;> cases e₂
    case frame         => exact ⟨{ h with log := congrArg (_ :: ·) h.log }, rfl⟩
    case done | failed => exact ⟨h, rfl⟩
  case upgrade | readTerm => cases i <;> cases e₁ <;> cases e₂ <;> exact ⟨h, rfl⟩
  case consume sid k =>
    have same : valid sha256 σ₂ sid k = valid sha256 σ₁ sid k := by simp only [valid, h.pend, h.now]
    simp only [Broker.exec, same, ← h.agents, ← h.now, ← h.pend] at e₁ e₂
    cases hv : valid sha256 σ₁ sid k <;> simp only [hv] at e₁ e₂ <;> cases e₁ <;> cases e₂
    case none => exact ⟨{ h with log := congrArg (_ :: ·) h.log }, rfl⟩
    case some =>
      exact ⟨{ h with log := congrArg (_ :: ·) h.log, pend := rfl, agents := rfl, now := rfl }, rfl⟩
  case byToken hello =>
    simp only [Broker.exec, ← h.st] at e₁ e₂
    cases hm : σ₁.st.byToken hello.token <;> simp only [hm] at e₁ e₂ <;> cases e₁ <;> cases e₂ <;>
      exact ⟨h, rfl⟩
  case touch => cases e₁; cases e₂; exact ⟨{ h with st := by simp only [h.st, h.now] }, rfl⟩
  case mint m saved =>
    cases saved <;> cases e₁ <;> cases e₂
    case true  => exact ⟨{ h with st := congrArg (·.insert m) h.st, log := congrArg (_ :: ·) h.log }, rfl⟩
    case false => exact ⟨{ h with st := congrArg (fun st => (st.insert m).erase m.id) h.st }, rfl⟩
  case byID id _ _ _ =>
    simp only [Broker.exec, ← h.st] at e₁ e₂
    cases hm : σ₁.st.byID id <;> simp only [hm] at e₁ e₂ <;> cases e₁ <;> cases e₂ <;> exact ⟨h, rfl⟩
  case mintKey id cmd sid key =>
    simp only [Broker.exec, ← h.now, ← h.pend] at e₁ e₂
    cases e₁; cases e₂
    exact ⟨{ h with pend := rfl, now := rfl, log := congrArg (_ :: ·) h.log }, rfl⟩
  case delete id =>
    simp only [Broker.exec, ← h.st] at e₁ e₂
    cases hm : σ₁.st.get? id <;> simp only [hm] at e₁ e₂ <;> cases e₁ <;> cases e₂
    case none => exact ⟨h, rfl⟩
    case some => exact ⟨{ h with st := rfl }, rfl⟩
  case revoke id =>
    simp only [Broker.exec, ← h.agents] at e₁ e₂
    cases hm : σ₁.agents.get? id <;> simp only [hm] at e₁ e₂ <;> cases e₁ <;> cases e₂ <;> exact ⟨h, rfl⟩
  case respond => cases e₁; cases e₂; exact ⟨{ h with log := congrArg (_ :: ·) h.log }, rfl⟩
  case sweepAt => cases e₁; cases e₂; exact ⟨{ h with pend := by simp only [h.pend] }, rfl⟩

theorem Alike.start (h : Alike slow typed σ₁ σ₂) (e₁ : start σ₁ r = some (σ₁', ops₁))
    (e₂ : Broker.start σ₂ r = some (σ₂', ops₂)) : Alike slow typed σ₁' σ₂' ∧ ops₁ = ops₂ := by
  cases r <;> cases e₁ <;> cases e₂
  case sweep => exact ⟨h, by rw [h.now]⟩
  case tick d => exact ⟨{ h with now := congrArg (· + d) h.now }, rfl⟩
  case drainAgent ac => exact ⟨h.update_agentConns ac _ _ (by simp [h.closed]) (by simp [h.out]), rfl⟩
  case drainSess s =>
    refine ⟨{ h with sessConns := fun s' hs => ?_ }, rfl⟩
    simp only [Function.update_apply]
    split
    case isTrue he => rw [h.sessConns s (he ▸ hs)]
    case isFalse   => exact h.sessConns s' hs
  all_goals exact ⟨h, rfl⟩

theorem AlikeRuns.both {l : Label Req Input} {c₁' c₂' : Config State Op}
    (h : AlikeRuns slow typed c₁ c₂) (together : Together c₁ c₂ l) (room : SameRoom slow typed c₁ c₂ l)
    (e₁ : (program sha256).system.step c₁ l = some c₁')
    (e₂ : (program sha256).system.step c₂ l = some c₂') : AlikeRuns slow typed c₁' c₂' := by
  obtain ⟨h, procs⟩ := h
  replace e₁ := Step.of e₁
  replace e₂ := Step.of e₂
  cases e₁
  case start e₁ =>
    cases e₂
    case start e₂ =>
      obtain ⟨h, rfl⟩ := h.start e₁ e₂
      refine ⟨h, fun t => ?_⟩
      simp only [Config.resume_procs]
      split
      case isTrue  => rfl
      case isFalse => exact procs t
  case step t i op rest₁ σ₁' ops₁ head₁ e₁ =>
    obtain ⟨op, _, _, h₁, h₂⟩ := together
    cases head₁.symm.trans h₁
    cases e₂
    case step rest₂ σ₂' ops₂ head₂ e₂ =>
      cases head₂.symm.trans h₂
      have ⟨h, ops⟩ := h.exec (fun ac hop hs => room rfl head₁ hop hs) e₁ e₂
      refine ⟨h, fun t' => ?_⟩
      simp only [Config.resume_procs]
      split
      case isFalse => exact procs t'
      case isTrue =>
        have rest := procs t
        rw [head₁, head₂, Op.others_cons, Op.others_cons] at rest
        rw [Op.others_append, Op.others_append, ops]
        split at rest
        case isTrue  => rw [rest]
        case isFalse => rw [(List.cons.inj rest).right]

theorem AlikeRuns.alone {l : Label Req Input} (hs : OwnStep sha256 slow typed c l)
    (e : (program sha256).system.step c l = some c') : AlikeRuns slow typed c c' := by
  replace e := Step.of e
  cases e
  case start t r σ' ops idle e =>
    have drained : Alike slow typed c.shared σ' ∧ ops = [] := by
      rcases hs with rfl | ⟨ac, rfl⟩ <;> cases e
      case inl => exact ⟨.sessConns_own, rfl⟩
      case inr => exact ⟨.agentConns_own (by simp) (by simp), rfl⟩
    obtain ⟨h, rfl⟩ := drained
    refine ⟨h, fun t' => ?_⟩
    rw [Config.resume_procs]
    split
    case isTrue ht => rw [ht, idle]
    case isFalse   => rfl
  case step t i op rest σ' ops head e =>
    obtain ⟨op, _, _, _, head', hop, e', own⟩ := hs
    cases head.symm.trans head'
    cases e.symm.trans e'
    refine ⟨.own hop e, fun t' => ?_⟩
    rw [Config.resume_procs]
    split
    case isFalse   => rfl
    case isTrue ht =>
      rw [ht, head, Op.others_cons, if_pos hop, Op.others_append, Op.others_of_own own]
      rfl

-- No section of `toBrowser` waits, in whatever state it runs.
theorem exec_prompt (h : 0 < op.cost) (σ : State) (i : Input) :
    ∃ σ' ops, exec sha256 σ op i = some (σ', ops) ∧ (ops.map Op.cost).sum < op.cost ∧
      ∀ o ∈ ops, 0 < o.cost := by
  cases op <;> try contradiction
  case closeSess => exact ⟨_, [], rfl, Nat.zero_lt_one, by simp⟩
  case sendAgent => exact ⟨_, [], rfl, Nat.zero_lt_one, by simp⟩
  case sendBrowser s m =>
    refine ⟨_, _, rfl, ?_⟩
    split <;> simp [Op.cost]
  case toBrowser ac sid m =>
    simp only [exec]
    split
    case h_1 => exact ⟨_, _, rfl, by simp [Op.cost]⟩
    case h_2 =>
      refine ⟨_, _, rfl, ?_⟩
      split <;> simp [Op.cost]
  case endSession s final notify =>
    refine ⟨_, _, rfl, ?_⟩
    cases σ.agents.get? s.mid <;> cases notify <;> simp [Op.cost]

theorem prompt_run {n : Nat} (hn : (ops.map Op.cost).sum ≤ n) (hops : ∀ o ∈ ops, 0 < o.cost)
    (hp : c.procs t = ops ++ rest) :
    ∃ k ≤ n, ∃ c', (program sha256).system.run c (List.replicate k (.step t .done)) = some c' ∧
      c'.procs t = rest := by
  induction n generalizing c ops
  case zero =>
    cases ops
    case nil => exact ⟨0, Nat.le_refl 0, c, rfl, hp⟩
    case cons op ops =>
      have cost := hops op List.mem_cons_self
      simp only [List.map_cons, List.sum_cons] at hn
      omega
  case succ n hi =>
    cases ops
    case nil => exact ⟨0, Nat.zero_le _, c, rfl, hp⟩
    case cons op ops =>
      obtain ⟨hop, hops⟩ := List.forall_mem_cons.mp hops
      obtain ⟨σ', called, e, cost, hcalled⟩ := @exec_prompt sha256 _ hop c.shared .done
      have step : (program sha256).system.step c (.step t .done) =
          some (c.resume t σ' (called ++ (ops ++ rest))) := by
        have head : c.procs t = op :: (ops ++ rest) := hp
        simp [system, Program.step, head, program, e]
      have less : ((called ++ ops).map Op.cost).sum ≤ n := by
        simp only [List.map_cons, List.sum_cons] at hn
        simp only [List.map_append, List.sum_append]
        omega
      obtain ⟨k, hk, c', run, done⟩ := hi (c := c.resume t σ' (called ++ (ops ++ rest))) less
        (List.forall_mem_append.mpr ⟨hcalled, hops⟩) (by simp)
      exact ⟨k + 1, Nat.succ_le_succ hk, c', Transition.run_cons_eq_some.mpr ⟨_, step, run⟩, done⟩

-- When a frame that is not the slow session's own finds the queue of an agent full in both runs or in
-- neither, two runs that differ in how fast the slow browser is served agree on all but its session. Every
-- other browser is sent the same, and `toBrowser` is done after at most five sections, none of which waits.
theorem slow_browser_alone
    (h : (program sha256).system.TwoRuns
      (fun c₁ c₂ l => Together c₁ c₂ l ∧ SameRoom slow typed c₁ c₂ l) (OwnStep sha256 slow typed) c₁ c₂) :
    (∀ s ≠ slow, (c₁.shared.sessConns s).out = (c₂.shared.sessConns s).out) ∧
    AlikeRuns slow typed c₁ c₂ ∧
    ∀ c t ac sid m rest, c.procs t = .toBrowser ac sid m :: rest →
      ∃ n ≤ 5, ∃ c', (program sha256).system.run c (List.replicate n (.step t .done)) = some c' ∧
        c'.procs t = rest := by
  have alike : AlikeRuns slow typed c₁ c₂ := h.unwinding alikeRuns_equivalence
    (fun _ _ _ _ _ h hb e₁ e₂ => h.both hb.left hb.right e₁ e₂) (fun _ _ _ hs e => .alone hs e)
  refine ⟨fun s hs => congrArg Conn.out (alike.left.sessConns s hs), alike, ?_⟩
  intro c t ac sid m rest hp
  have cost : ([Op.toBrowser ac sid m].map Op.cost).sum ≤ 5 := Nat.le_refl 5
  exact prompt_run cost (by simp [Op.cost]) hp

-- The browsers of the sessions a0 and b0 of machine 5c.
def sampleShared : List (Label Req Input) :=
  sampleOpened ++ [.start 0 (.apiTerm "5c" "" "b0" ""), .step 0 .done, .step 0 .done,
    .start 3 (.wsTerm "b0" ""), .step 3 .done, .step 3 .done, .step 3 .done, .step 3 .done]

-- The frames on the queue of the agent, which does not read, after b0 has typed `n` times.
def samplePending (n : Nat) : List Msg :=
  { t := "hello_ok", id := "5c" } :: { t := "open", sid := "a0" } :: { t := "open", sid := "b0" } ::
    List.replicate n { t := "in", sid := "b0", data := "eA==" }

theorem samplePending_length {n : Nat} : (samplePending n).length = n + 3 := by
  simp [samplePending]

-- The state then, when `out` was sent to a0, and its browser has taken `taken` frames of that.
structure Flowing (n : Nat) (out : List Msg) (taken : Nat) (c : Config State Op) : Prop where
  idle   : c.procs 0 = []
  agent  : c.procs 1 = [.readAgent ⟨0, "5c"⟩]
  term   : c.procs 3 = [.readTerm ⟨2, "b0", "5c"⟩ ⟨0, "5c"⟩]
  conn   : c.shared.agentConns ⟨0, "5c"⟩ = { out := samplePending n }
  sess   : c.shared.sess.get? "a0" = some ⟨1, "a0", "5c"⟩
  agents : c.shared.agents.get? "5c" = some ⟨0, "5c"⟩
  slow   : c.shared.sessConns ⟨1, "a0", "5c"⟩ = { out, taken }
  other  : c.shared.sess.get? "b0" = some ⟨2, "b0", "5c"⟩
  quiet  : c.shared.sessConns ⟨2, "b0", "5c"⟩ = {}

theorem exists_flowing : ∃ c, (program sampleSum).system.Reachable c ∧ Flowing 0 [] 0 c := by
  have ran : ((program sampleSum).system.run initial sampleShared).isSome := by decide
  obtain ⟨c, e⟩ := Option.isSome_iff_exists.mp ran
  exact ⟨c, .run (.init (initial_init sampleSum)) e, {
    idle   := Transition.eq_of_run (f := (·.procs 0)) e (by decide)
    agent  := Transition.eq_of_run (f := (·.procs 1)) e (by decide)
    term   := Transition.eq_of_run (f := (·.procs 3)) e (by decide)
    conn   := Transition.eq_of_run (f := (·.shared.agentConns ⟨0, "5c"⟩)) e (by decide)
    sess   := Transition.eq_of_run (f := (·.shared.sess.get? "a0")) e (by decide)
    agents := Transition.eq_of_run (f := (·.shared.agents.get? "5c")) e (by decide)
    slow   := Transition.eq_of_run (f := (·.shared.sessConns ⟨1, "a0", "5c"⟩)) e (by decide)
    other  := Transition.eq_of_run (f := (·.shared.sess.get? "b0")) e (by decide)
    quiet  := Transition.eq_of_run (f := (·.shared.sessConns ⟨2, "b0", "5c"⟩)) e (by decide)
  }⟩

theorem Flowing.round {n : Nat} (h : Flowing n [] 0 c) (hn : n < queueLen - 4) :
    ∃ c', (program sampleSum).system.run c [
        .step 3 (.frame { t := "in", data := "eA==" }), .step 3 .done] = some c' ∧
      Flowing (n + 1) [] 0 c' := by
  have room : ¬queueLen ≤ n + 1 + 1 + 1 := by omega
  have run : ∃ c', (program sampleSum).system.run c [
        .step 3 (.frame { t := "in", data := "eA==" }), .step 3 .done] = some c' ∧
      (∀ t ≠ 3, c'.procs t = c.procs t) ∧ c'.procs 3 = [.readTerm ⟨2, "b0", "5c"⟩ ⟨0, "5c"⟩] ∧
      c'.shared = c.shared.sendAgent ⟨0, "5c"⟩ { t := "in", sid := "b0", data := "eA==" } := by
    simp +contextual [Transition.run, system, Program.step, program, exec, handleTerm, h.term]
  obtain ⟨c', e, others, term, shared⟩ := run
  refine ⟨c', e, (others 0 (by simp)).trans h.idle, (others 1 (by simp)).trans h.agent, term, ?_,
    shared ▸ h.sess, shared ▸ h.agents, shared ▸ h.slow, shared ▸ h.other, shared ▸ h.quiet⟩
  simp [shared, State.sendAgent, h.conn, Conn.send, Conn.full, samplePending, room, List.replicate_succ']

def sampleOut : Msg :=
  { t := "out", sid := "a0", data := "eA==" }

def sampleSent : Msg :=
  { t := "out", data := "eA==" }

def sampleSlow : Session := ⟨1, "a0", "5c"⟩

-- The agent was read and its frame routed to the slow browser.
def sampleRouted (c : Config State Op) : Config State Op :=
  c.resume 1 (c.shared.record (.read ⟨0, "5c"⟩ sampleOut))
    [.sendBrowser sampleSlow sampleSent, .readAgent ⟨0, "5c"⟩]

abbrev Race : Config State Op → Config State Op → Prop :=
  (program sampleSum).system.TwoRuns
    (fun c₁ c₂ l => Together c₁ c₂ l ∧ SameRoom sampleSlow (fun _ => false) c₁ c₂ l)
    (OwnStep sampleSum sampleSlow fun _ => false)

section Race

variable {n : Nat} {out₁ out₂ : List Msg} {k k₁ k₂ : Nat}

theorem step_both {Both : Config State Op → Config State Op → Label Req Input → Prop}
    (h : (program sampleSum).system.TwoRuns Both (OwnStep sampleSum sampleSlow fun _ => false) c₁ c₂)
    (both : Both c₁ c₂ (.step t i)) (h₁ : c₁.procs t = op :: rest₁) (h₂ : c₂.procs t = op :: rest₂)
    (e₁ : exec sampleSum c₁.shared op i = some (σ₁, ops₁))
    (e₂ : exec sampleSum c₂.shared op i = some (σ₂, ops₂)) :
    (program sampleSum).system.TwoRuns Both (OwnStep sampleSum sampleSlow fun _ => false)
      (c₁.resume t σ₁ (ops₁ ++ rest₁)) (c₂.resume t σ₂ (ops₂ ++ rest₂)) := by
  refine .both h both ?_ ?_
  case refine_1 => simp [system, Program.step, program, h₁, e₁]
  case refine_2 => simp [system, Program.step, program, h₂, e₂]

-- One run twice.
theorem Race.same (reachable : (program sampleSum).system.Reachable c) : Race c c := by
  refine Transition.TwoRuns.same reachable fun c l c' e => ⟨?_, fun _ _ _ _ => rfl⟩
  replace e := Step.of e
  cases e
  case start       => trivial
  case step head _ => exact ⟨_, _, _, head, head⟩

theorem Race.step (h : Race c₁ c₂) (h₁ : c₁.procs t = op :: rest₁) (h₂ : c₂.procs t = op :: rest₂)
    (quiet : op.sendsTo = none) (e₁ : exec sampleSum c₁.shared op i = some (σ₁, ops₁))
    (e₂ : exec sampleSum c₂.shared op i = some (σ₂, ops₂)) :
    Race (c₁.resume t σ₁ (ops₁ ++ rest₁)) (c₂.resume t σ₂ (ops₂ ++ rest₂)) := by
  have room : SameRoom sampleSlow (fun _ => false) c₁ c₂ (.step t i) := by
    intro _ _ _ _ _ hl head _ sends
    cases hl
    cases h₁.symm.trans head
    cases quiet.symm.trans sends
  exact step_both h ⟨⟨op, rest₁, rest₂, h₁, h₂⟩, room⟩ h₁ h₂ e₁ e₂

theorem Race.routed (h : Race c₁ c₂) (h₁ : Flowing n out₁ k₁ c₁) (h₂ : Flowing n out₂ k₂ c₂) :
    Race (sampleRouted c₁) (sampleRouted c₂) := by
  have routes {σ : State} (hs : σ.sess.get? "a0" = some sampleSlow) :
      exec sampleSum σ (.toBrowser ⟨0, "5c"⟩ "a0" sampleSent) .done =
        some (σ, [.sendBrowser sampleSlow sampleSent]) := by
    simp [exec, hs, sampleSlow]
  have read := h.step (i := .frame sampleOut) h₁.agent h₂.agent rfl rfl rfl
  have routed := read.step (t := 1) (by simp; rfl) (by simp; rfl) rfl (routes h₁.sess) (routes h₂.sess)
  simpa [Config.resume, sampleRouted] using routed

-- Both runs send the same output to a0.
theorem Race.sent (h : Race c₁ c₂) (hk : k < queueLen)
    (h₁ : Flowing n (List.replicate k sampleSent) k₁ c₁)
    (h₂ : Flowing n (List.replicate k sampleSent) k₂ c₂) :
    ∃ c₁' c₂', Race c₁' c₂' ∧ Flowing n (List.replicate (k + 1) sampleSent) k₁ c₁' ∧
      Flowing n (List.replicate (k + 1) sampleSent) k₂ c₂' := by
  have room {taken : Nat} : ¬queueLen ≤ k - taken := by omega
  have sends {σ : State} {taken : Nat}
      (hc : σ.sessConns sampleSlow = { out := List.replicate k sampleSent, taken }) :
      exec sampleSum σ (.sendBrowser sampleSlow sampleSent) .done =
        some (σ.sendBrowser sampleSlow sampleSent, []) := by
    simp [exec, hc, Conn.send, Conn.full, room]
  have flows {taken : Nat} {c : Config State Op} (h : Flowing n (List.replicate k sampleSent) taken c) :
      Flowing n (List.replicate (k + 1) sampleSent) taken ((sampleRouted c).resume 1
        ((sampleRouted c).shared.sendBrowser sampleSlow sampleSent) [.readAgent ⟨0, "5c"⟩]) := by
    have sent : ((sampleRouted c).shared.sendBrowser sampleSlow sampleSent).sessConns sampleSlow =
        ((c.shared.sessConns sampleSlow).send sampleSent).1 := by
      simp [State.sendBrowser, sampleRouted, State.record]
    have others : ((sampleRouted c).shared.sendBrowser sampleSlow sampleSent).sessConns ⟨2, "b0", "5c"⟩ =
        c.shared.sessConns ⟨2, "b0", "5c"⟩ := by
      simp [State.sendBrowser, sampleRouted, State.record, sampleSlow]
    have slow : c.shared.sessConns sampleSlow = { out := List.replicate k sampleSent, taken } := h.slow
    refine ⟨by simpa [sampleRouted] using h.idle, by simp, by simpa [sampleRouted] using h.term, h.conn,
      h.sess, h.agents, sent.trans ?_, h.other, others.trans h.quiet⟩
    simp [slow, Conn.send, Conn.full, room, List.replicate_succ']
  have routed {c : Config State Op} : (sampleRouted c).procs 1 =
    [.sendBrowser sampleSlow sampleSent, .readAgent ⟨0, "5c"⟩] := by simp [sampleRouted]
  exact ⟨_, _, (h.routed h₁ h₂).step routed routed rfl (sends h₁.slow) (sends h₂.slow), flows h₁,
    flows h₂⟩

-- The browser takes a frame in one of the runs only.
theorem Race.drained (h : Race c₁ c₂) (h₂ : Flowing n out₂ k c₂) (hk : k < out₂.length) :
    ∃ c₂', Race c₁ c₂' ∧ Flowing n out₂ (k + 1) c₂' := by
  let drained := { c₂.shared with
    sessConns := Function.update c₂.shared.sessConns sampleSlow (c₂.shared.sessConns sampleSlow).drain }
  have drain : (program sampleSum).system.step c₂ (.start 0 (.drainSess sampleSlow)) =
      some (c₂.resume 0 drained []) := by
    simp [system, Program.step, program, start, h₂.idle, drained]
  have own : OwnStep sampleSum sampleSlow (fun _ => false) c₂ (.start 0 (.drainSess sampleSlow)) :=
    .inl rfl
  refine ⟨_, .right h own drain, by simp, by simpa using h₂.agent, by simpa using h₂.term, h₂.conn,
    h₂.sess, h₂.agents, ?_, h₂.other, by simpa [drained, sampleSlow] using h₂.quiet⟩
  have slow : drained.sessConns sampleSlow = (c₂.shared.sessConns sampleSlow).drain := by simp [drained]
  have taken : c₂.shared.sessConns sampleSlow = { out := out₂, taken := k } := h₂.slow
  exact slow.trans (by simp [taken, Conn.drain, hk])

theorem Race.full (h : Race c₁ c₂) (h₁ : Flowing n [] 0 c₁) (h₂ : Flowing n [] 0 c₂) :
    ∃ c₁' c₂', Race c₁' c₂' ∧ Flowing n (List.replicate queueLen sampleSent) 0 c₁' ∧
      Flowing n (List.replicate queueLen sampleSent) queueLen c₂' := by
  have rounds (k : Nat) (hk : k ≤ queueLen) : ∃ c₁' c₂', Race c₁' c₂' ∧
      Flowing n (List.replicate k sampleSent) 0 c₁' ∧
      Flowing n (List.replicate k sampleSent) k c₂' := by
    induction k
    case zero => exact ⟨c₁, c₂, h, h₁, h₂⟩
    case succ k hi =>
      have ⟨_, _, h, h₁, h₂⟩ := hi (Nat.le_of_succ_le hk)
      have ⟨c₁', _, h, h₁, h₂⟩ := h.sent hk h₁ h₂
      have ⟨c₂', h, h₂⟩ := h.drained h₂ (by simp)
      exact ⟨c₁', c₂', h, h₁, h₂⟩
  exact rounds queueLen (Nat.le_refl _)

theorem Race.alone (h : Race c₁ c₂) (h₁ : c₁.procs t = op :: rest₁) (hop : op.own sampleSlow fun _ => false)
    (e : exec sampleSum c₁.shared op i = some (σ₁, ops₁))
    (hops : ∀ o ∈ ops₁, o.own sampleSlow fun _ => false) :
    Race (c₁.resume t σ₁ (ops₁ ++ rest₁)) c₂ := by
  have own : OwnStep sampleSum sampleSlow (fun _ => false) c₁ (.step t i) :=
    ⟨op, _, _, _, h₁, hop, e, hops⟩
  exact Transition.TwoRuns.left h own (by simp [system, Program.step, program, h₁, e])

-- The slow browser was sent one frame more than fits on its queue. `sess` is what is left of its session.
structure Overflown (c c' : Config State Op) (sess : Option Session) : Prop where
  agent : c'.procs 1 = [.readAgent ⟨0, "5c"⟩]
  term  : c'.procs 3 = c.procs 3
  sess  : c'.shared.sess.get? "a0" = sess
  other : c'.shared.sess.get? "b0" = some ⟨2, "b0", "5c"⟩
  quiet : c'.shared.sessConns ⟨2, "b0", "5c"⟩ = {}

-- The browser that takes nothing loses its session, and the agent is told.
theorem Race.overflow (h : Race c₁ c₂) (h₁ : Flowing n (List.replicate queueLen sampleSent) 0 c₁)
    (h₂ : Flowing n (List.replicate queueLen sampleSent) queueLen c₂) :
    ∃ c₁' c₂', Race c₁' c₂' ∧ Overflown c₁ c₁' none ∧ Overflown c₂ c₂' (some sampleSlow) ∧
      c₁'.shared.agentConns ⟨0, "5c"⟩ =
        ((c₁.shared.agentConns ⟨0, "5c"⟩).send { t := "close", sid := "a0" }).1 ∧
      c₂'.shared.agentConns ⟨0, "5c"⟩ = c₂.shared.agentConns ⟨0, "5c"⟩ := by
  let final : Option Msg := some { t := "err", msg := "session dropped: browser too slow" }
  let close : Op := .sendAgent ⟨0, "5c"⟩ { t := "close", sid := "a0" }
  have full : exec sampleSum (sampleRouted c₁).shared (.sendBrowser sampleSlow sampleSent) .done =
      some ((sampleRouted c₁).shared.sendBrowser sampleSlow sampleSent,
        [.endSession sampleSlow final true]) := by
    have slow : (sampleRouted c₁).shared.sessConns sampleSlow =
      { out := List.replicate queueLen sampleSent } := h₁.slow
    simp [exec, slow, Conn.send, Conn.full, final]
  have taken : exec sampleSum (sampleRouted c₂).shared (.sendBrowser sampleSlow sampleSent) .done =
      some ((sampleRouted c₂).shared.sendBrowser sampleSlow sampleSent, []) := by
    have slow : (sampleRouted c₂).shared.sessConns sampleSlow =
      { out := List.replicate queueLen sampleSent, taken := queueLen } := h₂.slow
    have room : queueLen ≠ 0 := by decide
    simp [exec, slow, Conn.send, Conn.full, room]
  have ends {σ : State} (hs : σ.sess.get? "a0" = some sampleSlow)
      (ha : σ.agents.get? "5c" = some ⟨0, "5c"⟩) :
      exec sampleSum σ (.endSession sampleSlow final true) .done =
        some ({ σ with sess := σ.sess.delete "a0" }, [.closeSess sampleSlow final, close]) := by
    simp [exec, sampleSlow, hs, ha, close]
  have routed {c : Config State Op} : (sampleRouted c).procs 1 =
    [.sendBrowser sampleSlow sampleSent, .readAgent ⟨0, "5c"⟩] := by simp [sampleRouted]
  have next {c : Config State Op} {σ : State} {ops : List Op} : (c.resume 1 σ ops).procs 1 = ops := by
    simp
  have dropped := (h.routed h₁ h₂).step routed routed rfl full taken
  have ended := dropped.alone next (by decide) (ends h₁.sess h₁.agents) (by decide)
  have closed := ended.alone (i := .done) next (by decide) rfl (by simp)
  have told := closed.alone (i := .done) next (by decide) rfl (by simp)
  refine ⟨_, _, told, ?_, ?_, ?_, rfl⟩
  case refine_1 =>
    refine ⟨by simp, by simp [sampleRouted], ?_, ?_, ?_⟩
    case refine_1 => simp [State.sendAgent, State.closeSess, State.sendBrowser]
    case refine_2 =>
      simpa [State.sendAgent, State.closeSess, State.sendBrowser, sampleRouted, State.record] using h₁.other
    case refine_3 =>
      simpa [State.sendAgent, State.closeSess, State.sendBrowser, sampleRouted, State.record, sampleSlow]
        using h₁.quiet
  case refine_2 =>
    refine ⟨by simp, by simp [sampleRouted], h₂.sess, h₂.other, ?_⟩
    simpa [State.sendBrowser, sampleRouted, State.record, sampleSlow] using h₂.quiet
  case refine_3 => simp [State.sendAgent, State.closeSess, State.sendBrowser, sampleRouted, State.record]

end Race

-- What the agent sends b0 next.
def sampleOther : Msg :=
  { t := "out", sid := "b0", data := "eQ==" }

-- The browser of a0 takes nothing in one of two runs, and loses its session there only. The agent's queue
-- has room, and b0 is sent the same in both.
theorem slow_browser_alone_sample :
    ∃ c₁ c₂ : Config State Op,
      c₁.shared.sess.get? "a0" = none ∧ c₂.shared.sess.get? "a0" = some ⟨1, "a0", "5c"⟩ ∧
      (c₂.shared.sessConns ⟨2, "b0", "5c"⟩).out = [{ t := "out", data := "eQ==" }] ∧
      (c₁.shared.sessConns ⟨2, "b0", "5c"⟩).out = (c₂.shared.sessConns ⟨2, "b0", "5c"⟩).out := by
  obtain ⟨c, reachable, flowing⟩ := exists_flowing
  obtain ⟨c₁, c₂, race, h₁, h₂⟩ := (Race.same reachable).full flowing flowing
  obtain ⟨c₁', c₂', race, left, right, _, _⟩ := race.overflow h₁ h₂
  let b : Session := ⟨2, "b0", "5c"⟩
  let out : Msg := { t := "out", data := "eQ==" }
  have next {c : Config State Op} {σ : State} {ops : List Op} : (c.resume 1 σ ops).procs 1 = ops := by
    simp
  have routes {σ : State} (hs : σ.sess.get? "b0" = some b) :
      exec sampleSum σ (.toBrowser ⟨0, "5c"⟩ "b0" out) .done = some (σ, [.sendBrowser b out]) := by
    simp [exec, hs, b]
  have sends {σ : State} (hc : σ.sessConns b = {}) :
      exec sampleSum σ (.sendBrowser b out) .done = some (σ.sendBrowser b out, []) := by
    have room : queueLen ≠ 0 := by decide
    simp [exec, hc, Conn.send, Conn.full, room]
  have read := race.step (i := .frame sampleOther) left.agent right.agent rfl rfl rfl
  have routed := read.step (i := .done) next next rfl (routes left.other) (routes right.other)
  have sent := routed.step (i := .done) next next rfl (sends left.quiet) (sends right.quiet)
  obtain ⟨others, _⟩ := slow_browser_alone sent
  refine ⟨_, _, ?_, ?_, ?_, others b (by decide)⟩
  case refine_1 => exact left.sess
  case refine_2 => exact right.sess
  have quiet : c₂'.shared.sessConns b = {} := right.quiet
  have room : queueLen ≠ 0 := by decide
  simp [State.sendBrowser, State.record, quiet, Conn.send, Conn.full, room, b, out]

-- What b0 types next.
def sampleKey : Msg :=
  { t := "in", sid := "b0", data := "eQ==" }

-- The browser of a0 takes nothing in one of two runs, and loses its session there. The close for it fills
-- the queue of the agent, so that what the other browser types next is lost in that run only.
theorem slow_browser_harms_other :
    ∃ c₁ c₂, (program sampleSum).system.TwoRuns Together
        (OwnStep sampleSum ⟨1, "a0", "5c"⟩ fun _ => false) c₁ c₂ ∧
      sampleKey ∉ (c₁.shared.agentConns ⟨0, "5c"⟩).out ∧
      sampleKey ∈ (c₂.shared.agentConns ⟨0, "5c"⟩).out ∧
      ¬AlikeRuns ⟨1, "a0", "5c"⟩ (fun _ => false) c₁ c₂ := by
  obtain ⟨c₀, reachable, flowing⟩ := exists_flowing
  obtain ⟨c, e, flowing⟩ := Transition.run_replicate (P := fun n => Flowing n [] 0) flowing
    fun n hn c h => h.round hn
  obtain ⟨c₁, c₂, race, h₁, h₂⟩ := (Race.same (.run reachable e)).full flowing flowing
  obtain ⟨c₁', c₂', race, left, right, conn₁, conn₂⟩ := race.overflow h₁ h₂
  rw [h₁.conn] at conn₁
  rw [h₂.conn] at conn₂
  let b : Session := ⟨2, "b0", "5c"⟩
  have reads {σ : State} : exec sampleSum σ (.readTerm b ⟨0, "5c"⟩) (.frame { t := "in", data := "eQ==" }) =
      some (σ, [.relay b ⟨0, "5c"⟩ sampleKey, .readTerm b ⟨0, "5c"⟩]) := by
    simp [exec, handleTerm, sampleKey, b]
  have read := race.step (left.term.trans h₁.term) (right.term.trans h₂.term) rfl reads reads
  have next {c : Config State Op} {σ : State} {ops : List Op} : (c.resume 3 σ ops).procs 3 = ops := by
    simp
  -- The queue of the agent is full in one of the runs only.
  have typed := step_both (read.mono fun _ _ _ h => h.left)
    (show Together _ _ (.step 3 .done) from ⟨_, _, _, next, next⟩) next next rfl rfl
  have length : (samplePending (queueLen - 4)).length = queueLen - 1 := samplePending_length
  have last : ¬queueLen ≤ queueLen - 1 := by decide
  have none : queueLen ≤ queueLen - 1 + 1 := by decide
  have out₁ : ((c₁'.shared.sendAgent ⟨0, "5c"⟩ sampleKey).agentConns ⟨0, "5c"⟩).out =
      samplePending (queueLen - 4) ++ [{ t := "close", sid := "a0" }] := by
    simp [State.sendAgent, conn₁, Conn.send, Conn.full, length, last, none]
  have out₂ : ((c₂'.shared.sendAgent ⟨0, "5c"⟩ sampleKey).agentConns ⟨0, "5c"⟩).out =
      samplePending (queueLen - 4) ++ [sampleKey] := by
    simp [State.sendAgent, conn₂, Conn.send, Conn.full, length, last]
  have absent : sampleKey ∉ ((c₁'.shared.sendAgent ⟨0, "5c"⟩ sampleKey).agentConns ⟨0, "5c"⟩).out := by
    rw [out₁]
    simp [samplePending, sampleKey]
  have present : sampleKey ∈ ((c₂'.shared.sendAgent ⟨0, "5c"⟩ sampleKey).agentConns ⟨0, "5c"⟩).out := by
    rw [out₂]
    exact List.mem_append_right _ List.mem_cons_self
  refine ⟨_, _, typed, absent, present, fun h => absent ?_⟩
  have others : sampleKey ∈ ((c₂'.shared.sendAgent ⟨0, "5c"⟩ sampleKey).agentConns ⟨0, "5c"⟩).out.filter
      (!Session.own ⟨1, "a0", "5c"⟩ (fun _ => false) ·) :=
    List.mem_filter.mpr ⟨present, by decide⟩
  have alike : ((c₁'.shared.sendAgent ⟨0, "5c"⟩ sampleKey).agentConns ⟨0, "5c"⟩).out.filter
      (!Session.own ⟨1, "a0", "5c"⟩ (fun _ => false) ·) = _ := h.left.out ⟨0, "5c"⟩
  exact List.mem_of_mem_filter (Eq.mpr (congrArg (sampleKey ∈ ·) alike) others)

end Broker
