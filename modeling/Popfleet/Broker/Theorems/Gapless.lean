import Popfleet.Broker.Theorems.Queue
import Popfleet.Broker.Theorems.Sessions

open Proto Store Program

namespace Broker

-- The frame for the browser of a session that an event is the out frame for.
def Event.out (sid : String) : Event → Option Msg
  | .read _ f => if f.t = "out" ∧ f.sid = sid then some { t := "out", data := f.data } else none
  | _         => none

-- What an agent's handler read as output of a session, the oldest first.
def outs (sid : String) (log : List Event) : List Msg :=
  (log.filterMap (·.out sid)).reverse

namespace State

-- The frames read from agents, with the agents.
def reads (σ : State) : List (AgentConn × Msg) :=
  σ.log.filterMap fun | .read ac f => some (ac, f) | _ => none

def outsSince (σ : State) (s : Session) : List Msg :=
  outs s.sid (σ.log.takeWhile (· ≠ .attached s))

def outsBefore (σ : State) (s : Session) : List Msg :=
  outs s.sid (σ.log.dropWhile (· ≠ .attached s))

-- Output of the session is still routed to its browser.
def Alive (σ : State) (s : Session) (ac : AgentConn) : Prop :=
  (σ.sessConns s).closed = false ∧ σ.sess.get? s.sid = some s ∧ s.mid = ac.mid

end State

-- A section that neither reads from the agent nor carries output of the session.
def Op.Quiet (s : Session) (ac : AgentConn) : Op → Prop
  | .readAgent a       => a ≠ ac
  | .toBrowser _ sid _ => sid ≠ s.sid
  | .sendBrowser s' _  => s' ≠ s
  | _                  => True

-- The thread that serves the agent, where `k` is what of the output is on the queue of the browser, and
-- `pre` what was on its way to it when the session was attached.
inductive Serving (σ : State) (s : Session) (ac : AgentConn) (pre k : List Msg) : List Op → Prop
  | reading {ops rest} (hq : ∀ o ∈ ops, o.Quiet s ac) (hr : ∀ o ∈ rest, o.Quiet s ac)
    (h : σ.Alive s ac → k = pre ++ σ.outsSince s) :
    Serving σ s ac pre k (ops ++ .readAgent ac :: rest)
  | routing {m rest} (hr : ∀ o ∈ rest, o.Quiet s ac) (hm : [m] <:+ outs s.sid σ.log)
    (h : σ.Alive s ac → k ++ [m] = pre ++ σ.outsSince s) :
    Serving σ s ac pre k (.toBrowser ac s.sid m :: .readAgent ac :: rest)
  | sending {m rest} (hr : ∀ o ∈ rest, o.Quiet s ac)
    (hk : (σ.sessConns s).closed = false → k ++ [m] <+: pre ++ σ.outsSince s)
    (h : σ.Alive s ac → k ++ [m] = pre ++ σ.outsSince s) :
    Serving σ s ac pre k (.sendBrowser s m :: .readAgent ac :: rest)
  | slow {final rest} (hr : ∀ o ∈ rest, o.Quiet s ac) :
    Serving σ s ac pre k (.endSession s final true :: .readAgent ac :: rest)

-- What is on the queue of a browser.
structure Queued (σ : State) (s : Session) (pre k : List Msg) (final : Option Msg) : Prop where
  out     : (σ.sessConns s).out = k ++ final.toList
  final   : ∀ m ∈ final, (m.t = "err" ∨ m.t = "exit") ∧ (σ.sessConns s).closed
  before  : pre <:+ σ.outsBefore s
  length  : pre.length ≤ 1
  gapless : k <+: pre ++ σ.outsSince s

-- The stream of output of a session, with the thread that serves its agent, if there is one.
structure Stream (s : Session) (ac : AgentConn) (pre k : List Msg) (final : Option Msg)
    (server : Option Tid) (c : Config State Op) : Prop where
  queued  : Queued c.shared s pre k final
  quiet   : ∀ t, server ≠ some t → ∀ o ∈ c.procs t, o.Quiet s ac
  serving : ∀ t, server = some t → Serving c.shared s ac pre k (c.procs t)

-- Only one agent sent output of the session.
def Sole (σ : State) (s : Session) (ac : AgentConn) : Prop :=
  ∀ ac' f, .read ac' f ∈ σ.log → f.t = "out" → f.sid = s.sid → ac' = ac

-- A section ends a session with err or exit.
def Op.Final : Op → Prop
  | .closeSess _ (some m)    => m.t = "err" ∨ m.t = "exit"
  | .endSession _ (some m) _ => m.t = "err" ∨ m.t = "exit"
  | _                        => True

-- When the session was attached, the agent's handler had read a frame for it that it had yet to route.
def Late (sha256 : String → Digest) (c : Config State Op) (s : Session) (ac : AgentConn) (m : Msg) :
    Prop :=
  ∃ c₀ l c₁, (program sha256).system.Reachable c₀ ∧ s ∉ c₀.shared.attaches ∧
    c₀.Pending (.toBrowser ac s.sid m) ∧ (program sha256).system.step c₀ l = some c₁ ∧
    s ∈ c₁.shared.attaches ∧ ((program sha256).system.after c₁).Reachable c

-- What a section does that is quiet and attaches no session: the stream of the session does not go on,
-- but it may end.
structure Steady (σ σ' : State) (s : Session) (ac : AgentConn) : Prop where
  outs   : outs s.sid σ'.log = outs s.sid σ.log
  since  : σ'.outsSince s = σ.outsSince s
  before : σ'.outsBefore s = σ.outsBefore s
  alive  : σ'.Alive s ac → σ.Alive s ac
  closed : (σ'.sessConns s).closed = false → (σ.sessConns s).closed = false

variable {sha256 : String → Digest} {σ σ' : State} {op : Op} {i : Input} {ops rest : List Op}
  {r : Req} {c c' : Config State Op} {l : Label Req Input} {t : Tid} {ac : AgentConn} {s : Session}
  {pre k : List Msg} {final : Option Msg} {server : Option Tid} {log : List Event} {e : Event} {f : Msg}

theorem outs_cons (h : e.out s.sid = none) : outs s.sid (e :: log) = outs s.sid log := by
  simp [outs, List.filterMap_cons_none h]

theorem outsSince_cons (hl : σ'.log = e :: σ.log) (h : e.out s.sid = none) (hne : e ≠ .attached s) :
    σ'.outsSince s = σ.outsSince s := by
  simp only [State.outsSince, hl, List.takeWhile_cons, decide_eq_true hne, if_true]
  exact outs_cons h

theorem outsBefore_cons (hl : σ'.log = e :: σ.log) (hne : e ≠ .attached s) :
    σ'.outsBefore s = σ.outsBefore s := by
  simp [State.outsBefore, hl, hne]

theorem Serving.steady (h : Serving σ s ac pre k ops) (hs : Steady σ σ' s ac) :
    Serving σ' s ac pre k ops := by
  cases h
  case reading hq hr h => exact .reading hq hr fun a => hs.since ▸ h (hs.alive a)
  case routing hr hm h => exact .routing hr (hs.outs ▸ hm) fun a => hs.since ▸ h (hs.alive a)
  case sending hr hk h =>
    exact .sending hr (fun hc => hs.since ▸ hk (hs.closed hc)) fun a => hs.since ▸ h (hs.alive a)
  case slow hr => exact .slow hr

-- What a section records is read from its own agent, or the session that it attached.
theorem Exec.log_cases (e : Exec sha256 σ op i σ' ops) :
    σ'.log = σ.log ∨
    ∃ ev, σ'.log = ev :: σ.log ∧ (∀ a f, ev = .read a f → op = .readAgent a) ∧
      ∀ s, ev = .attached s → ∃ sid p a, op = .attach sid p a ∧ s = (σ.newSession sid p.mid).2 := by
  cases e
  case attached sid p a =>
    exact .inr ⟨_, rfl, by simp, by rintro s ⟨⟩; exact ⟨sid, p, a, rfl, rfl⟩⟩
  case agentRead => exact .inr ⟨_, rfl, by rintro a f ⟨⟩; rfl, by simp⟩
  case opened | machine | minted | accepted | refused | responded =>
    exact .inr ⟨_, rfl, by simp, by simp⟩
  all_goals exact .inl rfl

-- Only the section that attaches a session puts it into the map.
theorem Exec.sess_before (e : Exec sha256 σ op i σ' ops)
    (hn : ∀ sid p ac, op = .attach sid p ac → s ≠ (σ.newSession sid p.mid).2)
    (h : σ'.sess.get? s.sid = some s) : σ.sess.get? s.sid = some s := by
  cases e
  case replaced | dropped => exact (GoMap.get?_deleteWhere_eq_some.mp h).left
  case ended | sessEnded  => exact (GoMap.of_get?_delete h).right
  case attached sid p a =>
    cases GoMap.of_get?_set h
    case inl h => exact absurd h.right (hn sid p a rfl)
    case inr h => exact h.right
  all_goals exact h

theorem Exec.steady (e : Exec sha256 σ op i σ' ops) (hq : op.Quiet s ac) (sole : Sole σ' s ac)
    (hn : ∀ sid p ac, op = .attach sid p ac → s ≠ (σ.newSession sid p.mid).2) :
    Steady σ σ' s ac := by
  have log : outs s.sid σ'.log = outs s.sid σ.log ∧ σ'.outsSince s = σ.outsSince s ∧
      σ'.outsBefore s = σ.outsBefore s := by
    rcases e.log_cases with same | ⟨ev, log, read, attached⟩
    case inl => simp only [State.outsSince, State.outsBefore, same, and_self]
    case inr =>
      have silent : ev.out s.sid = none := by
        cases ev <;> try rfl
        case read a f =>
          refine if_neg fun ⟨ht, hf⟩ => ?_
          have ha : a = ac := sole a f (log ▸ List.mem_cons_self) ht hf
          rw [read a f rfl, ha] at hq
          exact hq rfl
      have other : ev ≠ .attached s := by
        intro he
        have ⟨sid, p, a, hop, hs⟩ := attached s he
        exact hn sid p a hop hs
      exact ⟨log ▸ outs_cons silent, outsSince_cons log silent other, outsBefore_cons log other⟩
  have ⟨outs, since, before⟩ := log
  have closed (hc : (σ'.sessConns s).closed = false) : (σ.sessConns s).closed = false := by
    rcases e.sessConns_cases hn with same | ⟨_, _, close⟩ | ⟨_, rfl, _⟩
    case inl     => exact same ▸ hc
    case inr.inl => simp [close] at hc
    case inr.inr => exact absurd rfl hq
  exact ⟨outs, since, before, fun ⟨hc, hs, hm⟩ => ⟨closed hc, e.sess_before hn hs, hm⟩, closed⟩

theorem Queued.unended (h : Queued σ s pre k final) (hc : (σ.sessConns s).closed = false) :
    final = none := by
  cases final
  case none => rfl
  case some m =>
    have closed := (h.final m rfl).right
    simp [hc] at closed

-- What is on the queue stays there, and a final frame may come after it.
theorem Queued.steady (h : Queued σ s pre k final) (e : Exec sha256 σ op i σ' ops)
    (hs : Steady σ σ' s ac) (hq : op.Quiet s ac) (hf : op.Final)
    (hn : ∀ sid p ac, op = .attach sid p ac → s ≠ (σ.newSession sid p.mid).2) :
    ∃ final', Queued σ' s pre k final' := by
  have before := hs.before ▸ h.before
  have gapless := hs.since ▸ h.gapless
  rcases e.sessConns_cases hn with same | ⟨final', rfl, close⟩ | ⟨_, rfl, _⟩
  case inl => exact ⟨final, same ▸ h.out, same ▸ h.final, before, h.length, gapless⟩
  case inr.inr => exact absurd rfl hq
  case inr.inl =>
    by_cases hc : (σ.sessConns s).closed
    case pos =>
      have same := close.trans (Conn.close_of_closed hc)
      exact ⟨final, same ▸ h.out, same ▸ h.final, before, h.length, gapless⟩
    case neg =>
      cases h.unended (Bool.eq_false_iff.mpr hc)
      have closed : (σ'.sessConns s).closed := by simp [close]
      have out : (σ'.sessConns s).out =
          k ++ if (σ.sessConns s).full then [] else final'.toList := by
        rw [close, Conn.close_out (Bool.eq_false_iff.mpr hc), h.out]
        simp
      refine ⟨if (σ.sessConns s).full then none else final', ?_, fun m hm => ⟨?_, closed⟩, before,
        h.length, gapless⟩
      case refine_1 => rw [out]; split <;> rfl
      case refine_2 =>
        have hm : final' = some m := by
          split at hm
          case isTrue  => contradiction
          case isFalse => exact hm
        subst hm
        exact hf

theorem Exec.ops_quiet (e : Exec sha256 σ op i σ' ops) (wf : WellFormed σ) (hq : op.Quiet s ac)
    (sole : Sole σ' s ac) (hr : ∀ mid, op = .register mid → ac ≠ (σ.newAgent mid).2) :
    ∀ o ∈ ops, o.Quiet s ac := by
  cases e <;> simp only [List.cons_append, List.forall_mem_cons, List.forall_mem_append,
    List.forall_mem_map, List.not_mem_nil, IsEmpty.forall_iff, implies_true, and_true]
  case registered => exact ⟨trivial, Ne.symm (hr _ rfl)⟩
  case replaced   => exact ⟨trivial, fun _ _ => trivial, trivial, Ne.symm (hr _ rfl)⟩
  case dropped    => exact ⟨trivial, fun _ _ => trivial⟩
  case agentRead a f =>
    refine ⟨forall_handleAgent trivial (fun ht hf => ?_) (fun _ => trivial), hq⟩
    exact hq (sole a f List.mem_cons_self ht hf)
  case routed hs _ =>
    rintro rfl
    exact hq (wf.sess hs).left.symm
  case sessEnded close | goneEnded close =>
    exact ⟨trivial, forall_close close fun _ _ => trivial⟩
  case termRead => exact ⟨forall_handleTerm trivial trivial, trivial⟩
  case knownToken => exact ⟨trivial, trivial⟩
  case deleted => exact ⟨trivial, trivial⟩
  all_goals trivial

theorem Exec.ops_final (e : Exec sha256 σ op i σ' ops) (hf : op.Final) : ∀ o ∈ ops, o.Final := by
  cases e <;> simp only [List.cons_append, List.forall_mem_cons, List.forall_mem_append,
    List.forall_mem_map, List.not_mem_nil, IsEmpty.forall_iff, implies_true, and_true]
  case registered => exact ⟨trivial, trivial⟩
  case replaced => exact ⟨trivial, fun _ _ => .inl rfl, trivial, trivial⟩
  case dropped => exact ⟨trivial, fun _ _ => .inl rfl⟩
  case agentRead => exact ⟨forall_handleAgent trivial (fun _ => trivial) (fun _ => trivial), trivial⟩
  case browserSlow | notOpened => exact .inl rfl
  case ended f _ _ _ =>
    unfold endedMsg
    split
    case isTrue  => exact .inl rfl
    case isFalse => exact .inr rfl
  case sessEnded close | goneEnded close =>
    refine ⟨?_, forall_close close fun _ _ => trivial⟩
    unfold Op.Final at hf ⊢
    split at hf <;> simp_all
  case termRead => exact ⟨forall_handleTerm trivial trivial, trivial⟩
  case knownToken => exact ⟨trivial, trivial⟩
  case deleted => exact ⟨trivial, trivial⟩
  all_goals trivial

theorem final_reachable (h : (program sha256).system.Reachable c) : ∀ o, c.Pending o → o.Final := by
  refine (section_invariant (P := program sha256) (I := fun _ => True) (A := fun _ => Op.Final)
    (R := fun _ _ => True) ?_ ?_ ?_ ?_ h).right
  case refine_1 => exact fun _ _ => trivial
  case refine_2 =>
    intro σ r σ' ops _ e
    refine ⟨trivial, trivial, ?_⟩
    cases r <;> cases e
    case wsAgent => split <;> simp [Op.Final]
    all_goals simp [Op.Final]
  case refine_3 =>
    intro c _ i op _ σ' ops _ _ _ _ ho e
    exact ⟨trivial, trivial, (Exec.of e).ops_final ho⟩
  case refine_4 => exact fun _ _ _ _ _ => id

-- The agent of what was read was handed out.
theorem reads_reachable (h : (program sha256).system.Reachable c) :
    ∀ a f, .read a f ∈ c.shared.log → a.ptr < c.shared.next := by
  refine h.invariant (I := fun c => ∀ a f, .read a f ∈ c.shared.log → a.ptr < c.shared.next) ?_ ?_
  case refine_1 =>
    rintro c ⟨⟨st, now, hs⟩, _⟩
    simp [hs]
  case refine_2 =>
    intro c l c' hr hi _ e
    replace e := Step.of e
    cases e
    case start e =>
      have ⟨next, _⟩ := start_handles e
      have ⟨_, _, _, log⟩ := start_shared e
      rw [Config.resume_shared, next, log]
      exact hi
    case step head e =>
      have handled := (handles_reachable hr).right _ ⟨_, head ▸ List.mem_cons_self⟩
      replace e := Exec.of e
      intro a f hf
      have old (hf : .read a f ∈ c.shared.log) : a.ptr < _ :=
        Nat.lt_of_lt_of_le (hi a f hf) e.allocates.next
      rcases e.log_cases with same | ⟨ev, log, read, _⟩
      case inl => exact old (same ▸ hf)
      case inr =>
        rw [Config.resume_shared, log] at hf
        cases hf
        case head =>
          cases read a f rfl
          exact Nat.lt_of_lt_of_le handled e.allocates.next
        case tail hf => exact old hf

-- A quiet section of the thread that serves the agent.
theorem Serving.quiet (h : Serving σ s ac pre k (op :: rest)) (hs : Steady σ σ' s ac)
    (hq : op.Quiet s ac) (ho : ∀ o ∈ ops, o.Quiet s ac)
    (gone : ∀ final, op = .endSession s final true → σ'.sess.get? s.sid ≠ some s) :
    Serving σ' s ac pre k (ops ++ rest) := by
  generalize hl : op :: rest = l at h
  cases h
  case reading ops' rest' hq' hr h =>
    cases ops'
    case nil => cases hl; exact absurd rfl hq
    case cons _ ops' =>
      cases hl
      have ⟨_, hq'⟩ := List.forall_mem_cons.mp hq'
      show Serving σ' s ac pre k (ops ++ (ops' ++ .readAgent ac :: rest'))
      rw [← List.append_assoc]
      exact .reading (List.forall_mem_append.mpr ⟨ho, hq'⟩) hr fun a => hs.since ▸ h (hs.alive a)
  case routing => cases hl; exact absurd rfl hq
  case sending => cases hl; exact absurd rfl hq
  case slow final _ hr =>
    cases hl
    exact .reading ho hr fun ⟨_, attached, _⟩ => absurd attached (gone final rfl)

theorem Stream.quiet_rest (h : Stream s ac pre k final server c) (head : c.procs t = op :: rest)
    (ht : server ≠ some t) : ∀ o ∈ rest, o.Quiet s ac := by
  have quiet := h.quiet t ht
  rw [head] at quiet
  exact (List.forall_mem_cons.mp quiet).right

-- The steps of a stream. The other threads are quiet, so that nothing but the session may change.

theorem Stream.others {server' : Option Tid} (h : Stream s ac pre k final server c)
    (hs : ∀ t' ≠ t, server' = some t' ↔ server = some t') (ho : ∀ o ∈ ops, o.Quiet s ac)
    (hr : server' ≠ some t → ∀ o ∈ rest, o.Quiet s ac) :
    ∀ t', server' ≠ some t' → ∀ o ∈ (c.resume t σ' (ops ++ rest)).procs t', o.Quiet s ac := by
  intro t' ht
  rw [Config.resume_procs]
  split
  case isTrue he =>
    subst he
    exact List.forall_mem_append.mpr ⟨ho, hr ht⟩
  case isFalse he => exact h.quiet t' fun hc => ht ((hs t' he).mpr hc)

theorem Stream.quiet_step (h : Stream s ac pre k final server c) (e : Exec sha256 c.shared op i σ' ops)
    (head : c.procs t = op :: rest) (wf : WellFormed c.shared) (sole : Sole σ' s ac)
    (hq : op.Quiet s ac) (hf : op.Final)
    (hn : ∀ sid p ac, op = .attach sid p ac → s ≠ (c.shared.newSession sid p.mid).2)
    (hr : ∀ mid, op = .register mid → ac ≠ (c.shared.newAgent mid).2) :
    ∃ final', Stream s ac pre k final' server (c.resume t σ' (ops ++ rest)) := by
  have steady := e.steady hq sole hn
  have quiet := e.ops_quiet wf hq sole hr
  have ⟨final', queued⟩ := h.queued.steady e steady hq hf hn
  refine ⟨final', queued, h.others (fun _ _ => .rfl) quiet (h.quiet_rest head), fun t' ht => ?_⟩
  rw [Config.resume_procs]
  split
  case isFalse => exact (h.serving t' ht).steady steady
  case isTrue he =>
    subst he
    have serving := h.serving t' ht
    rw [head] at serving
    refine serving.quiet steady hq quiet ?_
    rintro final rfl attached
    have before := e.sess_before hn attached
    cases e
    case sessEnded => simp [GoMap.get?_delete] at attached
    case goneEnded gone _ => exact gone before

-- What the thread that serves the agent goes on with, by the section that is not quiet.

theorem Serving.of_read (h : Serving σ s ac pre k (.readAgent ac :: rest)) :
    (∀ o ∈ rest, o.Quiet s ac) ∧ (σ.Alive s ac → k = pre ++ σ.outsSince s) := by
  generalize hl : Op.readAgent ac :: rest = l at h
  cases h
  case routing | sending | slow => simp at hl
  case reading ops' rest' hq hr h =>
    cases ops'
    case cons => cases hl; exact absurd rfl (hq _ List.mem_cons_self)
    case nil  => cases hl; exact ⟨hr, h⟩

theorem Serving.of_route {a : AgentConn} {m : Msg}
    (h : Serving σ s ac pre k (.toBrowser a s.sid m :: rest)) :
    a = ac ∧ (∃ rest', rest = .readAgent ac :: rest' ∧ ∀ o ∈ rest', o.Quiet s ac) ∧
      (σ.Alive s ac → k ++ [m] = pre ++ σ.outsSince s) := by
  generalize hl : Op.toBrowser a s.sid m :: rest = l at h
  cases h
  case sending | slow => simp at hl
  case routing rest' hr _ h => cases hl; exact ⟨rfl, ⟨rest', rfl, hr⟩, h⟩
  case reading ops' _ hq _ _ =>
    cases ops'
    case cons => cases hl; exact absurd rfl (hq _ List.mem_cons_self)
    case nil  => simp at hl

theorem Serving.of_send {m : Msg} (h : Serving σ s ac pre k (.sendBrowser s m :: rest)) :
    (∃ rest', rest = .readAgent ac :: rest' ∧ ∀ o ∈ rest', o.Quiet s ac) ∧
      ((σ.sessConns s).closed = false → k ++ [m] <+: pre ++ σ.outsSince s) ∧
      (σ.Alive s ac → k ++ [m] = pre ++ σ.outsSince s) := by
  generalize hl : Op.sendBrowser s m :: rest = l at h
  cases h
  case routing | slow => simp at hl
  case sending rest' hr hk h => cases hl; exact ⟨⟨rest', rfl, hr⟩, hk, h⟩
  case reading ops' _ hq _ _ =>
    cases ops'
    case cons => cases hl; exact absurd rfl (hq _ List.mem_cons_self)
    case nil  => simp at hl

theorem Serving.reads (hr : ∀ o ∈ rest, o.Quiet s ac) (h : σ.Alive s ac → k = pre ++ σ.outsSince s) :
    Serving σ s ac pre k (.readAgent ac :: rest) := by
  show Serving σ s ac pre k ([] ++ .readAgent ac :: rest)
  exact .reading (by simp) hr h

-- A section that is not quiet belongs to that thread.
theorem Stream.server_eq (h : Stream s ac pre k final server c) (head : c.procs t = op :: rest)
    (hq : ¬op.Quiet s ac) : server = some t := by
  by_contra ht
  exact hq (h.quiet t ht op (head ▸ List.mem_cons_self))

-- It stays the one that serves the agent, where the others and the queue see nothing of its step.
theorem Stream.serve {k' : List Msg} {final' : Option Msg} (h : Stream s ac pre k final (some t) c)
    (queued : Queued σ' s pre k' final') (serving : Serving σ' s ac pre k' ops) :
    Stream s ac pre k' final' (some t) (c.resume t σ' ops) := by
  refine ⟨queued, fun t' ht => ?_, ?_⟩
  case refine_1 =>
    rw [Config.resume_procs, if_neg (by rintro rfl; exact ht rfl)]
    exact h.quiet t' ht
  case refine_2 =>
    rintro t' ⟨⟩
    rw [Config.resume_procs, if_pos rfl]
    exact serving

theorem Stream.routed {m : Msg} {a : AgentConn} (h : Stream s ac pre k final server c)
    (e : exec sha256 c.shared (.toBrowser a s.sid m) i = some (σ', ops))
    (head : c.procs t = .toBrowser a s.sid m :: rest) :
    Stream s ac pre k final server (c.resume t σ' (ops ++ rest)) := by
  cases h.server_eq head (fun hq => hq rfl)
  have serving := h.serving t rfl
  rw [head] at serving
  obtain ⟨rfl, ⟨rest, rfl, hr⟩, stream⟩ := serving.of_route
  have unrouted (hs : ¬(c.shared.sess.get? s.sid = some s ∧ s.mid = a.mid)) :
      c.shared.Alive s a → k = pre ++ c.shared.outsSince s :=
    fun alive => absurd alive.right hs
  simp only [exec] at e
  split at e
  case h_1 hn =>
    cases e
    exact h.serve h.queued (.reads hr (unrouted (by simp [hn])))
  case h_2 s' hs =>
    cases e
    by_cases hm : s'.mid = a.mid
    case neg =>
      rw [if_neg hm]
      refine h.serve h.queued (.reads hr (unrouted ?_))
      rintro ⟨he, hm'⟩
      cases hs.symm.trans he
      exact hm hm'
    case pos =>
      rw [if_pos hm]
      by_cases he : s' = s
      case neg =>
        refine h.serve h.queued (.reading (by simpa [Op.Quiet] using he) hr (unrouted ?_))
        exact fun hc => he (Option.some.inj (hs.symm.trans hc.left))
      case pos =>
        subst he
        exact h.serve h.queued (.sending hr (fun hc => stream ⟨hc, hs, hm⟩ ▸ List.prefix_refl _) stream)

theorem Conn.send_out {c : Conn} {m : Msg} (h : (c.send m).2 = true) :
    (c.send m).1.out = c.out ++ [m] := by
  have ⟨open', room⟩ := send_eq_true h
  simp [send, open', room]

theorem Stream.sent {m : Msg} (h : Stream s ac pre k final server c)
    (e : Exec sha256 c.shared (.sendBrowser s m) i σ' ops)
    (head : c.procs t = .sendBrowser s m :: rest) :
    ∃ k', Stream s ac pre k' final server (c.resume t σ' (ops ++ rest)) := by
  cases h.server_eq head (fun hq => hq rfl)
  have serving := h.serving t rfl
  rw [head] at serving
  obtain ⟨⟨rest, rfl, hr⟩, prefix', stream⟩ := serving.of_send
  have conn : σ'.sessConns s = ((c.shared.sessConns s).send m).1 := by
    cases e <;> simp [State.sendBrowser]
  have since : σ'.outsSince s = c.shared.outsSince s := by cases e <;> rfl
  have before : σ'.outsBefore s = c.shared.outsBefore s := by cases e <;> rfl
  have alive (ha : σ'.Alive s ac) : c.shared.Alive s ac := by
    refine ⟨?_, ?_, ha.right.right⟩
    case refine_1 => rw [← Conn.send_closed (m := m), ← conn]; exact ha.left
    case refine_2 => cases e <;> exact ha.right.left
  cases he : ((c.shared.sessConns s).send m).2
  case true =>
    obtain ⟨opened, _⟩ := Conn.send_eq_true he
    cases h.queued.unended opened
    have out : (σ'.sessConns s).out = k ++ [m] ++ [] := by
      rw [conn, Conn.send_out he, h.queued.out]
      simp
    refine ⟨k ++ [m], h.serve ⟨out, by simp, before ▸ h.queued.before, h.queued.length, ?_⟩ ?_⟩
    case refine_1 => exact since ▸ prefix' opened
    case refine_2 =>
      cases e
      case browserSent => exact .reads hr fun ha => since ▸ stream (alive ha)
      case browserSlow hs => simp [he] at hs
  case false =>
    have same : σ'.sessConns s = c.shared.sessConns s := by
      rw [conn]
      unfold Conn.send at he ⊢
      split at he <;> simp_all
    refine ⟨k, h.serve ⟨same ▸ h.queued.out, same ▸ h.queued.final, before ▸ h.queued.before,
      h.queued.length, since ▸ h.queued.gapless⟩ ?_⟩
    cases e
    case browserSent hs => simp [he] at hs
    case browserSlow => exact .slow hr

theorem Event.out_read {a : AgentConn} {f : Msg} (ht : f.t = "out") (hf : f.sid = s.sid) :
    (Event.read a f).out s.sid = some { t := "out", data := f.data } :=
  if_pos ⟨ht, hf⟩

-- One more frame was read for the browser.
theorem outs_read {a : AgentConn} {m : Msg} (h : (Event.read a f).out s.sid = some m) :
    outs s.sid (.read a f :: log) = outs s.sid log ++ [m] := by
  simp [outs, h]

theorem outsSince_read {a : AgentConn} {m : Msg} (hl : σ'.log = .read a f :: σ.log)
    (h : (Event.read a f).out s.sid = some m) : σ'.outsSince s = σ.outsSince s ++ [m] := by
  simp only [State.outsSince, hl, List.takeWhile_cons]
  exact outs_read h

-- The thread that serves the agent reads a frame, or finds that the agent is gone.
theorem Stream.read (h : Stream s ac pre k final server c)
    (e : Exec sha256 c.shared (.readAgent ac) i σ' ops) (head : c.procs t = .readAgent ac :: rest) :
    ∃ server', Stream s ac pre k final server' (c.resume t σ' (ops ++ rest)) := by
  cases h.server_eq head (fun hq => hq rfl)
  have serving := h.serving t rfl
  rw [head] at serving
  obtain ⟨hr, stream⟩ := serving.of_read
  have queued (conn : σ'.sessConns s = c.shared.sessConns s)
      (before : σ'.outsBefore s = c.shared.outsBefore s)
      (since : c.shared.outsSince s <+: σ'.outsSince s) : Queued σ' s pre k final := by
    refine ⟨conn ▸ h.queued.out, conn ▸ h.queued.final, before ▸ h.queued.before, h.queued.length, ?_⟩
    exact h.queued.gapless.trans (List.prefix_append_right_inj _ |>.mpr since)
  cases e
  case agentLost =>
    refine ⟨none, h.queued, fun t' _ => ?_, by simp⟩
    rw [Config.resume_procs]
    split
    case isTrue  => exact List.forall_mem_cons.mpr ⟨trivial, hr⟩
    case isFalse hne => exact h.quiet t' (by simpa using Ne.symm hne)
  case agentRead f =>
    have before : (c.shared.record (.read ac f)).outsBefore s = c.shared.outsBefore s :=
      outsBefore_cons rfl (by simp)
    refine ⟨some t, ?_⟩
    by_cases hf : f.t = "out" ∧ f.sid = s.sid
    case pos =>
      obtain ⟨ht, hf⟩ := hf
      have since : (c.shared.record (.read ac f)).outsSince s =
          c.shared.outsSince s ++ [{ t := "out", data := f.data }] :=
        outsSince_read rfl (Event.out_read ht hf)
      have ops : handleAgent ac f = [.toBrowser ac s.sid { t := "out", data := f.data }] := by
        simp [handleAgent, ht, hf]
      rw [ops]
      refine h.serve (queued rfl before (since ▸ List.prefix_append ..)) (.routing hr ?_ ?_)
      case refine_1 => exact outs_read (Event.out_read ht hf) ▸ List.suffix_append ..
      case refine_2 =>
        intro alive
        rw [since, ← List.append_assoc, stream alive]
    case neg =>
      have since : (c.shared.record (.read ac f)).outsSince s = c.shared.outsSince s :=
        outsSince_cons rfl (if_neg hf) (by simp)
      have quiet : ∀ o ∈ handleAgent ac f, o.Quiet s ac :=
        forall_handleAgent trivial (fun ht he => hf ⟨ht, he⟩) (fun _ => trivial)
      rw [List.append_assoc]
      refine h.serve (queued rfl before (since ▸ List.prefix_refl _)) (.reading quiet hr ?_)
      exact fun alive => since ▸ stream alive

theorem Serving.serves (h : Serving σ s ac pre k ops) : .readAgent ac ∈ ops := by
  cases h <;> simp

theorem outs_eq_nil (h : ∀ e ∈ log, e.out s.sid = none) : outs s.sid log = [] := by
  simpa [outs, List.filterMap_eq_nil_iff] using h

-- Nothing was read yet from an agent that is just being registered.
theorem Stream.register {mid : String} (hr : (program sha256).system.Reachable c)
    (sole : Sole c.shared s ac) (h : Stream s ac pre k final server c)
    (e : Exec sha256 c.shared (.register mid) i σ' ops) (head : c.procs t = .register mid :: rest)
    (hac : ac = (c.shared.newAgent mid).2) :
    Stream s ac pre k final (some t) (c.resume t σ' (ops ++ rest)) := by
  have ptr : ¬ac.ptr < c.shared.next := by rw [hac]; exact Nat.lt_irrefl _
  have unserved : server = none := by
    cases server
    case none => rfl
    case some t' => exact absurd ((handles_reachable hr).right _ ⟨t', (h.serving t' rfl).serves⟩) ptr
  subst unserved
  have silent : ∀ e ∈ c.shared.log, e.out s.sid = none := by
    intro e he
    cases e <;> try rfl
    case read a f =>
      refine if_neg fun ⟨ht, hf⟩ => ?_
      have ha : a = ac := sole a f he ht hf
      exact absurd (ha ▸ reads_reachable hr a f he) ptr
  have before : c.shared.outsBefore s = [] :=
    outs_eq_nil fun e he => silent e ((List.dropWhile_sublist _).subset he)
  have since : c.shared.outsSince s = [] :=
    outs_eq_nil fun e he => silent e ((List.takeWhile_sublist _).subset he)
  have pre_nil : pre = [] := List.suffix_nil.mp (before ▸ h.queued.before)
  have k_nil : k = [] := by simpa [pre_nil, since] using h.queued.gapless
  have shared : σ'.sessConns = c.shared.sessConns ∧ σ'.log = c.shared.log := by
    cases e <;> exact ⟨rfl, rfl⟩
  obtain ⟨conns, log⟩ := shared
  have queued : Queued σ' s pre k final := by
    refine ⟨conns ▸ h.queued.out, conns ▸ h.queued.final, ?_, h.queued.length, ?_⟩ <;>
      simp [pre_nil, k_nil]
  have rest_quiet := h.quiet_rest head (by simp)
  have nothing : σ'.Alive s ac → k = pre ++ σ'.outsSince s := by
    intro _
    simpa [pre_nil, k_nil, State.outsSince, log] using since.symm
  refine ⟨queued, fun t' ht => ?_, ?_⟩
  case refine_1 =>
    rw [Config.resume_procs, if_neg (by rintro rfl; exact ht rfl)]
    exact h.quiet t' (by simp)
  case refine_2 =>
    rintro t' ⟨⟩
    rw [Config.resume_procs, if_pos rfl]
    have greet {ops : List Op} (hq : ∀ o ∈ ops, o.Quiet s ac) (m : Msg) :
        Serving σ' s ac pre k (ops ++ [.sendAgent ac m, .readAgent ac] ++ rest) := by
      show Serving σ' s ac pre k (ops ++ ([.sendAgent ac m] ++ [.readAgent ac]) ++ rest)
      rw [← List.append_assoc, List.append_assoc]
      exact .reading (by simpa [or_imp, forall_and, Op.Quiet] using hq) rest_quiet nothing
    cases e
    case registered => exact hac ▸ @greet [] (by simp) _
    case replaced   => exact hac ▸ greet (by simp [Op.Quiet]) _

-- When the session is attached, a frame for it may already be on its way.
theorem Serving.attach (h : Serving σ s ac pre k ops) (hs : ∀ m, .sendBrowser s m ∉ ops)
    (since : σ'.outsSince s = []) (log : outs s.sid σ'.log = outs s.sid σ.log) :
    ∃ pre, (∀ m ∈ pre, .toBrowser ac s.sid m ∈ ops) ∧ pre <:+ outs s.sid σ.log ∧ pre.length ≤ 1 ∧
      Serving σ' s ac pre [] ops := by
  cases h
  case reading hq hr _ =>
    exact ⟨[], by simp, List.nil_suffix, Nat.zero_le _, .reading hq hr fun _ => since.symm⟩
  case routing m _ hr hm _ =>
    exact ⟨[m], by simp, hm, Nat.le_refl _, .routing hr (log ▸ hm) fun _ => by simp [since]⟩
  case sending m _ _ _ _ => exact absurd List.mem_cons_self (hs m)
  case slow hr => exact ⟨[], by simp, List.nil_suffix, Nat.zero_le _, .slow hr⟩

-- Nothing is on the queue yet of a session that is just being attached.
theorem Stream.attach {sid : String} {p : PendKey} {a : Option AgentConn}
    (hr : (program sha256).system.Reachable c) (h : Stream s ac pre k final server c)
    (e : Exec sha256 c.shared (.attach sid p a) i σ' ops)
    (head : c.procs t = .attach sid p a :: rest) (hs : s = (c.shared.newSession sid p.mid).2) :
    ∃ pre, (∀ m ∈ pre, c.Pending (.toBrowser ac s.sid m)) ∧
      Stream s ac pre [] none server (c.resume t σ' (ops ++ rest)) := by
  have ptr : ¬s.ptr < c.shared.next := by rw [hs]; exact Nat.lt_irrefl _
  have unknown (t' : Tid) (m : Msg) : .sendBrowser s m ∉ c.procs t' := fun ho =>
    ptr ((handles_reachable hr).left.attaches ((known_reachable hr).right _ ⟨t', ho⟩ s rfl))
  have shared : (σ'.sessConns s).out = [] ∧ σ'.log = .attached s :: c.shared.log := by
    cases e
    exact ⟨by simp [State.record, State.newSession, hs], by rw [hs]; rfl⟩
  obtain ⟨out, log⟩ := shared
  have since : σ'.outsSince s = [] := by simp [State.outsSince, log, outs]
  have before : σ'.outsBefore s = outs s.sid c.shared.log := by
    simp [State.outsBefore, log, outs, Event.out]
  have same : outs s.sid σ'.log = outs s.sid c.shared.log := log ▸ outs_cons rfl
  have ops_quiet : ∀ o ∈ ops, o.Quiet s ac := by
    cases e
    simp [Op.Quiet]
  have queued {pre : List Msg} (hb : pre <:+ outs s.sid c.shared.log) (hl : pre.length ≤ 1) :
      Queued σ' s pre [] none :=
    ⟨by simp [out], by simp, before ▸ hb, hl, List.nil_prefix⟩
  have quiet : ∀ t', server ≠ some t' →
      ∀ o ∈ (c.resume t σ' (ops ++ rest)).procs t', o.Quiet s ac :=
    h.others (fun _ _ => .rfl) ops_quiet (h.quiet_rest head)
  cases server
  case none => exact ⟨[], by simp, queued List.nil_suffix (Nat.zero_le _), quiet, by simp⟩
  case some t' =>
    have ⟨pre, hp, hb, hl, serving⟩ := (h.serving t' rfl).attach (unknown t') since same
    refine ⟨pre, fun m hm => ⟨t', hp m hm⟩, queued hb hl, quiet, ?_⟩
    rintro _ ⟨⟩
    rw [Config.resume_procs]
    split
    case isFalse => exact serving
    case isTrue ht =>
      rw [ht, head] at serving
      have steady : Steady σ' σ' s ac := ⟨rfl, rfl, rfl, id, id⟩
      exact serving.quiet steady trivial ops_quiet (by simp)

theorem Stream.start (h : Stream s ac pre k final server c)
    (e : Broker.start c.shared r = some (σ', ops)) (idle : c.procs t = []) :
    Stream s ac pre k final server (c.resume t σ' ops) := by
  have ⟨_, _, sess, log⟩ := start_shared e
  have ⟨out, closed⟩ := @start_sessConns _ _ _ _ s e
  have since : σ'.outsSince s = c.shared.outsSince s := by simp only [State.outsSince, log]
  have before : σ'.outsBefore s = c.shared.outsBefore s := by simp only [State.outsBefore, log]
  have steady : Steady c.shared σ' s ac :=
    ⟨log ▸ rfl, since, before, fun ⟨hc, hs, hm⟩ => ⟨closed ▸ hc, sess ▸ hs, hm⟩, fun hc => closed ▸ hc⟩
  have busy {t' : Tid} (ht : server = some t') : t' ≠ t := by
    rintro rfl
    have serves := (h.serving t' ht).serves
    simp [idle] at serves
  refine ⟨⟨out ▸ h.queued.out, closed ▸ h.queued.final, before ▸ h.queued.before, h.queued.length,
    since ▸ h.queued.gapless⟩, fun t' ht => ?_, fun t' ht => ?_⟩
  case refine_1 =>
    rw [Config.resume_procs]
    split
    case isFalse => exact h.quiet t' ht
    case isTrue =>
      cases r <;> cases e
      case wsAgent => split <;> simp [Op.Quiet]
      all_goals simp [Op.Quiet]
  case refine_2 =>
    rw [Config.resume_procs, if_neg (busy ht)]
    exact (h.serving t' ht).steady steady

theorem Stream.step (hr : (program sha256).system.Reachable c) (h : Stream s ac pre k final server c)
    (e : exec sha256 c.shared op i = some (σ', ops)) (head : c.procs t = op :: rest)
    (sole : Sole σ' s ac) :
    ∃ pre' k final server, Stream s ac pre' k final server (c.resume t σ' (ops ++ rest)) ∧
      ∀ m ∈ pre', m ∈ pre ∨
        s ∉ c.shared.attaches ∧ c.Pending (.toBrowser ac s.sid m) ∧ s ∈ σ'.attaches := by
  have graph := Exec.of e
  have before : Sole c.shared s ac := fun a f hf => sole a f (graph.log_suffix.mem hf)
  by_cases hq : op.Quiet s ac
  case pos =>
    by_cases hn : ∃ sid p a, op = .attach sid p a ∧ s = (c.shared.newSession sid p.mid).2
    case pos =>
      obtain ⟨sid, p, a, rfl, hs⟩ := hn
      have ⟨pre', late, attached⟩ := h.attach hr graph head hs
      refine ⟨pre', [], none, server, attached, fun m hm => .inr ⟨fun ha => ?_, late m hm, ?_⟩⟩
      case refine_1 => exact Nat.lt_irrefl _ (hs ▸ (handles_reachable hr).left.attaches ha)
      case refine_2 =>
        cases graph
        exact hs ▸ List.mem_cons_self
    case neg =>
      by_cases hm : ∃ mid, op = .register mid ∧ ac = (c.shared.newAgent mid).2
      case pos =>
        obtain ⟨mid, rfl, hac⟩ := hm
        exact ⟨pre, k, final, some t, h.register hr before graph head hac, fun _ => .inl⟩
      case neg =>
        have ⟨final', steady⟩ := h.quiet_step graph head (wellFormed_reachable hr).left sole hq
          (final_reachable hr op ⟨t, head ▸ List.mem_cons_self⟩)
          (fun sid p a ho hs => hn ⟨sid, p, a, ho, hs⟩) (fun mid ho hac => hm ⟨mid, ho, hac⟩)
        exact ⟨pre, k, final', server, steady, fun _ => .inl⟩
  case neg =>
    cases op <;> simp only [Op.Quiet, not_true_eq_false, not_not] at hq
    case readAgent a =>
      subst hq
      have ⟨server', read⟩ := h.read graph head
      exact ⟨pre, k, final, server', read, fun _ => .inl⟩
    case toBrowser a sid m =>
      subst hq
      exact ⟨pre, k, final, server, h.routed e head, fun _ => .inl⟩
    case sendBrowser s' m =>
      subst hq
      have ⟨k', sent⟩ := h.sent graph head
      exact ⟨pre, k', final, server, sent, fun _ => .inl⟩

theorem Late.step {m : Msg} (h : Late sha256 c s ac m) (e : (program sha256).system.step c l = some c') :
    Late sha256 c' s ac m := by
  have ⟨c₀, l₀, c₁, hr, before, pending, e₁, after, h⟩ := h
  exact ⟨c₀, l₀, c₁, hr, before, pending, e₁, after, .step h trivial e⟩

theorem stream_reachable (h : (program sha256).system.Reachable c) (sole : Sole c.shared s ac) :
    ∃ pre k final server, Stream s ac pre k final server c ∧ ∀ m ∈ pre, Late sha256 c s ac m := by
  refine h.invariant (I := fun c => Sole c.shared s ac → ∃ pre k final server,
    Stream s ac pre k final server c ∧ ∀ m ∈ pre, Late sha256 c s ac m) ?_ ?_ sole
  case refine_1 =>
    rintro c ⟨⟨st, now, hs⟩, hp⟩ _
    refine ⟨[], [], none, none, ⟨?_, fun t _ => by simp [hp t], by simp⟩, by simp⟩
    exact ⟨by simp [hs], by simp, List.nil_suffix, Nat.zero_le _, List.nil_prefix⟩
  case refine_2 =>
    intro c l c' hr hi _ e sole
    have graph := Step.of e
    cases graph
    case start idle e' =>
      have ⟨_, _, _, log⟩ := start_shared e'
      have ⟨pre, k, final, server, stream, late⟩ := hi fun a f hf => sole a f (log ▸ hf)
      exact ⟨pre, k, final, server, stream.start e' idle, fun m hm => (late m hm).step e⟩
    case step head e' =>
      have ⟨pre, _, _, _, stream, late⟩ := hi fun a f hf => sole a f ((Exec.of e').log_suffix.mem hf)
      have ⟨pre', k, final, server, stream, origin⟩ := stream.step hr e' head sole
      refine ⟨pre', k, final, server, stream, fun m hm => ?_⟩
      cases origin m hm
      case inl old => exact (late m old).step e
      case inr new =>
        have ⟨before, pending, after⟩ := new
        exact ⟨c, _, _, hr, before, pending, e, after, .init rfl⟩

-- What is on the queue of a browser, if only one agent sent output of its session: the output that was
-- read since the session was attached, without a gap, and at most one frame before that which had been
-- read but not routed then. After it there is at most one final frame, and then nothing more. No calls
-- of the methods of a connection send on the closed channel or close it again, however they interleave.
theorem gapless (h : (program sha256).system.Reachable c)
    (only : ∀ ac' f, .read ac' f ∈ c.shared.log → f.t = "out" → f.sid = s.sid → ac' = ac) :
    (∃ pre k, ∃ final : Option Msg, (c.shared.sessConns s).out = k ++ final.toList ∧
      k <+: pre ++ c.shared.outsSince s ∧
      pre <:+ c.shared.outsBefore s ∧ pre.length ≤ 1 ∧ (∀ m ∈ pre, Late sha256 c s ac m) ∧
      ∀ m ∈ final, (m.t = "err" ∨ m.t = "exit") ∧ (c.shared.sessConns s).closed) ∧
    (s ∈ c.shared.attaches → (c.shared.sessConns s).closed →
      ∀ c', ((program sha256).system.after c).Reachable c' →
        (c'.shared.sessConns s).out = (c.shared.sessConns s).out) ∧
    ∀ q, Queue.program.system.Reachable q → q.shared.panicked = false ∧
      (q.shared.locked = false → q.shared.conn =
        { out := q.shared.out, taken := q.shared.taken, closed := q.shared.closed }) := by
  refine ⟨?_, fun hs hc c' h' => (out_frozen h hs hc h').left, fun q hq => Queue.queue_refines hq⟩
  have ⟨pre, k, final, _, stream, late⟩ := stream_reachable h only
  have ⟨out, final', before, length, gapless⟩ := stream.queued
  exact ⟨pre, k, final, out, gapless, before, length, late, final'⟩

theorem Sole.of_reads (h : σ.reads = [(ac, f)]) : Sole σ s ac := by
  intro a f' hf _ _
  have hm : (a, f') ∈ σ.reads := List.mem_filterMap.mpr ⟨_, hf, rfl⟩
  rw [h] at hm
  exact (Prod.mk.inj (List.mem_singleton.mp hm)).left

-- The shell prints a line, and the browser is sent it.
theorem gapless_sample :
    let s : Session := ⟨1, "a0", "5c"⟩
    let out : Msg := { t := "out", data := "eA==" }
    let ls := sampleOpened ++ [.step 1 (.frame { out with sid := "a0" }), .step 1 .done, .step 1 .done]
    ∃ c, (program sampleSum).system.run initial ls = some c ∧ (c.shared.sessConns s).out = [out] ∧
      ∃ pre, pre.length ≤ 1 ∧ [out] <+: pre ++ c.shared.outsSince s := by
  intro s out ls
  cases e : (program sampleSum).system.run initial ls
  case none =>
    have ran : ((program sampleSum).system.run initial ls).isSome := by decide
    simp [e] at ran
  case some c =>
    have reachable := Transition.Reachable.run (.init (initial_init sampleSum)) e
    have conn : c.shared.sessConns s = { out := [out] } :=
      Transition.eq_of_run (f := (·.shared.sessConns s)) e (by decide)
    have reads : c.shared.reads = [(⟨0, "5c"⟩, { out with sid := "a0" })] :=
      Transition.eq_of_run (f := (·.shared.reads)) e (by decide)
    have ⟨⟨pre, k, final, queued, stream, _, length, _, last⟩, _⟩ :=
      gapless (s := s) reachable (Sole.of_reads reads)
    cases final
    case some => simp [conn] at last
    case none =>
      have same : [out] = k := by simpa [conn] using queued
      exact ⟨c, rfl, by rw [conn], pre, length, same ▸ stream⟩

-- The agent sends output of a session before the browser attached to it. Its handler has read the frame,
-- and by the time it looks for the session there is one.
theorem early_output_enqueued :
    let s : Session := ⟨1, "a0", "5c"⟩
    let ac : AgentConn := ⟨0, "5c"⟩
    let out : Msg := { t := "out", data := "eA==" }
    let ls := sampleOpened.dropLast.dropLast ++ [.step 1 (.frame { out with sid := "a0" }),
      .step 2 .done, .step 1 .done, .step 1 .done]
    ∃ c, (program sampleSum).system.run initial ls = some c ∧ Sole c.shared s ac ∧
      s ∈ c.shared.attaches ∧
      ¬∃ k, ∃ final : Option Msg, (c.shared.sessConns s).out = k ++ final.toList ∧
        k <+: c.shared.outsSince s ∧ ∀ m ∈ final, m.t = "err" ∨ m.t = "exit" := by
  intro s ac out ls
  cases e : (program sampleSum).system.run initial ls
  case none =>
    have ran : ((program sampleSum).system.run initial ls).isSome := by decide
    simp [e] at ran
  case some c =>
    have conn : c.shared.sessConns s = { out := [out] } :=
      Transition.eq_of_run (f := (·.shared.sessConns s)) e (by decide)
    have reads : c.shared.reads = [(ac, { out with sid := "a0" })] :=
      Transition.eq_of_run (f := (·.shared.reads)) e (by decide)
    have attaches : c.shared.attaches = [s] :=
      Transition.eq_of_run (f := (·.shared.attaches)) e (by decide)
    have since : c.shared.outsSince s = [] :=
      Transition.eq_of_run (f := (·.shared.outsSince s)) e (by decide)
    refine ⟨c, rfl, Sole.of_reads reads, by simp [attaches], ?_⟩
    rintro ⟨k, final, queued, stream, last⟩
    cases List.prefix_nil.mp (since ▸ stream)
    rw [conn] at queued
    cases final
    case none => simp at queued
    case some m =>
      have he : out = m := by simpa using queued
      have ht := last m rfl
      simp [← he, out] at ht

end Broker
