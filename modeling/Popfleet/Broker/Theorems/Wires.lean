import Popfleet.Broker.Theorems.Exits
import Popfleet.Broker.Theorems.Keystrokes

open Proto Store Program Transition

namespace Broker

-- What the writer goroutine has written to the websocket.
def Conn.written (c : Conn) : List Msg :=
  c.out.take c.taken

-- What an event is of the frames of an agent, besides its heartbeats.
def Event.said (ac : AgentConn) : Event → Option Msg
  | .read a f => if a = ac ∧ f.t ≠ "hb" then some f else none
  | _         => none

-- What was read from an agent, the oldest first.
def said (ac : AgentConn) (log : List Event) : List Msg :=
  (log.filterMap (·.said ac)).reverse

-- What a step reads from an agent.
def agentReads (ac : AgentConn) (c : Config State Op) : Label Req Input → List Msg
  | .step t (.frame f) =>
    match (c.procs t).head? with
    | some (.readAgent a) => if a = ac ∧ f.t ≠ "hb" then [f] else []
    | _                   => []
  | _ => []

-- The frame for the browser that one of the agent is for.
def routed (sid : String) (f : Msg) : Option Msg :=
  if f.t = "out" ∧ f.sid = sid then some { t := "out", data := f.data } else none

variable {sha256 : String → Digest} {σ σ' : State} {op : Op} {i : Input} {ops rest : List Op}
  {r : Req} {c c' : Config State Op} {l : Label Req Input} {t : Tid} {ac : AgentConn} {s : Session}
  {m f : Msg} {seen : List Msg} {log log' : List Event} {q : Conn}

namespace Conn

theorem written_send : q.written <+: (q.send m).1.written := by
  unfold send
  split
  case isTrue  => exact List.prefix_rfl
  case isFalse =>
    have grown : q.out.take q.taken <+: q.out ++ [m] :=
      (List.take_prefix ..).trans (List.prefix_append ..)
    exact List.prefix_take_iff.mpr ⟨grown, List.length_take_le ..⟩

theorem written_close {final : Option Msg} : q.written <+: (q.close final).written := by
  cases final
  case none =>
    unfold close
    split <;> exact List.prefix_rfl
  case some m =>
    unfold close
    split
    case isTrue  => exact List.prefix_rfl
    case isFalse => exact written_send

theorem written_drain : q.written <+: q.drain.written := by
  unfold drain
  split
  case isTrue  => exact List.take_prefix_take_left (Nat.le_succ _)
  case isFalse => exact List.prefix_rfl

end Conn

-- What was written to a websocket stays written.

theorem written_update {κ : Type} [DecidableEq κ] {conns : κ → Conn} {k k' : κ}
    (h : (conns k).written <+: q.written) :
    (conns k').written <+: (Function.update conns k q k').written := by
  by_cases hk : k' = k
  case pos =>
    subst hk
    simpa using h
  case neg => simp [Function.update_of_ne hk]

theorem Exec.written (e : Exec sha256 σ op i σ' ops) (h : Unused σ) :
    (σ.agentConns ac).written <+: (σ'.agentConns ac).written ∧
      (σ.sessConns s).written <+: (σ'.sessConns s).written := by
  cases e
  case agentClosed => exact ⟨written_update Conn.written_close, List.prefix_rfl⟩
  case agentSent | relayed | opened => exact ⟨written_update Conn.written_send, List.prefix_rfl⟩
  case sessClosed => exact ⟨List.prefix_rfl, written_update Conn.written_close⟩
  case browserSent | browserSlow => exact ⟨List.prefix_rfl, written_update Conn.written_send⟩
  case registered mid _ | replaced mid _ _ =>
    have unused : (σ.agentConns (σ.newAgent mid).2).written = [] := by
      rw [h.agent (Nat.le_refl _)]
      rfl
    exact ⟨written_update (unused ▸ List.nil_prefix), List.prefix_rfl⟩
  case attached sid p _ =>
    have unused : (σ.sessConns (σ.newSession sid p.mid).2).written = [] := by
      rw [h.sess (Nat.le_refl _)]
      rfl
    exact ⟨List.prefix_rfl, written_update (unused ▸ List.nil_prefix)⟩
  all_goals exact ⟨List.prefix_rfl, List.prefix_rfl⟩

theorem start_written (e : start σ r = some (σ', ops)) :
    (σ.agentConns ac).written <+: (σ'.agentConns ac).written ∧
      (σ.sessConns s).written <+: (σ'.sessConns s).written := by
  cases r <;> cases e
  case drainAgent => exact ⟨written_update Conn.written_drain, List.prefix_rfl⟩
  case drainSess  => exact ⟨List.prefix_rfl, written_update Conn.written_drain⟩
  all_goals exact ⟨List.prefix_rfl, List.prefix_rfl⟩

theorem written_step (h : (program sha256).system.Reachable c)
    (e : (program sha256).system.step c l = some c') :
    (c.shared.agentConns ac).written <+: (c'.shared.agentConns ac).written ∧
      (c.shared.sessConns s).written <+: (c'.shared.sessConns s).written := by
  replace e := Step.of e
  cases e
  case start e => exact start_written e
  case step e  => exact (Exec.of e).written (unused_reachable h)

theorem log_step (e : (program sha256).system.step c l = some c') : c.shared.log <:+ c'.shared.log := by
  replace e := Step.of e
  cases e
  case start e =>
    have ⟨_, _, _, log⟩ := start_shared e
    exact log ▸ List.suffix_refl _
  case step e => exact (Exec.of e).log_suffix

-- The log has what was read.

theorem said_cons {e : Event} : said ac (e :: log) = said ac log ++ (e.said ac).toList := by
  unfold said
  cases h : e.said ac <;> simp [h]

theorem said_suffix (h : log <:+ log') : said ac log <+: said ac log' :=
  List.reverse_prefix.mpr (h.filterMap _)

theorem said_eq_some {e : Event} : e.said ac = some f ↔ e = .read ac f ∧ f.t ≠ "hb" := by
  cases e
  case read a f' =>
    simp only [Event.said, Option.ite_none_right_eq_some, Option.some.injEq, Event.read.injEq]
    constructor
    case mp =>
      rintro ⟨⟨rfl, ht⟩, rfl⟩
      exact ⟨⟨rfl, rfl⟩, ht⟩
    case mpr =>
      rintro ⟨⟨rfl, rfl⟩, ht⟩
      exact ⟨⟨rfl, ht⟩, rfl⟩
  all_goals simp [Event.said]

theorem mem_said : f ∈ said ac log ↔ .read ac f ∈ log ∧ f.t ≠ "hb" := by
  simp [said, said_eq_some]

theorem agentReads_of_ne (head : c.procs t = op :: rest) (h : ∀ a, op ≠ .readAgent a) :
    agentReads ac c (.step t i) = [] := by
  cases i
  case frame f =>
    simp only [agentReads, head, List.head?_cons]
    split
    case h_1 he => exact absurd (Option.some.inj he) (h _)
    case h_2    => rfl
  all_goals rfl

theorem said_observed (h : (program sha256).system.Observed (agentReads ac) seen c) :
    said ac c.shared.log = seen := by
  refine h.invariant (I := fun seen c => said ac c.shared.log = seen) ?_ ?_
  case refine_1 =>
    rintro c ⟨⟨st, now, hs⟩, _⟩
    simp [hs, said]
  case refine_2 =>
    intro seen c l c' hr hi e
    replace e := Step.of e
    cases e
    case start e =>
      have ⟨_, _, _, log⟩ := start_shared e
      simpa [agentReads, log] using hi
    case step t i op rest σ' ops head e =>
      rw [Config.resume_shared]
      by_cases hop : ∃ a, op = .readAgent a
      case neg =>
        rw [agentReads_of_ne head fun a ha => hop ⟨a, ha⟩, List.append_nil]
        replace e := Exec.of e
        cases e
        case agentRead a _ | agentLost a => exact absurd ⟨a, rfl⟩ hop
        all_goals exact hi
      case pos =>
        obtain ⟨a, rfl⟩ := hop
        cases i <;> cases e
        case frame f =>
          refine said_cons.trans ?_
          by_cases ht : a = ac ∧ f.t ≠ "hb" <;> simp [agentReads, head, Event.said, hi, ht]
        case done | failed => simpa [agentReads] using hi

-- What is routed to the browser, when only one agent sent frames of its session.
theorem outs_eq_said (h : Only σ s ac) (hl : log <:+ σ.log) :
    outs s.sid log = (said ac log).filterMap (routed s.sid) := by
  rw [outs, said, List.filterMap_reverse, List.filterMap_filterMap]
  refine congrArg List.reverse (List.filterMap_congr fun e he => ?_)
  cases e
  case read a f =>
    by_cases hf : f.t = "out" ∧ f.sid = s.sid
    case neg =>
      simp only [Event.out, if_neg hf, Event.said]
      split <;> simp [routed, hf]
    case pos =>
      have same : a = ac := h a f (hl.mem he) (.inl hf.left) hf.right
      simp [Event.out, Event.said, routed, hf, same]
  all_goals simp [Event.out, Event.said]

end Broker
