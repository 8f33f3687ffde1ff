import Mathlib.Data.List.TakeWhile
import Popfleet.Broker.Theorems.Opens

open Proto Store Program

namespace Broker

-- What a browser may be told by the broker itself.
def banners : List String :=
  ["agent reconnected", "agent went offline", "machine revoked",
    "session dropped: browser too slow", "agent is offline"]

-- A frame that ends a session: the agent sent it, or it is a banner.
def Ends (σ : State) (s : Session) (m : Msg) : Prop :=
  m.t = "exit" ∨ m.t = "err" ∧
    (m.msg ∈ banners ∨ ∃ ac f, .read ac f ∈ σ.log ∧ f.t = "err" ∧ f.sid = s.sid ∧ f.msg = m.msg)

-- What a section tells a browser.
def Op.Tells (σ : State) : Op → Prop
  | .toBrowser _ _ m         => m.t = "out"
  | .sendBrowser _ m         => m.t = "out"
  | .closeSess s (some m)    => Ends σ s m
  | .endSession _ (some m) _ => m.t = "err" ∧ m.msg ∈ banners
  | .dropAgent _ why         => why ∈ banners
  | _                        => True

def Tells (σ : State) : Prop :=
  ∀ {s m}, m ∈ (σ.sessConns s).out → m.t = "out" ∨ Ends σ s m

-- Only one agent sent frames of the session.
def Only (σ : State) (s : Session) (ac : AgentConn) : Prop :=
  ∀ a f, .read a f ∈ σ.log → f.t = "out" ∨ f.t = "exit" ∨ f.t = "err" → f.sid = s.sid → a = ac

-- None of them was read before the session was attached.
def Timely (s : Session) (ac : AgentConn) (c : Config State Op) (_ : Label Req Input) : Prop :=
  Only c.shared s ac ∧ c.shared.outsBefore s = []

-- The agent's exit frame was read by then, and what had been read of its output is on the queue.
def Complete (σ : State) (s : Session) (ac : AgentConn) (m : Msg) : Prop :=
  ∃ log f, log <:+ σ.log ∧ .read ac f ∈ log ∧ f.t = "exit" ∧ f.sid = s.sid ∧ f.code = m.code ∧
    (σ.sessConns s).out.filter (·.t = "out") = outs s.sid log

-- The thread that ends a session for its agent goes on to serve it.
def Op.Serves (s : Session) (ac : AgentConn) (o o' : Op) : Prop :=
  o' = .readAgent ac ∧ ((∃ f, o = .ended ac f) ∨ ∃ m, o = .closeSess s (some m) ∧ m.t = "exit")

structure Ending (s : Session) (ac : AgentConn) (c : Config State Op) : Prop where
  closing : ∀ t m, .closeSess s (some m) ∈ c.procs t → m.t = "exit" →
    (c.shared.sessConns s).closed = false → Complete c.shared s ac m
  ended   : ∀ m ∈ (c.shared.sessConns s).out, m.t = "exit" → Complete c.shared s ac m

variable {sha256 : String → Digest} {σ σ' : State} {op : Op} {i : Input} {ops rest : List Op}
  {r : Req} {c c' : Config State Op} {l : Label Req Input} {t : Tid} {ac : AgentConn} {s : Session}
  {m : Msg}

theorem Ends.mono (hl : σ.log <:+ σ'.log) (h : Ends σ s m) : Ends σ' s m :=
  h.imp_right fun ⟨ht, h⟩ => ⟨ht, h.imp_right fun ⟨ac, f, hf, h⟩ => ⟨ac, f, hl.mem hf, h⟩⟩

theorem Ends.banner {msg : String} (h : msg ∈ banners) : Ends σ s { t := "err", msg } :=
  .inr ⟨rfl, .inl h⟩

theorem Op.Tells.mono (hl : σ.log <:+ σ'.log) (h : op.Tells σ) : op.Tells σ' := by
  cases op
  case closeSess final =>
    cases final
    case none => trivial
    case some => exact Ends.mono hl h
  case endSession final _ => cases final <;> exact h
  all_goals exact h

theorem Exec.ops_tells (e : Exec sha256 σ op i σ' ops) (wf : WellFormed σ) (hg : op.Grounded σ)
    (ho : op.Tells σ) : ∀ o ∈ ops, o.Tells σ' := by
  cases e <;> simp only [List.cons_append, List.forall_mem_cons, List.forall_mem_append,
    List.forall_mem_map, List.not_mem_nil, IsEmpty.forall_iff, implies_true, and_true]
  case registered => exact ⟨trivial, trivial⟩
  case replaced => exact ⟨trivial, fun _ _ => .banner (by simp [banners]), trivial, trivial⟩
  case agentRead => exact ⟨forall_handleAgent trivial (fun _ => rfl) (fun _ => trivial), trivial⟩
  case agentLost => simp [Op.Tells, banners]
  case routed => exact ho
  case browserSlow => simp [Op.Tells, banners]
  case notOpened => simp [Op.Tells, banners]
  case ended f s' hs _ =>
    have ⟨read, tag⟩ := hg
    have sid := (wf.sess hs).left
    unfold endedMsg
    split
    case isTrue ht  => exact .inr ⟨rfl, .inr ⟨_, f, read, ht, sid.symm, rfl⟩⟩
    case isFalse ht => exact .inl rfl
  case dropped => exact ⟨trivial, fun _ _ => .banner ho⟩
  case sessEnded final _ _ _ close | goneEnded final _ _ _ close =>
    refine ⟨?_, forall_close close fun _ _ => trivial⟩
    cases final
    case none => trivial
    case some => exact .inr ⟨ho.left, .inl ho.right⟩
  case termRead => exact ⟨forall_handleTerm trivial trivial, trivial⟩
  case knownToken => exact ⟨trivial, trivial⟩
  case deleted => exact ⟨trivial, trivial⟩
  case onlineRevoked => simp [Op.Tells, banners]
  all_goals trivial

theorem Tells.exec (e : Exec sha256 σ op i σ' ops) (ho : op.Tells σ) (h : Tells σ) : Tells σ' := by
  intro s m hm
  have old (hm : m ∈ (σ.sessConns s).out) : m.t = "out" ∨ Ends σ' s m :=
    (h hm).imp_right (.mono e.log_suffix)
  by_cases hn : ∃ sid p ac, op = .attach sid p ac ∧ s = (σ.newSession sid p.mid).2
  case pos =>
    obtain ⟨sid, p, ac, rfl, rfl⟩ := hn
    cases e
    simp [State.record, State.newSession] at hm
  case neg =>
    rcases e.sessConns_cases fun sid p ac hop hs => hn ⟨sid, p, ac, hop, hs⟩ with
      same | ⟨final, rfl, close⟩ | ⟨m', rfl, send⟩
    case inl => exact old (same ▸ hm)
    case inr.inl =>
      by_cases hc : (σ.sessConns s).closed
      case pos =>
        rw [close, Conn.close_of_closed hc] at hm
        exact old hm
      case neg =>
        rw [close, Conn.close_out (Bool.eq_false_iff.mpr hc)] at hm
        rcases List.mem_append.mp hm with hm | hm
        case inl => exact old hm
        case inr =>
          split at hm
          case isTrue => contradiction
          case isFalse =>
            cases Option.mem_toList.mp hm
            exact .inr (Ends.mono e.log_suffix ho)
    case inr.inr =>
      rw [send] at hm
      rcases Conn.mem_send hm with hm | rfl
      case inl => exact old hm
      case inr => exact .inl ho

theorem tells_reachable (h : (program sha256).system.Reachable c) :
    Tells c.shared ∧ ∀ o, c.Pending o → o.Tells c.shared := by
  refine section_invariant (P := program sha256) (I := @Tells) (A := Op.Tells)
    (R := fun σ σ' => σ.log <:+ σ'.log) ?_ ?_ ?_ ?_ h
  case refine_1 =>
    rintro σ ⟨st, now, rfl⟩ s m hm
    simp at hm
  case refine_2 =>
    intro σ r σ' ops h e
    have ⟨_, _, _, log⟩ := start_shared e
    have grown : σ.log <:+ σ'.log := log ▸ List.suffix_refl _
    refine ⟨fun {s m} hm => ?_, grown, ?_⟩
    case refine_1 => exact (h ((start_sessConns e).left ▸ hm)).imp_right (.mono grown)
    case refine_2 =>
      cases r <;> cases e
      case wsAgent => split <;> simp [Op.Tells]
      all_goals simp [Op.Tells]
  case refine_3 =>
    intro c t i op _ σ' ops hr _ head h ho e
    have pending : c.Pending op := ⟨t, head ▸ List.mem_cons_self⟩
    replace e := Exec.of e
    exact ⟨Tells.exec e ho h, e.log_suffix,
      e.ops_tells (wellFormed_reachable hr).left ((grounded_reachable hr).right op pending) ho⟩
  case refine_4 => exact fun _ _ _ _ hl ho => ho.mono hl

-- What was read of a session by only one agent in a state, was so before.

theorem Only.of_suffix (hl : σ.log <:+ σ'.log) (h : Only σ' s ac) : Only σ s ac :=
  fun a f hf => h a f (hl.mem hf)

theorem Only.sole (h : Only σ s ac) : Sole σ s ac :=
  fun a f hf ht => h a f hf (.inl ht)

theorem outsBefore_of_unattached (h : s ∉ σ.attaches) : σ.outsBefore s = [] := by
  have none : σ.log.dropWhile (· ≠ .attached s) = [] := by
    rw [List.dropWhile_eq_nil_iff]
    intro e he
    refine decide_eq_true fun hs => h ?_
    exact List.mem_filterMap.mpr ⟨e, he, by rw [hs]⟩
  rw [State.outsBefore, none]
  rfl

theorem Exec.outsBefore (e : Exec sha256 σ op i σ' ops) (handles : Handles σ)
    (h : σ'.outsBefore s = []) : σ.outsBefore s = [] := by
  rcases e.log_cases with same | ⟨ev, log, _, attached⟩
  case inl => simpa only [State.outsBefore, same] using h
  case inr =>
    by_cases hs : ev = .attached s
    case neg => exact outsBefore_cons log hs ▸ h
    case pos =>
      obtain ⟨sid, p, a, _, rfl⟩ := attached s hs
      exact outsBefore_of_unattached fun ha => Nat.lt_irrefl _ (handles.attaches ha)

theorem timely_of_reachable (h : (program sha256).system.Reachable c) (only : Only c.shared s ac)
    (before : c.shared.outsBefore s = []) :
    (program sha256).system.ReachableUnder (Timely s ac) c := by
  induction h
  case init hi => exact .init hi
  case step c l c' hr _ e hi =>
    have graph := Step.of e
    cases graph
    case start e' =>
      have ⟨_, _, _, log⟩ := start_shared e'
      have only : Only c.shared s ac := only.of_suffix (log ▸ List.suffix_refl _)
      have before : c.shared.outsBefore s = [] := by
        simpa only [State.outsBefore, Config.resume_shared, log] using before
      exact .step (hi only before) ⟨only, before⟩ e
    case step e' =>
      have only := only.of_suffix (Exec.of e').log_suffix
      have before := (Exec.of e').outsBefore (handles_reachable hr).left before
      exact .step (hi only before) ⟨only, before⟩ e

theorem outs_eq (h : σ.outsBefore s = []) : outs s.sid σ.log = σ.outsSince s := by
  rw [State.outsBefore, outs, List.reverse_eq_nil_iff] at h
  have split := List.takeWhile_append_dropWhile (p := fun e => decide (e ≠ .attached s)) (l := σ.log)
  rw [State.outsSince, outs, outs, ← split, List.filterMap_append, h, List.append_nil, split]

theorem tag_of_mem_outs {sid : String} {log : List Event} (hm : m ∈ outs sid log) : m.t = "out" := by
  obtain ⟨e, _, he⟩ := List.mem_filterMap.mp (List.mem_reverse.mp hm)
  unfold Event.out at he
  split at he
  case h_2 => contradiction
  case h_1 =>
    have ⟨_, he⟩ := Option.ite_none_right_eq_some.mp he
    cases he
    rfl

-- The queue of a browser of which nothing was read too early.
theorem Queued.filter_out {pre k : List Msg} {final : Option Msg} (h : Queued σ s pre k final)
    (before : σ.outsBefore s = []) :
    (σ.sessConns s).out.filter (·.t = "out") = k ∧ k <+: outs s.sid σ.log := by
  have none : pre = [] := List.suffix_nil.mp (before ▸ h.before)
  have gapless : k <+: σ.outsSince s := by simpa [none] using h.gapless
  have only : k.filter (·.t = "out") = k :=
    List.filter_eq_self.mpr fun m hm => decide_eq_true (tag_of_mem_outs (gapless.subset hm))
  have last : final.toList.filter (·.t = "out") = [] := by
    refine List.filter_eq_nil_iff.mpr fun m hm => ?_
    rcases (h.final m (Option.mem_toList.mp hm)).left with ht | ht <;> simp [ht]
  rw [h.out, List.filter_append, only, last, List.append_nil, outs_eq before]
  exact ⟨rfl, gapless⟩

-- The thread that ends a session for its agent.

theorem serves_quiet {o o' : Op} (ho : ∀ f, o ≠ .ended ac f)
    (hc : ∀ m, o = .closeSess s (some m) → m.t ≠ "exit") : ¬o.Serves s ac o' := by
  rintro ⟨_, ⟨f, rfl⟩ | ⟨m, rfl, ht⟩⟩
  case inl => exact ho f rfl
  case inr => exact hc m rfl ht

theorem Exec.ops_serves (e : Exec sha256 σ op i σ' ops) (only : Only σ s ac) (wf : WellFormed σ)
    (hg : op.Grounded σ) (hf : Followed (Op.Serves s ac) (op :: rest))
    (ht : op.Tells σ) : Followed (Op.Serves s ac) (ops ++ rest) := by
  obtain ⟨calls, hf⟩ := hf
  have other (h : ∀ o ∈ ops, (∀ f, o ≠ .ended ac f) ∧ ∀ m, o = .closeSess s (some m) → m.t ≠ "exit") :
      Followed (Op.Serves s ac) (ops ++ rest) :=
    hf.append fun o ho o' => serves_quiet (h o ho).left (h o ho).right
  cases e
  case agentRead a f =>
    have loop : Followed (Op.Serves s ac) (handleAgent a f ++ [.readAgent a]) := by
      refine Followed.append_of_mem ?_ ⟨fun _ hc => ?_, trivial⟩
      case refine_2 => exact absurd hc (serves_quiet (by simp) (by simp))
      case refine_1 =>
        refine forall_handleAgent ?_ (fun _ => ?_) (fun _ => ?_)
        case refine_1 => exact fun _ hc => absurd hc (serves_quiet (by simp) (by simp))
        case refine_2 => exact fun _ hc => absurd hc (serves_quiet (by simp) (by simp))
        case refine_3 =>
          rintro _ ⟨rfl, ⟨f', he⟩ | ⟨_, he, _⟩⟩
          case inr => contradiction
          case inl =>
            cases he
            exact List.mem_singleton_self _
    exact loop.append_followed hf
  case ended a f s' hs hm =>
    refine Followed.append_of_mem (fun o ho o' hc => ?_) hf
    cases List.mem_singleton.mp ho
    obtain ⟨rfl, ⟨_, he⟩ | ⟨m, he, hx⟩⟩ := hc
    case inl => contradiction
    case inr =>
      cases he
      have ⟨read, tag⟩ := hg
      obtain rfl : a = ac := only a f read (.inr tag) (wf.sess hs).left.symm
      exact calls _ ⟨rfl, .inl ⟨f, rfl⟩⟩
  case replaced =>
    refine other (List.forall_mem_append.mpr ⟨List.forall_mem_cons.mpr ⟨by simp, ?_⟩, by simp⟩)
    exact List.forall_mem_map.mpr fun _ _ => ⟨by simp, by rintro _ ⟨⟩; simp⟩
  case dropped =>
    refine other (List.forall_mem_cons.mpr ⟨by simp, ?_⟩)
    exact List.forall_mem_map.mpr fun _ _ => ⟨by simp, by rintro _ ⟨⟩; simp⟩
  case termRead =>
    exact other (List.forall_mem_append.mpr ⟨forall_handleTerm (by simp) (by simp), by simp⟩)
  case sessEnded final _ _ _ close | goneEnded final _ _ _ close =>
    refine other (List.forall_mem_cons.mpr ⟨⟨by simp, ?_⟩, forall_close close fun _ _ => by simp⟩)
    rintro m ⟨⟩
    simp [ht.left]
  all_goals exact other (by simp)

theorem serves_reachable (h : (program sha256).system.ReachableUnder (Timely s ac) c) (t : Tid) :
    Followed (Op.Serves s ac) (c.procs t) := by
  refine (thread_invariant (P := program sha256) (I := fun _ => True)
    (B := fun _ => Followed (Op.Serves s ac)) (R := fun _ _ => True) ?_ ?_ ?_ ?_ ?_ h).right t
  case refine_1 => exact fun _ _ => trivial
  case refine_2 => exact fun _ => trivial
  case refine_3 =>
    intro σ r σ' ops _ e
    refine ⟨trivial, trivial, ?_⟩
    cases r <;> cases e
    case wsAgent => split <;> simp [Followed, Op.Serves]
    all_goals simp [Followed, Op.Serves]
  case refine_4 =>
    intro c t i op rest σ' ops hr timely head _ hf e
    have pending : c.Pending op := ⟨t, head ▸ List.mem_cons_self⟩
    have hr := hr.reachable
    exact ⟨trivial, trivial, (Exec.of e).ops_serves timely.left (wellFormed_reachable hr).left
      ((grounded_reachable hr).right op pending) hf ((tells_reachable hr).right op pending)⟩
  case refine_5 => exact fun _ _ _ _ _ h => h

theorem Complete.mono (hl : σ.log <:+ σ'.log)
    (out : (σ'.sessConns s).out.filter (·.t = "out") = (σ.sessConns s).out.filter (·.t = "out"))
    (h : Complete σ s ac m) : Complete σ' s ac m :=
  have ⟨log, f, hs, hf⟩ := h
  ⟨log, f, hs.trans hl, by rwa [out]⟩

namespace Ending

-- A thread that still serves the agent is the one that serves it.
theorem server_eq {pre k : List Msg} {final : Option Msg} {server : Option Tid}
    (stream : Stream s ac pre k final server c) (ht : .readAgent ac ∈ c.procs t) : server = some t := by
  by_contra hs
  exact stream.quiet t hs _ ht rfl

-- The agent ends its session, whose output so far is on the queue.
theorem ended_complete {f : Msg} {pre k : List Msg} {final : Option Msg} {server : Option Tid}
    (stream : Stream s ac pre k final server c) (head : c.procs t = .ended ac f :: rest)
    (serves : Followed (Op.Serves s ac) (c.procs t)) (before : c.shared.outsBefore s = [])
    (read : .read ac f ∈ c.shared.log) (hf : f.t = "exit") (alive : c.shared.Alive s ac)
    (sid : f.sid = s.sid) : Complete c.shared s ac (endedMsg f) := by
  have serving := stream.serving t <| server_eq stream <|
    serves.mem (head ▸ List.mem_cons_self) ⟨rfl, .inl ⟨f, rfl⟩⟩
  rw [head] at serving
  have whole : k = pre ++ c.shared.outsSince s := by
    generalize hl : Op.ended ac f :: rest = l at serving
    cases serving
    case reading h => exact h alive
    case routing | sending | slow => simp at hl
  have none : pre = [] := List.suffix_nil.mp (before ▸ stream.queued.before)
  refine ⟨_, f, List.suffix_refl _, read, hf, sid, by simp [endedMsg, hf], ?_⟩
  rw [(stream.queued.filter_out before).left, whole, none, List.nil_append, outs_eq before]

-- Only a frame of the agent ends a session with exit.
theorem of_exit (e : Exec sha256 σ op i σ' ops) (tells : op.Tells σ) (hm : .closeSess s (some m) ∈ ops)
    (hx : m.t = "exit") : ∃ a f, op = .ended a f := by
  have err {msg : String} (hm : { t := "err", msg : Msg } = m) : ∃ a f, op = .ended a f := by
    simp [← hm] at hx
  cases e
  case ended a f _ _ _ => exact ⟨a, f, rfl⟩
  case replaced | dropped =>
    simp only [List.mem_cons, List.cons_append, List.mem_append, List.mem_map, reduceCtorEq, false_or,
      Op.closeSess.injEq, Option.some.injEq, List.not_mem_nil, or_false] at hm
    obtain ⟨_, _, _, hm⟩ := hm
    exact err hm
  case sessEnded final _ _ _ close | goneEnded final _ _ _ close =>
    rcases List.mem_cons.mp hm with hm | hm
    case inl =>
      cases hm
      exact absurd (hx.symm.trans tells.left) (by decide)
    case inr =>
      obtain ⟨_, _, he⟩ := close _ hm
      contradiction
  case agentRead a f =>
    have none : ∀ o ∈ handleAgent a f, o ≠ .closeSess s (some m) :=
      forall_handleAgent (by simp) (by simp) (by simp)
    simpa using (List.mem_append.mp hm).resolve_left fun hm => none _ hm rfl
  case termRead s' a f =>
    have none : ∀ o ∈ handleTerm s' a f, o ≠ .closeSess s (some m) :=
      forall_handleTerm (by simp) (by simp)
    simpa using (List.mem_append.mp hm).resolve_left fun hm => none _ hm rfl
  all_goals simp at hm

-- The sections that do not change the queue.
theorem same (e : Exec sha256 c.shared op i σ' ops) (head : c.procs t = op :: rest)
    (conn : σ'.sessConns s = c.shared.sessConns s)
    (new : ∀ m, .closeSess s (some m) ∈ ops → m.t = "exit" → (c.shared.sessConns s).closed = false →
      Complete c.shared s ac m)
    (h : Ending s ac c) : Ending s ac (c.resume t σ' (ops ++ rest)) := by
  have kept {m : Msg} (hm : Complete c.shared s ac m) : Complete σ' s ac m :=
    hm.mono e.log_suffix (by rw [conn])
  refine ⟨fun t' m hm ht hc => kept ?_, fun m hm ht => kept (h.ended m (conn ▸ hm) ht)⟩
  replace hc : (c.shared.sessConns s).closed = false := conn ▸ hc
  rw [Config.resume_procs] at hm
  split at hm
  case isFalse => exact h.closing t' m hm ht hc
  case isTrue =>
    rcases List.mem_append.mp hm with hm | hm
    case inl => exact new m hm ht hc
    case inr => exact h.closing t m (head ▸ List.mem_cons_of_mem _ hm) ht hc

theorem closed {final : Option Msg} (e : Exec sha256 c.shared (.closeSess s final) i σ' ops)
    (head : c.procs t = .closeSess s final :: rest) (tells : (Op.closeSess s final).Tells c.shared)
    (conn : σ'.sessConns s = (c.shared.sessConns s).close final) (h : Ending s ac c) :
    Ending s ac (c.resume t σ' (ops ++ rest)) := by
  by_cases hc : (c.shared.sessConns s).closed
  case pos =>
    refine h.same e head (conn.trans (Conn.close_of_closed hc)) fun _ _ _ hn => ?_
    simp [hc] at hn
  case neg =>
    have hc := Bool.eq_false_iff.mpr hc
    have out : (σ'.sessConns s).out = (c.shared.sessConns s).out ++
        if (c.shared.sessConns s).full then [] else final.toList := by
      rw [conn, Conn.close_out hc]
    have tag {m : Msg} (hm : m ∈ final) : m.t ≠ "out" := by
      cases hm
      rcases tells with ht | ⟨ht, _⟩ <;> simp [ht]
    have filter : (σ'.sessConns s).out.filter (·.t = "out") =
        (c.shared.sessConns s).out.filter (·.t = "out") := by
      rw [out, List.filter_append, List.append_right_eq_self]
      refine List.filter_eq_nil_iff.mpr fun m hm => ?_
      split at hm
      case isTrue  => contradiction
      case isFalse => simpa using tag (Option.mem_toList.mp hm)
    have kept {m : Msg} (hm : Complete c.shared s ac m) : Complete σ' s ac m :=
      hm.mono e.log_suffix filter
    refine ⟨fun _ _ _ _ hn => ?_, fun m hm ht => kept ?_⟩
    case refine_1 => simp [conn] at hn
    case refine_2 =>
      rw [Config.resume_shared, out] at hm
      rcases List.mem_append.mp hm with hm | hm
      case inl => exact h.ended m hm ht
      case inr =>
        split at hm
        case isTrue => contradiction
        case isFalse =>
          cases Option.mem_toList.mp hm
          exact h.closing t m (head ▸ List.mem_cons_self) ht hc

-- More output is enqueued by the thread that serves the agent, which is not about to end the session.
theorem sent {pre k : List Msg} {final : Option Msg} {server : Option Tid}
    (stream : Stream s ac pre k final server c) (e : Exec sha256 c.shared (.sendBrowser s m) i σ' ops)
    (head : c.procs t = .sendBrowser s m :: rest) (serves : ∀ t, Followed (Op.Serves s ac) (c.procs t))
    (tells : (Op.sendBrowser s m).Tells c.shared)
    (conn : σ'.sessConns s = ((c.shared.sessConns s).send m).1) (h : Ending s ac c) :
    Ending s ac (c.resume t σ' (ops ++ rest)) := by
  have new (m' : Msg) (hm : .closeSess s (some m') ∈ ops) : Complete c.shared s ac m' := by
    cases e <;> simp at hm
  cases hs : ((c.shared.sessConns s).send m).2
  case false =>
    have unsent : σ'.sessConns s = c.shared.sessConns s := by
      rw [conn]
      unfold Conn.send at hs ⊢
      split at hs <;> simp_all
    exact h.same e head unsent fun m' hm _ _ => new m' hm
  case true =>
    have ⟨opened, _⟩ := Conn.send_eq_true hs
    have out := Conn.send_out hs
    have unended := stream.queued.unended opened
    have queued := stream.queued.out
    have server := stream.server_eq head fun hq => hq rfl
    have serving := stream.serving t server
    rw [head] at serving
    obtain ⟨⟨rest', rfl, quiet⟩, _⟩ := serving.of_send
    refine ⟨fun t' m' hm ht _ => ?_, fun m' hm ht => ?_⟩
    case refine_1 =>
      have here : .closeSess s (some m') ∈ c.procs t' := by
        rw [Config.resume_procs] at hm
        split at hm
        case isFalse => exact hm
        case isTrue he =>
          rcases List.mem_append.mp hm with hm | hm
          case inl => cases e <;> simp at hm
          case inr => exact he ▸ head ▸ List.mem_cons_of_mem _ hm
      have same : t' = t := by
        have reads := (serves t').mem here ⟨rfl, .inr ⟨m', rfl, ht⟩⟩
        exact Option.some.inj ((server_eq stream reads).symm.trans server)
      have ⟨_, _, followed⟩ := head ▸ serves t
      rw [same, head] at here
      have last : .closeSess s (some m') ∈ rest' := by simpa using here
      exact absurd rfl (quiet _ (followed.mem last ⟨rfl, .inr ⟨m', rfl, ht⟩⟩))
    case refine_2 =>
      exfalso
      rw [Config.resume_shared, conn, out, queued, unended, Option.toList_none, List.append_nil] at hm
      rcases List.mem_append.mp hm with hm | hm
      case inl =>
        have tag : m'.t = "out" := by
          rcases List.mem_append.mp (stream.queued.gapless.subset hm) with hm | hm
          case inl => exact tag_of_mem_outs (stream.queued.before.subset hm)
          case inr => exact tag_of_mem_outs hm
        simp [tag] at ht
      case inr =>
        rw [List.mem_singleton.mp hm] at ht
        exact absurd (ht.symm.trans tells) (by decide)

theorem step (hr : (program sha256).system.Reachable c) (timely : Timely s ac c l)
    (serves : ∀ t, Followed (Op.Serves s ac) (c.procs t)) (e : Exec sha256 c.shared op i σ' ops)
    (head : c.procs t = op :: rest) (h : Ending s ac c) :
    Ending s ac (c.resume t σ' (ops ++ rest)) := by
  obtain ⟨only, before⟩ := timely
  have pending : c.Pending op := ⟨t, head ▸ List.mem_cons_self⟩
  have wf := (wellFormed_reachable hr).left
  have tells := (tells_reachable hr).right op pending
  obtain ⟨_, _, _, _, stream, _⟩ := stream_reachable hr only.sole
  by_cases hn : ∃ sid p a, op = .attach sid p a ∧ s = (c.shared.newSession sid p.mid).2
  case pos =>
    obtain ⟨sid, p, a, rfl, hs⟩ := hn
    have ptr : ¬s.ptr < c.shared.next := by rw [hs]; exact Nat.lt_irrefl _
    have unknown (t' : Tid) (m : Msg) : .closeSess s (some m) ∉ c.procs t' := fun ho =>
      ptr ((handles_reachable hr).left.attaches ((known_reachable hr).right _ ⟨t', ho⟩ s rfl))
    have out : (σ'.sessConns s).out = [] := by
      cases e
      simp [State.record, State.newSession, hs]
    refine ⟨fun t' m hm _ _ => ?_, fun m hm => ?_⟩
    case refine_2 => simp [out] at hm
    case refine_1 =>
      rw [Config.resume_procs] at hm
      split at hm
      case isFalse => exact absurd hm (unknown t' m)
      case isTrue =>
        rcases List.mem_append.mp hm with hm | hm
        case inl => cases e; simp at hm
        case inr => exact absurd (head ▸ List.mem_cons_of_mem _ hm) (unknown t m)
  case neg =>
    rcases e.sessConns_cases fun sid p a hop hs => hn ⟨sid, p, a, hop, hs⟩ with
      conn | ⟨final, rfl, conn⟩ | ⟨m, rfl, conn⟩
    case inr.inl => exact h.closed e head tells conn
    case inr.inr => exact sent stream e head serves tells conn h
    case inl =>
      refine h.same e head conn fun m hm ht hc => ?_
      obtain ⟨a, f, rfl⟩ := of_exit e tells hm ht
      cases e
      case notEnded => simp at hm
      case ended s' hm' hs =>
        cases List.mem_singleton.mp hm
        obtain ⟨read, tag⟩ := (grounded_reachable hr).right _ pending
        have sid := (wf.sess hs).left.symm
        obtain rfl : a = ac := only a f read (.inr tag) sid
        have exit : f.t = "exit" := by
          refine tag.resolve_right fun he => ?_
          simp [endedMsg, he] at ht
        exact ended_complete stream head (serves t) before read exit ⟨hc, sid ▸ hs, hm'⟩ sid

theorem start (e : Broker.start c.shared r = some (σ', ops)) (h : Ending s ac c) :
    Ending s ac (c.resume t σ' ops) := by
  have ⟨_, _, _, log⟩ := start_shared e
  have ⟨out, closed⟩ := @start_sessConns _ _ _ _ s e
  have kept {m : Msg} (hm : Complete c.shared s ac m) : Complete σ' s ac m :=
    hm.mono (log ▸ List.suffix_refl _) (by rw [out])
  refine ⟨fun t' m hm ht hc => kept ?_, fun m hm ht => kept (h.ended m (out ▸ hm) ht)⟩
  rw [Config.resume_procs] at hm
  split at hm
  case isFalse => exact h.closing t' m hm ht (closed ▸ hc)
  case isTrue =>
    cases r <;> cases e
    case wsAgent =>
      split at hm <;> simp at hm
    all_goals simp at hm

end Ending

theorem ending_reachable (h : (program sha256).system.ReachableUnder (Timely s ac) c) :
    Ending s ac c := by
  refine h.invariant (I := Ending s ac) ?_ ?_
  case refine_1 =>
    rintro c ⟨⟨st, now, hs⟩, hp⟩
    refine ⟨fun t m hm => ?_, fun m hm => ?_⟩
    case refine_1 => simp [hp] at hm
    case refine_2 => simp [hs] at hm
  case refine_2 =>
    intro c l c' hr hi timely e
    replace e := Step.of e
    cases e
    case start e => exact hi.start e
    case step head e =>
      exact hi.step hr.reachable timely (serves_reachable hr) (Exec.of e) head

end Broker
