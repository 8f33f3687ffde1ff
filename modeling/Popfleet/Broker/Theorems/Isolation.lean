import Popfleet.Broker.Theorems.WellFormed

open Proto Store Program

namespace Broker

-- The sections of the `wsAgent` handler of a machine, once the token is known.
def Op.Within (mid : String) : Op → Prop
  | .touch .. | .closeAgent _ | .sendAgent .. => True
  | .register mid'      => mid' = mid
  | .readAgent ac       => ac.mid = mid
  | .closeSess s _      => s.mid = mid
  | .toBrowser ac _ _   => ac.mid = mid
  | .sendBrowser s _    => s.mid = mid
  | .ended ac _         => ac.mid = mid
  | .dropAgent ac _     => ac.mid = mid
  | .endSession s _ _   => s.mid = mid
  | _                   => False

-- The sections that only `wsAgent` has before and in its frame loop.
def Op.OfAgent : Op → Prop
  | .byToken _ | .register _ | .readAgent _ => True
  | _                                       => False

-- The threads of `wsAgent` stay within their machine, the others never run what only `wsAgent` has.
inductive Isolated : List Op → Prop
  | hello (hello : Msg) : Isolated [.byToken hello]
  | agent (mid : String) {ops : List Op} (h : ∀ o ∈ ops, Op.Within mid o) : Isolated ops
  | other {ops : List Op} (h : ∀ o ∈ ops, ¬o.OfAgent) : Isolated ops

-- A session is left alone: its connection is as it was and no key of the map loses it.
def Untouched (s : Session) (σ σ' : State) : Prop :=
  σ'.sessConns s = σ.sessConns s ∧ ∀ {sid}, σ.sess.get? sid = some s → σ'.sess.get? sid = some s

variable {sha256 : String → Digest} {σ σ' : State} {op : Op} {i : Input} {ops rest : List Op}
  {r : Req} {c c' : Config State Op} {l : Label Req Input} {t : Tid} {mid : String}
  {ac a : AgentConn} {s : Session} {m m' : Msg}

theorem Exec.untouched (e : Exec sha256 σ op i σ' ops) (ho : op.Within mid) (hs : s.mid ≠ mid) :
    Untouched s σ σ' := by
  -- Closing or filling the queue of another session.
  have update {s' : Session} {q : Conn} (h : s'.mid = mid) :
      Function.update σ.sessConns s' q s = σ.sessConns s :=
    Function.update_of_ne (by rintro rfl; exact hs h) ..
  -- Evicting the sessions of the machine.
  have evict {sid : String} (h : σ.sess.get? sid = some s) :
      (σ.evict mid).sess.get? sid = some s :=
    GoMap.get?_deleteWhere_eq_some.mpr ⟨h, by simpa using hs⟩
  have delete {sid sid' : String} {s' : Session} (h' : σ.sess.get? sid' = some s') (hm : s'.mid = mid)
      (h : σ.sess.get? sid = some s) : (σ.sess.delete sid').get? sid = some s := by
    have ne : sid ≠ sid' := by
      rintro rfl
      have : s = s' := by simpa using h.symm.trans h'
      exact hs (this ▸ hm)
    rw [GoMap.get?_delete, if_neg ne, h]
  cases e
  case replaced                 => cases ho; exact ⟨rfl, evict⟩
  case sessClosed               => exact ⟨update ho, id⟩
  case browserSent | browserSlow => exact ⟨update ho, id⟩
  case ended hs hm              => exact ⟨rfl, delete hs (hm.trans ho)⟩
  case dropped                  => cases ho; exact ⟨rfl, evict⟩
  case sessEnded hs _           => exact ⟨rfl, delete hs ho⟩
  all_goals first | exact ⟨rfl, id⟩ | cases ho

theorem Exec.within (e : Exec sha256 σ op i σ' ops) (ho : op.Within mid) :
    ∀ o ∈ ops, o.Within mid := by
  have victims : ∀ s ∈ σ.victims mid, s.mid = mid := by
    intro s hs
    have ⟨_, _, hm⟩ := GoMap.mem_valuesWhere.mp hs
    simpa using hm
  cases e <;> simp only [List.cons_append, List.forall_mem_cons, List.forall_mem_append,
    List.forall_mem_map, List.not_mem_nil, IsEmpty.forall_iff, implies_true, and_true]
  case registered => exact ⟨trivial, ho⟩
  case replaced   => cases ho; exact ⟨trivial, victims, trivial, rfl⟩
  case agentRead      => exact ⟨forall_handleAgent trivial (fun _ => ho) (fun _ => ho), ho⟩
  case agentLost      => exact ho
  case routed hs hm   => exact hm.trans ho
  case browserSlow    => exact ho
  case ended hs hm    => exact hm.trans ho
  case dropped        => cases ho; exact ⟨trivial, victims⟩
  case zombieDropped  => trivial
  case sessEnded hs close | goneEnded hs close =>
    exact ⟨ho, forall_close close fun _ _ => trivial⟩
  all_goals cases ho

theorem Exec.notOfAgent (e : Exec sha256 σ op i σ' ops) (ho : ¬op.OfAgent) :
    ∀ o ∈ ops, ¬o.OfAgent := by
  cases e <;> simp only [List.cons_append, List.forall_mem_cons, List.forall_mem_append,
    List.forall_mem_map, List.not_mem_nil, IsEmpty.forall_iff, implies_true, and_true]
  case sessEnded hs close | goneEnded hs close => exact ⟨id, forall_close close fun _ _ => id⟩
  case termRead => exact ⟨forall_handleTerm id id, id⟩
  case dropped => exact ⟨id, fun _ _ => id⟩
  all_goals first | exact id | exact ⟨id, id⟩ | exact absurd trivial ho

theorem Isolated.exec (e : Exec sha256 σ op i σ' ops) (h : Isolated (op :: rest)) :
    Isolated (ops ++ rest) := by
  cases h
  case hello hello =>
    cases e
    case unknownToken => exact .other (by simp)
    case knownToken m _ => exact .agent m.id (by simp [Op.Within])
  case agent mid h =>
    have ⟨ho, hr⟩ := List.forall_mem_cons.mp h
    exact .agent mid (List.forall_mem_append.mpr ⟨e.within ho, hr⟩)
  case other h =>
    have ⟨ho, hr⟩ := List.forall_mem_cons.mp h
    exact .other (List.forall_mem_append.mpr ⟨e.notOfAgent ho, hr⟩)

theorem isolated_reachable (h : (program sha256).system.Reachable c) : Isolated (c.procs t) := by
  refine (thread_invariant (P := program sha256) (I := fun _ => True) (B := fun _ => Isolated)
    (R := fun _ _ => True) ?_ ?_ ?_ ?_ ?_ h).right t
  case refine_1 => exact fun _ _ => trivial
  case refine_2 => exact fun _ => .other (by simp)
  case refine_3 =>
    intro σ r σ' ops _ e
    refine ⟨trivial, trivial, ?_⟩
    cases r <;> cases e
    case wsAgent hello =>
      split
      case isTrue  => exact .hello hello
      case isFalse => exact .other (by simp)
    all_goals exact .other (by simp [Op.OfAgent])
  case refine_4 => exact fun _ _ _ _ _ _ _ _ _ _ _ h e => ⟨trivial, trivial, h.exec (Exec.of e)⟩
  case refine_5 => exact fun _ _ _ _ _ h => h

-- A connection whose queue grew by a frame was sent that frame.
theorem eq_of_out_sendAgent
    (h : ((σ.sendAgent a m').agentConns ac).out = (σ.agentConns ac).out ++ [m]) :
    ac = a ∧ m = m' := by
  simp only [State.sendAgent, Function.update_apply] at h
  split at h
  case isFalse => simp at h
  case isTrue ha =>
    subst ha
    unfold Conn.send at h
    split at h
    case isTrue  => simp at h
    case isFalse => simpa [eq_comm] using h

theorem Exec.relay_of_out (e : Exec sha256 σ op i σ' ops) (ho : op.WellFormed σ)
    (h : (σ'.agentConns ac).out = (σ.agentConns ac).out ++ [m]) (hm : m.t ∈ ["in", "resize"]) :
    ∃ s, op = .relay s ac m ∧ m.sid = s.sid ∧ s.mid = ac.mid := by
  cases e
  case registered | replaced =>
    replace h : ((Function.update σ.agentConns _ {}) ac).out = _ := h
    rw [Function.update_apply] at h
    split at h <;> simp at h
  case agentClosed a =>
    simp only [State.closeAgent, Function.update_apply] at h
    split at h
    case isTrue ha => subst ha; simp at h
    case isFalse   => simp at h
  case agentSent =>
    obtain ⟨_, hm'⟩ := eq_of_out_sendAgent h
    exact absurd hm (hm' ▸ ho.left)
  case opened =>
    obtain ⟨_, hm'⟩ := eq_of_out_sendAgent h
    simp [hm'] at hm
  case relayed s _ _ =>
    obtain ⟨ha, hm'⟩ := eq_of_out_sendAgent h
    subst ha hm'
    exact ⟨s, rfl, ho.right.left, ho.right.right.left.symm⟩
  all_goals simp [State.record, State.sendBrowser, State.closeSess, State.evict, State.newSession] at h

-- A frame read from an agent leaves the sessions of the other machines alone. An agent is only sent
-- sessions that were minted for its machine, and keystrokes only by the browser of their session.
theorem isolation (h : (program sha256).system.Reachable c) :
    (∀ {t i c' ac s}, (program sha256).system.step c (.step t i) = some c' →
      .readAgent ac ∈ c.procs t → s.mid ≠ ac.mid → Untouched s c.shared c'.shared) ∧
    (∀ {ac m}, m ∈ (c.shared.agentConns ac).out →
      m.t = "hello_ok" ∨ m.t ∈ ["open", "in", "resize", "close"] ∧ Minted c.shared m.sid ac.mid) ∧
    (∀ {l c' ac m}, (program sha256).system.step c l = some c' →
      (c'.shared.agentConns ac).out = (c.shared.agentConns ac).out ++ [m] →
      m.t ∈ ["in", "resize"] →
      ∃ t i s rest, l = .step t i ∧ c.procs t = .relay s ac m :: rest ∧ .readTerm s ac ∈ rest ∧
        m.sid = s.sid ∧ s.mid = ac.mid) := by
  have ⟨wf, ops_wf⟩ := wellFormed_reachable h
  refine ⟨?_, wf.out, ?_⟩
  case refine_1 =>
    intro t i c' ac s e hr hs
    have isolated : Isolated (c.procs t) := isolated_reachable h
    replace e := Step.of e
    cases e
    case step head e =>
      rw [head] at isolated hr
      cases isolated
      case hello => simp at hr
      case agent mid within =>
        have same : ac.mid = mid := within _ hr
        exact (Exec.of e).untouched (within _ List.mem_cons_self) (same ▸ hs)
      case other no => exact absurd trivial (no _ hr)
  case refine_2 =>
    intro l c' ac m e hq hm
    replace e := Step.of e
    cases e
    case start r _ _ _ e =>
      cases r <;> cases e
      case drainAgent a =>
        simp only [Config.resume_shared, Function.update_apply] at hq
        split at hq
        case isTrue ha => subst ha; simp at hq
        case isFalse   => simp at hq
      all_goals simp at hq
    case step t i op rest σ' ops head e =>
      have pending : c.Pending op := ⟨t, by simp [head]⟩
      have ⟨s, hop, hs, hmid⟩ := (Exec.of e).relay_of_out (ops_wf op pending) hq hm
      have followed := followed_reachable h t
      rw [head, hop] at followed
      exact ⟨t, i, s, rest, rfl, hop ▸ head, followed.left _ rfl, hs, hmid⟩

-- The agent of one machine names the session of another in an exit frame.
theorem isolation_sample :
    let ls : List (Label Req Input) := [
      .start 0 (.apiMint "" "5c" "e1" true), .step 0 .done,
      .start 0 (.apiMint "" "6d" "e2" true), .step 0 .done,
      .start 1 (.wsAgent { t := "hello", token := "e1" }),
      .step 1 .done, .step 1 .done, .step 1 .done, .step 1 .done,
      .start 2 (.wsAgent { t := "hello", token := "e2" }),
      .step 2 .done, .step 2 .done, .step 2 .done, .step 2 .done,
      .start 0 (.apiTerm "5c" "" "a0" "9f"), .step 0 .done, .step 0 .done,
      .start 3 (.wsTerm "a0" "9f"), .step 3 .done, .step 3 .done, .step 3 .done, .step 3 .done,
      .step 2 (.frame { t := "exit", sid := "a0" })]
    let s : Session := { ptr := 2, sid := "a0", mid := "5c" }
    ∃ c c', (program sampleSum).system.run initial ls = some c ∧
      (program sampleSum).system.step c (.step 2 .done) = some c' ∧
      c.shared.sess.get? "a0" = some s ∧ Untouched s c.shared c'.shared := by
  intro ls s
  cases e : (program sampleSum).system.run initial ls
  case none => contradiction
  case some c =>
    cases e' : (program sampleSum).system.run initial (ls ++ [.step 2 .done])
    case none => contradiction
    case some c' =>
      have ⟨_, e₁, e₂⟩ := Transition.run_append_eq_some.mp e'
      cases e.symm.trans e₁
      have ⟨_, step, e₃⟩ := Transition.run_cons_eq_some.mp e₂
      cases e₃
      have reachable := Transition.Reachable.run (.init (initial_init sampleSum)) e
      have procs : c.procs 2 =
        [.ended ⟨1, "6d"⟩ { t := "exit", sid := "a0" }, .readAgent ⟨1, "6d"⟩] :=
        Transition.eq_of_run (f := (·.procs 2)) e (by decide)
      have sess : c.shared.sess.get? "a0" = some s :=
        Transition.eq_of_run (f := (·.shared.sess.get? "a0")) e (by decide)
      have reads : .readAgent ⟨1, "6d"⟩ ∈ c.procs 2 := by simp [procs]
      have ⟨untouched, _⟩ := isolation reachable
      exact ⟨c, _, rfl, step, sess, untouched step reads (by decide)⟩

end Broker
