import Popfleet.Broker.Theorems.Leaks

open Proto Store Program

namespace Broker

-- The section replaces or drops a connection that was registered before `a`, or replaces another one
-- by such a connection.
def Op.Zombie (σ : State) (a : AgentConn) : Op → Prop
  | .register mid  => σ.next < a.ptr ∨ ∃ old, σ.agents.get? mid = some old ∧ old.ptr < a.ptr
  | .dropAgent d _ => d.ptr < a.ptr
  | _              => False

-- No connection registered before `a` is registered for its machine.
structure Succeeded (a : AgentConn) (σ : State) : Prop where
  ptr    : a.ptr < σ.next
  agents : ∀ {b}, σ.agents.get? a.mid = some b → a.ptr ≤ b.ptr

-- In state `c` a `wsTerm` reads the connection `a`, for the session that it is about to attach in `c₁`.
inductive Read (sha256 : String → Digest) (c c₁ : Config State Op) : Session → AgentConn → Prop
  | mk {t sid k p a rest rest'} (consume : c.procs t = .consume sid k :: rest)
    (valid : valid sha256 c.shared sid k = some p) (read : c.shared.agents.get? p.mid = some a)
    (attach : c₁.procs t = .attach sid p (some a) :: rest') :
    Read sha256 c c₁ (c₁.shared.newSession sid p.mid).2 a

variable {sha256 : String → Digest} {σ σ' : State} {op : Op} {i : Input} {ops : List Op}
  {c c₁ : Config State Op} {a : AgentConn} {s : Session}

theorem Succeeded.allocates (ha : Allocates σ σ') (h : Succeeded a σ) : Succeeded a σ' := by
  refine ⟨Nat.lt_of_lt_of_le h.ptr ha.next, fun hb => ?_⟩
  cases ha.agents hb
  case inl hb => exact h.agents hb
  case inr hn => exact Nat.le_of_lt (Nat.lt_of_lt_of_le h.ptr hn)

theorem Succeeded.reachable (h : Succeeded a c.shared)
    (h' : ((program sha256).system.after c).Reachable c₁) :
    Succeeded a c₁.shared ∧ c.shared.next ≤ c₁.shared.next := by
  refine kept_after (I := fun c => Succeeded a c.shared) ?_ ?_ h.ptr h h'
  case refine_1 =>
    intro c t r σ' ops e _ h
    have ⟨next, agents, _⟩ := start_handles e
    exact ⟨Nat.lt_of_lt_of_eq h.ptr next.symm, fun hb => h.agents (agents ▸ hb)⟩
  case refine_2 => exact fun e _ _ h => h.allocates e.allocates

-- The victims are of another machine.
theorem Succeeded.exec (e : Exec sha256 σ op i σ' ops) (hz : op.Zombie σ a)
    (hs : s.mid = a.mid) (h : Succeeded a σ) :
    (σ.sess.get? s.sid = some s → σ'.sess.get? s.sid = some s) ∧ ∀ final, .closeSess s final ∉ ops := by
  have unevicted {mid : String} (hm : s.mid ≠ mid) : s ∉ σ.victims mid := by
    intro hv
    have ⟨_, _, hm'⟩ := GoMap.mem_valuesWhere.mp hv
    exact hm (of_decide_eq_true hm')
  have kept {mid : String} (hm : s.mid ≠ mid) (h : σ.sess.get? s.sid = some s) :
      (σ.evict mid).sess.get? s.sid = some s :=
    GoMap.get?_deleteWhere_eq_some.mpr ⟨h, decide_eq_false hm⟩
  cases e <;> try contradiction
  case registered => exact ⟨id, by simp⟩
  case replaced mid old hold =>
    have other : s.mid ≠ mid := by
      intro hm
      have current := h.agents (hs ▸ hm ▸ hold)
      rcases hz with new | ⟨_, hold', old⟩
      case inl => exact Nat.lt_asymm new h.ptr
      case inr =>
        cases hold.symm.trans hold'
        exact absurd old (Nat.not_lt.mpr current)
    exact ⟨kept other, by simpa using unevicted other⟩
  case dropped d why hd =>
    have other : s.mid ≠ d.mid := by
      intro hm
      exact absurd hz (Nat.not_lt.mpr (h.agents (hs ▸ hm ▸ hd)))
    exact ⟨kept other, by simpa using unevicted other⟩
  case zombieDropped => exact ⟨id, by simp⟩

-- Once `wsTerm` has read the connection `a` for `s`, only `a` and later connections are registered for
-- the machine. What the earlier connections have left to close is not `s`, and no replacement or drop of
-- theirs takes `s` out of the map or goes on to close it, whenever it runs.
theorem zombie_harmless (h : (program sha256).system.Reachable c)
    (h₁ : ((program sha256).system.after c).Reachable c₁) (hr : Read sha256 c c₁ s a) :
    (∀ final, ¬c.Pending (.closeSess s final)) ∧
    ∀ c₂, ((program sha256).system.after c).Reachable c₂ →
      (∀ b, c₂.shared.agents.get? s.mid = some b → a.ptr ≤ b.ptr) ∧
      ∀ op i σ ops, op.Zombie c₂.shared a → exec sha256 c₂.shared op i = some (σ, ops) →
        (c₂.shared.sess.get? s.sid = some s → σ.sess.get? s.sid = some s) ∧
        ∀ final, .closeSess s final ∉ ops := by
  obtain @⟨_, sid, _, p, _, _, _, _, _, read, _⟩ := hr
  have ⟨handles, _⟩ := handles_reachable h
  have ⟨wf, _⟩ := wellFormed_reachable h
  have mid : a.mid = p.mid := wf.agents read
  have succeeded : Succeeded a c.shared := by
    refine ⟨handles.agents read, fun hb => ?_⟩
    cases read.symm.trans (mid ▸ hb)
    exact Nat.le_refl _
  refine ⟨fun final hp => ?_, fun c₂ h₂ => ?_⟩
  case refine_1 =>
    -- Only sessions attached before are about to be closed.
    have attached := (known_reachable h).right _ hp _ rfl
    have ⟨_, next⟩ := succeeded.reachable h₁
    exact absurd (handles.attaches attached) (Nat.not_lt.mpr next)
  case refine_2 =>
    have ⟨succeeded, _⟩ := succeeded.reachable h₂
    refine ⟨fun b hb => succeeded.agents (mid ▸ hb), fun op i σ ops hz e => ?_⟩
    exact succeeded.exec (Exec.of e) hz mid.symm

-- The agent of machine 5c connects twice. While the first connection is yet to be dropped, a terminal
-- reads the second one.
def sampleReconnected : List (Label Req Input) := [
  .start 0 (.apiMint "" "5c" "e1" true), .step 0 .done,
  .start 1 (.wsAgent { t := "hello", token := "e1" }), .step 1 .done, .step 1 .done,
  .step 1 .done, .step 1 .done,
  .start 2 (.wsAgent { t := "hello", token := "e1" }), .step 2 .done, .step 2 .done,
  .step 2 .done, .step 2 .done, .step 1 .failed,
  .start 0 (.apiTerm "5c" "" "a0" "9f"), .step 0 .done, .step 0 .done,
  .start 3 (.wsTerm "a0" "9f")]

theorem zombie_harmless_sample :
    let s : Session := ⟨2, "a0", "5c"⟩
    let ls := sampleReconnected ++ [.step 3 .done, .step 3 .done] ++ [.step 3 .done]
    ∃ c, (program sampleSum).system.run initial ls = some c ∧
      c.procs 1 = [.dropAgent ⟨0, "5c"⟩ "agent went offline"] ∧ c.shared.sess.get? "a0" = some s ∧
      ∀ i σ ops, exec sampleSum c.shared (.dropAgent ⟨0, "5c"⟩ "agent went offline") i = some (σ, ops) →
        σ.sess.get? "a0" = some s := by
  intro s ls
  have ran : ((program sampleSum).system.run initial ls).isSome := by decide
  have ⟨c₂, e⟩ := Option.isSome_iff_exists.mp ran
  have ⟨c₁, e₁, attach⟩ := Transition.run_append_eq_some.mp e
  have ⟨c, e₀, upgrade⟩ := Transition.run_append_eq_some.mp e₁
  let p : PendKey := ⟨sampleSum "9f", "5c", "", keyTTL⟩
  have consume : c.procs 3 = [.consume "a0" "9f"] :=
    Transition.eq_of_run (f := (·.procs 3)) e₀ (by decide)
  have valid : valid sampleSum c.shared "a0" "9f" = some p :=
    Transition.eq_of_run (f := fun c => valid sampleSum c.shared "a0" "9f") e₀ (by decide)
  have agents : c.shared.agents.get? "5c" = some ⟨1, "5c"⟩ :=
    Transition.eq_of_run (f := (·.shared.agents.get? "5c")) e₀ (by decide)
  have attaches : c₁.procs 3 = [.attach "a0" p (some ⟨1, "5c"⟩)] :=
    Transition.eq_of_run (f := (·.procs 3)) e₁ (by decide)
  have next : c₁.shared.next = 2 := Transition.eq_of_run (f := (·.shared.next)) e₁ (by decide)
  have read : Read sampleSum c c₁ s ⟨1, "5c"⟩ := by
    have session : s = (c₁.shared.newSession "a0" p.mid).2 := by simp [s, p, State.newSession, next]
    exact session ▸ .mk consume valid agents attaches
  have drop : c₂.procs 1 = [.dropAgent ⟨0, "5c"⟩ "agent went offline"] :=
    Transition.eq_of_run (f := (·.procs 1)) e (by decide)
  have sess : c₂.shared.sess.get? "a0" = some s :=
    Transition.eq_of_run (f := (·.shared.sess.get? "a0")) e (by decide)
  have reachable := Transition.Reachable.run (.init (initial_init sampleSum)) e₀
  have ⟨_, harmless⟩ := zombie_harmless reachable (Transition.after_of_run upgrade) read
  have later := Transition.run_append_eq_some.mpr ⟨c₁, upgrade, attach⟩
  have ⟨_, kept⟩ := harmless c₂ (Transition.after_of_run later)
  refine ⟨c₂, e, drop, sess, fun i σ ops ex => ?_⟩
  have zombie : (Op.dropAgent ⟨0, "5c"⟩ "agent went offline").Zombie c₂.shared ⟨1, "5c"⟩ :=
    Nat.zero_lt_one
  exact (kept _ i σ ops zombie ex).left sess

end Broker
