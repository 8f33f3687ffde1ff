import Popfleet.Broker.Theorems.Sessions

open Proto Store Program

namespace Broker

variable {sha256 : String → Digest} {i : Input} {rest : List Op} {c c' : Config State Op} {t : Tid}
  {s : Session} {m : Msg}

-- The final frame with which a session is ended is the last one on the queue of its browser, then and
-- in every state after that, if and only if the queue was not full.
theorem final_enqueued (h : (program sha256).system.Reachable c)
    (head : c.procs t = .closeSess s (some m) :: rest) (hc : (c.shared.sessConns s).closed = false)
    (e : (program sha256).system.step c (.step t i) = some c') :
    (∀ c'', ((program sha256).system.after c').Reachable c'' →
      (c''.shared.sessConns s).closed ∧
        (c''.shared.sessConns s).out = (c.shared.sessConns s).out ++ [m]) ↔
    (c.shared.sessConns s).full = false := by
  have known : s ∈ c.shared.attaches :=
    (known_reachable h).right _ ⟨t, head ▸ List.mem_cons_self⟩ s rfl
  have conn : c'.shared.sessConns s = (c.shared.sessConns s).close (some m) ∧
      c'.shared.attaches = c.shared.attaches := by
    replace e := Step.of e
    cases e
    case step head' e =>
      cases head.symm.trans head'
      cases e
      simp [State.closeSess, State.attaches]
  obtain ⟨conn, attaches⟩ := conn
  have out : (c'.shared.sessConns s).out =
      (c.shared.sessConns s).out ++ if (c.shared.sessConns s).full then [] else [m] := by
    rw [conn, Conn.close_out hc, Option.toList_some]
  constructor
  case mp =>
    intro last
    obtain ⟨_, last⟩ := last c' (.init rfl)
    by_contra full
    rw [Bool.not_eq_false] at full
    simp [out, full] at last
  case mpr =>
    intro full c'' h'
    have closed : (c'.shared.sessConns s).closed := by simp [conn]
    obtain ⟨same, closed'⟩ := out_frozen (.step h trivial e) (attaches ▸ known) closed h'
    exact ⟨closed', same.trans (by simp [out, full])⟩

-- The shell exits.
theorem final_enqueued_sample :
    let s : Session := ⟨1, "a0", "5c"⟩
    let exit : Msg := { t := "exit", code := some 0 }
    let ls := sampleOpened ++ [.step 1 (.frame { exit with sid := "a0" }), .step 1 .done]
    ∃ c c', (program sampleSum).system.run initial ls = some c ∧
      (program sampleSum).system.step c (.step 1 .done) = some c' ∧
      (c'.shared.sessConns s).out = (c.shared.sessConns s).out ++ [exit] := by
  intro s exit ls
  cases e : (program sampleSum).system.run initial (ls ++ [.step 1 .done])
  case none => contradiction
  case some c' =>
    have ⟨c, e₁, e₂⟩ := Transition.run_append_eq_some.mp e
    have ⟨_, e₂, same⟩ := Transition.run_cons_eq_some.mp e₂
    cases same
    have reachable := Transition.Reachable.run (.init (initial_init sampleSum)) e₁
    have head : c.procs 1 = [.closeSess s (some exit), .readAgent ⟨0, "5c"⟩] :=
      Transition.eq_of_run (f := (·.procs 1)) e₁ (by decide)
    have conn : c.shared.sessConns s = {} :=
      Transition.eq_of_run (f := (·.shared.sessConns s)) e₁ (by decide)
    have room : (c.shared.sessConns s).full = false := by rw [conn]; decide
    have last := (final_enqueued reachable head (by simp [conn]) e₂).mpr room
    exact ⟨c, c', e₁, e₂, (last c' (.init rfl)).right⟩

-- What the agent needs to send to a browser that reads nothing, until its queue is full.
def sampleFlood : List (Label Req Input) :=
  (List.replicate queueLen [
    .step 1 (.frame { t := "out", sid := "a0", data := "eA==" }), .step 1 .done, .step 1 .done]).flatten

-- The state after some rounds of that.
structure Flooded (n : Nat) (c : Config State Op) : Prop where
  agent : c.procs 1 = [.readAgent ⟨0, "5c"⟩]
  sess  : c.shared.sess.get? "a0" = some ⟨1, "a0", "5c"⟩
  conn  : c.shared.sessConns ⟨1, "a0", "5c"⟩ = { out := List.replicate n { t := "out", data := "eA==" } }

theorem Flooded.read {n : Nat} (h : Flooded n c) :
    ∃ c', (program sampleSum).system.run c [
        .step 1 (.frame { t := "out", sid := "a0", data := "eA==" }), .step 1 .done] = some c' ∧
      c'.procs 1 = [.sendBrowser ⟨1, "a0", "5c"⟩ { t := "out", data := "eA==" }, .readAgent ⟨0, "5c"⟩] ∧
      c'.shared.sess = c.shared.sess ∧ c'.shared.sessConns = c.shared.sessConns := by
  simp [Transition.run, system, Program.step, program, exec, handleAgent, h.agent, h.sess, State.record]

theorem Flooded.round {n : Nat} (h : Flooded n c) (hn : n < queueLen) :
    ∃ c', (program sampleSum).system.run c [
        .step 1 (.frame { t := "out", sid := "a0", data := "eA==" }), .step 1 .done,
        .step 1 .done] = some c' ∧ Flooded (n + 1) c' := by
  have ⟨c₁, e₁, procs, sess, conns⟩ := h.read
  have room : ¬queueLen ≤ n := Nat.not_le.mpr hn
  let c' := c₁.resume 1 (c₁.shared.sendBrowser ⟨1, "a0", "5c"⟩ { t := "out", data := "eA==" })
    [.readAgent ⟨0, "5c"⟩]
  have e₂ : (program sampleSum).system.run c₁ [.step 1 .done] = some c' := by
    simp [Transition.run, system, Program.step, program, exec, procs, conns, h.conn, Conn.send,
      Conn.full, room, c']
  refine ⟨c', Transition.run_append_eq_some.mpr ⟨c₁, e₁, e₂⟩, ?_⟩
  constructor
  case agent => simp [c']
  case sess => simp [c', State.sendBrowser, sess, h.sess]
  case conn =>
    simp [c', State.sendBrowser, conns, h.conn, Conn.send, Conn.full, room, List.replicate_succ']

theorem Flooded.ended (h : Flooded queueLen c) :
    ∃ c' rest, (program sampleSum).system.run c [
        .step 1 (.frame { t := "out", sid := "a0", data := "eA==" }), .step 1 .done,
        .step 1 .done, .step 1 .done] = some c' ∧
      c'.procs 1 = .closeSess ⟨1, "a0", "5c"⟩
        (some { t := "err", msg := "session dropped: browser too slow" }) :: rest ∧
      c'.shared.sessConns ⟨1, "a0", "5c"⟩ =
        { out := List.replicate queueLen { t := "out", data := "eA==" } } := by
  have ⟨c₁, e₁, procs, sess, conns⟩ := h.read
  have ended : ∃ c' rest, (program sampleSum).system.run c₁ [.step 1 .done, .step 1 .done] = some c' ∧
      c'.procs 1 = .closeSess ⟨1, "a0", "5c"⟩
        (some { t := "err", msg := "session dropped: browser too slow" }) :: rest ∧
      c'.shared.sessConns ⟨1, "a0", "5c"⟩ = c.shared.sessConns ⟨1, "a0", "5c"⟩ := by
    simp [Transition.run, system, Program.step, program, exec, procs, conns, h.conn, sess, h.sess,
      Conn.send, Conn.full, State.sendBrowser]
  obtain ⟨c', rest, e₂, head, conn⟩ := ended
  exact ⟨c', rest, Transition.run_append_eq_some.mpr ⟨c₁, e₁, e₂⟩, head, conn.trans h.conn⟩

-- A browser that stopped reading is told nothing: where its queue is full, so it is for the banner.
theorem slow_browser_without_banner :
    let s : Session := ⟨1, "a0", "5c"⟩
    let final : Msg := { t := "err", msg := "session dropped: browser too slow" }
    let ls := sampleOpened ++ sampleFlood ++ [
      .step 1 (.frame { t := "out", sid := "a0", data := "eA==" }), .step 1 .done, .step 1 .done,
      .step 1 .done]
    ∃ c c' rest, (program sampleSum).system.run initial ls = some c ∧
      c.procs 1 = .closeSess s (some final) :: rest ∧ (c.shared.sessConns s).closed = false ∧
      (program sampleSum).system.step c (.step 1 .done) = some c' ∧
      final ∉ (c'.shared.sessConns s).out := by
  intro s final ls
  cases e₁ : (program sampleSum).system.run initial sampleOpened
  case none => contradiction
  case some c₁ =>
    have opened : Flooded 0 c₁ := ⟨Transition.eq_of_run (f := (·.procs 1)) e₁ (by decide),
      Transition.eq_of_run (f := (·.shared.sess.get? "a0")) e₁ (by decide),
      Transition.eq_of_run (f := (·.shared.sessConns s)) e₁ (by decide)⟩
    have ⟨c₂, e₂, full⟩ := Transition.run_replicate opened fun n hn c h => h.round hn
    have ⟨c, rest, e₃, head, conn⟩ := full.ended
    replace head : c.procs 1 = .closeSess s (some final) :: rest := head
    replace conn : c.shared.sessConns s =
      { out := List.replicate queueLen { t := "out", data := "eA==" } } := conn
    have run : (program sampleSum).system.run initial ls = some c :=
      Transition.run_append_eq_some.mpr ⟨c₂, Transition.run_append_eq_some.mpr ⟨c₁, e₁, e₂⟩, e₃⟩
    have closing : (program sampleSum).system.step c (.step 1 .done) =
        some (c.resume 1 (c.shared.closeSess s (some final)) rest) := by
      simp [system, Program.step, program, exec, head]
    refine ⟨c, _, rest, run, head, by rw [conn], closing, ?_⟩
    have full : (c.shared.sessConns s).full := by simp [conn, Conn.full]
    have unsent :
        ((c.shared.closeSess s (some final)).sessConns s).out = (c.shared.sessConns s).out := by
      simp only [State.closeSess, Function.update_self]
      rw [Conn.close_out (by rw [conn]), if_pos full, List.append_nil]
    rw [Config.resume_shared, unsent, conn]
    simp [final]

end Broker
