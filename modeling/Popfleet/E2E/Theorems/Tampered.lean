import Popfleet.E2E.Theorems.Known
import Popfleet.E2E.Theorems.Outputs

open Proto Program

namespace E2E

variable {κ : Type} [DecidableEq κ] {hkdf : Bytes → String → κ} {e2eKey : Bytes} {p : Pty κ} {T : Aead κ tagLen}
  {c c' c₁ c₂ : Config (State κ) (Op κ)} {l : Label (Req κ) Input} {t : Tid} {data : String}

-- The step has an in frame that fails to authenticate.
def Tampers (p : Pty κ) (c : Config (State κ) (Op κ)) (l : Label (Req κ) Input) : Prop :=
  ∃ t i data rest k, l = .step t i ∧ c.procs t = .write p data :: rest ∧ p.enc = some k ∧
    openWire c.shared.aead k data = none

-- The bytes of an in frame that the step writes to the PTY.
def delivered (p : Pty κ) (c : Config (State κ) (Op κ)) : Label (Req κ) Input → Bytes
  | .start _ _ => []
  | .step t _  =>
    match c.procs t with
    | .write p' data :: _ =>
      if p' = p ∧ (c.shared.processes p).closed = false then
        (carried c.shared.aead p data).getD []
      else
        []
    | _ => []

-- The step does not look the PTY up for an in frame with keystrokes, unless it was closed.
def Timely (T : Aead κ tagLen) (p : Pty κ) (c : Config (State κ) (Op κ)) : Label (Req κ) Input → Prop
  | .start _ _ => True
  | .step t _  =>
    ∀ conn m rest, c.procs t = .lookup conn m :: rest → (c.shared.ptys conn).get? m.sid = some p →
      (c.shared.processes p).closed ∨ (carried T p m.data).getD [] = []

-- No section is about to write to the PTY.
def Shut (T : Aead κ tagLen) (p : Pty κ) (c : Config (State κ) (Op κ)) : Prop :=
  ∀ data, c.Pending (.write p data) → (c.shared.processes p).closed ∨ (carried T p data).getD [] = []

-- The session with a frame that failed has no other to write.
theorem shut_of_tampers (h : (program hkdf e2eKey).system.Reachable c) (tampers : Tampers p c l)
    (e : (program hkdf e2eKey).system.step c l = some c₁) : Shut T p c₁ := by
  obtain ⟨t, i, data, rest, k, rfl, head, hk, none⟩ := tampers
  replace e := Step.of e
  cases e
  case step head' e =>
    cases head.symm.trans head'
    intro data' hp
    simp only [program, exec, hk, none] at e
    cases e
    have written := (readers_reachable h).alone head rfl rfl hp rfl rfl
    simp at written

theorem exec_write_mem {σ σ' : State κ} {op : Op κ} {i : Input} {ops : List (Op κ)}
    (e : Exec hkdf e2eKey σ op i σ' ops) (hm : .write p data ∈ ops) :
    ∃ conn m, op = .lookup conn m ∧ (σ.ptys conn).get? m.sid = some p ∧ m.data = data := by
  cases e
  case found conn m p' hp =>
    obtain ⟨rfl, rfl⟩ : p = p' ∧ data = m.data := by simpa using hm
    exact ⟨conn, m, rfl, hp, rfl⟩
  case read conn m =>
    refine absurd hm ?_
    unfold handle
    split <;> simp
  case page hp => exact absurd (hp _ hm) (by simp [Op.isPage])
  all_goals simp at hm

theorem start_write_mem {σ σ' : State κ} {r : Req κ} {ops : List (Op κ)}
    (e : start e2eKey σ r = some (σ', ops)) : .write p data ∉ ops := by
  revert e
  fun_cases start e2eKey σ r <;> intro e <;> cases e <;> simp

theorem Shut.step (h : Shut T p c) (known : p.ptr < c.shared.next) (timely : Timely T p c l)
    (e : (program hkdf e2eKey).system.step c l = some c') :
    Shut T p c' ∧ p.ptr < c'.shared.next := by
  refine ⟨fun data hp => ?_, Nat.lt_of_lt_of_le known (next_le_of_step e)⟩
  replace e := Step.of e
  cases e
  case start r σ ops _ e =>
    replace e : start e2eKey c.shared r = some (σ, ops) := e
    cases hp.of_resume
    case inl hm => exact absurd hm (start_write_mem e)
    case inr hp => exact (h data hp).imp_left (start_processes e ▸ id)
  case step head e =>
    have ages := exec_ages known e
    cases hp.of_step head
    case inr hp => exact (h data hp).imp_left ages.closed
    case inl hm =>
      obtain ⟨conn, m, rfl, found, rfl⟩ := exec_write_mem (Exec.of e) hm
      exact (timely conn m _ head found).imp_left ages.closed

theorem Shut.delivered (h : Shut c.shared.aead p c) : delivered p c l = [] := by
  unfold E2E.delivered
  split
  case h_1 => rfl
  case h_2 t _ =>
    split
    case h_2 => rfl
    case h_1 p' data rest head =>
      split
      case isFalse => rfl
      case isTrue hp =>
        obtain ⟨rfl, opened⟩ := hp
        exact (h data ⟨t, head ▸ List.mem_cons_self⟩).resolve_left (by simp [opened])

theorem shut_after (h : (program hkdf e2eKey).system.Reachable c) (tampers : Tampers p c l)
    (e : (program hkdf e2eKey).system.step c l = some c₁)
    (h₂ : ((program hkdf e2eKey).system.after c₁).ReachableUnder (Timely T p) c₂) : Shut T p c₂ := by
  have ⟨t, i, data, rest, _, hl, head, _⟩ := tampers
  have known : p.ptr < c.shared.next :=
    (known_reachable h).right (.write p data) ⟨t, head ▸ List.mem_cons_self⟩ p rfl
  have known₁ : p.ptr < c₁.shared.next := Nat.lt_of_lt_of_le known (next_le_of_step e)
  refine (h₂.invariant (I := fun c => Shut T p c ∧ p.ptr < c.shared.next) ?_ ?_).left
  case refine_1 =>
    rintro c rfl
    exact ⟨shut_of_tampers h tampers e, known₁⟩
  case refine_2 => exact fun _ _ _ _ hi timely e => hi.left.step hi.right timely e

-- A frame that is looked up in time for the PTY is written to it with the next two sections.
theorem delivered_of_lookup {conn : Nat} {m : Msg} {rest : List (Op κ)} {b : Bytes}
    (head : c.procs t = .lookup conn m :: rest) (hp : (c.shared.ptys conn).get? m.sid = some p)
    (hc : (c.shared.processes p).closed = false) (hb : carried c.shared.aead p m.data = some b) :
    ∃ c₁ c₂, (program hkdf e2eKey).system.step c (.step t .done) = some c₁ ∧
      (program hkdf e2eKey).system.step c₁ (.step t .done) = some c₂ ∧
      delivered p c₁ (.step t .done) = b ∧ c₂.shared.log = .wrote p.sid b :: c.shared.log := by
  let c₁ := c.resume t c.shared (.write p m.data :: rest)
  let c₂ := c₁.resume t (c.shared.record (.wrote p.sid b)) rest
  have e₁ : (program hkdf e2eKey).system.step c (.step t .done) = some c₁ := by
    simp [system, Program.step, head, program, exec, hp, c₁]
  have e₂ : (program hkdf e2eKey).system.step c₁ (.step t .done) = some c₂ := by
    cases hk : p.enc
    all_goals
      simp only [carried, hk] at hb
      simp [system, Program.step, program, exec, hk, hb, hc, c₁, c₂]
  exact ⟨c₁, c₂, e₁, e₂, by simp [delivered, c₁, hc, hb], rfl⟩

-- After an in frame that failed to authenticate no bytes of another one are written to the PTY, when
-- none with keystrokes is looked up before the PTY was closed. One that is can still be written.
theorem tampered_fails_closed (h : (program hkdf e2eKey).system.Reachable c) (tampers : Tampers p c l)
    (e : (program hkdf e2eKey).system.step c l = some c₁) :
    (∀ c₂, ((program hkdf e2eKey).system.after c₁).ReachableUnder (Timely c₂.shared.aead p) c₂ →
      ∀ l, delivered p c₂ l = []) ∧
    ∀ c₂ t conn m rest b, ((program hkdf e2eKey).system.after c₁).Reachable c₂ →
      c₂.procs t = .lookup conn m :: rest → (c₂.shared.ptys conn).get? m.sid = some p →
      (c₂.shared.processes p).closed = false → carried c₂.shared.aead p m.data = some b →
      ∃ c₃ c₄, (program hkdf e2eKey).system.step c₂ (.step t .done) = some c₃ ∧
        (program hkdf e2eKey).system.step c₃ (.step t .done) = some c₄ ∧
        delivered p c₃ (.step t .done) = b ∧ c₄.shared.log = .wrote p.sid b :: c₂.shared.log :=
  ⟨fun _ h₂ _ => (shut_after h tampers e h₂).delivered,
    fun _ _ _ _ _ _ _ head hp hc hb => delivered_of_lookup head hp hc hb⟩

-- The relay opens the session, and sends the keystrokes with another last byte.
def sampleTampered : List (Label (Req (Bytes × String)) Input) :=
  sampleTyped ++ [
    .start 2 (.session "e1" "" "dev"), .step 2 .done, .step 2 (.frame { t := "hello_ok" }),
    .step 2 (.frame { t := "open", sid := "a0" }), .step 2 .done, .step 2 .done, .step 2 .done,
    .step 2 .done, .step 2 .done,
    .step 2 (.frame { t := "in", sid := "a0", data := "AAAAAAAAAAAAAAAAbHMAAAAAAAAAAAAAAAAAAAD/" }),
    .step 2 .done]

def samplePty : Pty (Bytes × String) :=
  ⟨2, 1, "a0", some (sampleKey, "a0")⟩

theorem sampleTampered_tampers {c : Config (State (Bytes × String)) (Op (Bytes × String))}
    (e : (program Prod.mk sampleKey).system.run initial sampleTampered = some c) :
    Tampers samplePty c (.step 2 .done) := by
  have head : c.procs 2 = [.write samplePty "AAAAAAAAAAAAAAAAbHMAAAAAAAAAAAAAAAAAAAD/", .readJSON 1] :=
    Transition.eq_of_run (f := (·.procs 2)) e (by decide)
  let opened (c : Config (State (Bytes × String)) (Op (Bytes × String))) :=
    openWire c.shared.aead (sampleKey, "a0") "AAAAAAAAAAAAAAAAbHMAAAAAAAAAAAAAAAAAAAD/"
  have fails : opened c = none := Transition.eq_of_run (f := opened) e (by decide)
  exact ⟨2, .done, _, _, _, rfl, head, rfl, fails⟩

-- No frame is looked up before the PTY was closed.
def closedFirst (c : Config (State (Bytes × String)) (Op (Bytes × String))) :
    Label (Req (Bytes × String)) Input → Bool
  | .start _ _ => true
  | .step t _  =>
    match c.procs t with
    | .lookup _ _ :: _ => (c.shared.processes samplePty).closed
    | _                => true

theorem timely_of_closedFirst (T : Aead (Bytes × String) tagLen)
    (c : Config (State (Bytes × String)) (Op (Bytes × String))) (l : Label (Req (Bytes × String)) Input)
    (h : closedFirst c l) : Timely T samplePty c l := by
  cases l
  case start => trivial
  case step t i =>
    intro conn m rest head _
    simp only [closedFirst, head] at h
    exact .inl h

-- The shell exits after the kill and the pump closes the PTY. The keystrokes that come then are not
-- written.
theorem tampered_fails_closed_sample :
    let ls : List (Label (Req (Bytes × String)) Input) := [.step 2 .done, .step 2 .done,
      .start 3 (.pump samplePty), .step 3 .eof, .step 3 .done, .step 3 (.exit (.signaled 9)),
      .step 2 (.frame { t := "in", sid := "a0", data := "AAAAAAAAAAAAAAAAbHMAAAAAAAAAAAAAAAAAAAAA" }),
      .step 2 .done]
    ∃ c c₁ c₂, (program Prod.mk sampleKey).system.run initial sampleTampered = some c ∧
      (program Prod.mk sampleKey).system.step c (.step 2 .done) = some c₁ ∧
      (program Prod.mk sampleKey).system.run c₁ ls = some c₂ ∧
      c₂.procs 2 = [.write samplePty "AAAAAAAAAAAAAAAAbHMAAAAAAAAAAAAAAAAAAAAA", .readJSON 1] ∧
      delivered samplePty c₂ (.step 2 .done) = [] := by
  intro ls
  have ran : ((program Prod.mk sampleKey).system.run initial
      (sampleTampered ++ [.step 2 .done])).isSome := by
    decide
  have ⟨c₁, e⟩ := Option.isSome_iff_exists.mp ran
  have ⟨c, e₀, e₁⟩ := Transition.run_append_eq_some.mp e
  have ⟨c₁', e₁, same⟩ := Transition.run_cons_eq_some.mp e₁
  cases same
  let after (c₁ : Config (State (Bytes × String)) (Op (Bytes × String))) :=
    ((program Prod.mk sampleKey).system.after c₁).runWhile closedFirst c₁ ls
  have ran : (after c₁).isSome := Transition.eq_of_run (f := (after · |>.isSome)) e (by decide)
  have ⟨c₂, e₂⟩ := Option.isSome_iff_exists.mp ran
  have head : (after c₁).map (·.procs 2) =
      some [.write samplePty "AAAAAAAAAAAAAAAAbHMAAAAAAAAAAAAAAAAAAAAA", .readJSON 1] :=
    Transition.eq_of_run (f := (after · |>.map (·.procs 2))) e (by decide)
  have timely := Transition.ReachableUnder.runWhile (.init rfl)
    (timely_of_closedFirst c₂.shared.aead) e₂
  have tampers := sampleTampered_tampers e₀
  have ⟨closed, _⟩ := tampered_fails_closed (.run (.init initial_init) e₀) tampers e₁
  refine ⟨c, c₁, c₂, e₀, e₁, Transition.run_after.symm.trans (Transition.run_of_runWhile e₂), ?_,
    closed c₂ timely _⟩
  simpa [e₂] using head

-- The keystrokes that come before are.
theorem bytes_after_tampered :
    let ls : List (Label (Req (Bytes × String)) Input) := [.step 2 .done, .step 2 .done,
      .step 2 (.frame { t := "in", sid := "a0", data := "AAAAAAAAAAAAAAAAbHMAAAAAAAAAAAAAAAAAAAAA" }),
      .step 2 .done, .step 2 .done]
    ∃ c c₁ c₂, (program Prod.mk sampleKey).system.Reachable c ∧ Tampers samplePty c (.step 2 .done) ∧
      (program Prod.mk sampleKey).system.step c (.step 2 .done) = some c₁ ∧
      (program Prod.mk sampleKey).system.run c₁ ls = some c₂ ∧
      ((program Prod.mk sampleKey).system.observe (delivered samplePty) c₁ ls).flatten = [108, 115] := by
  intro ls
  have ran : ((program Prod.mk sampleKey).system.run initial
      (sampleTampered ++ .step 2 .done :: ls)).isSome := by
    decide
  have ⟨c₂, e⟩ := Option.isSome_iff_exists.mp ran
  have ⟨c, e₀, e₁⟩ := Transition.run_append_eq_some.mp e
  have ⟨c₁, e₁, e₂⟩ := Transition.run_cons_eq_some.mp e₁
  have first : (program Prod.mk sampleKey).system.run initial (sampleTampered ++ [.step 2 .done]) =
      some c₁ :=
    Transition.run_append_eq_some.mpr ⟨c, e₀, Transition.run_cons_eq_some.mpr ⟨c₁, e₁, rfl⟩⟩
  let written (c₁ : Config (State (Bytes × String)) (Op (Bytes × String))) :=
    ((program Prod.mk sampleKey).system.observe (delivered samplePty) c₁ ls).flatten
  have bytes : written c₁ = [108, 115] := Transition.eq_of_run (f := written) first (by decide)
  exact ⟨c, c₁, c₂, .run (.init initial_init) e₀, sampleTampered_tampers e₀, e₁, e₂, bytes⟩

end E2E
