import Popfleet.Broker.Queue

open Proto Program

namespace Broker.Queue

-- The calls as the broker's model has them, each in one step.
def Call.apply (call : Call) (c : Conn) : Conn :=
  match call with
  | .send m      => (c.send m).1
  | .close final => c.close final
  | .take        => c.drain

def State.conn (σ : State) : Conn :=
  σ.calls.foldr Call.apply {}

-- Nobody is in the middle of a call.
def State.Rest (σ : State) : Prop :=
  σ.ended = σ.closed ∧ σ.conn = { out := σ.out, taken := σ.taken, closed := σ.closed }

-- What the goroutine that holds the mutex has left to do.
inductive Inside (σ : State) : List Op → Prop
  | send {m} (h : σ.Rest) : Inside σ [.send m, .unlock]
  | enqueue {m} (h : σ.Rest) (hc : σ.closed = false) : Inside σ [.enqueue m, .unlock]
  | close {final} (h : σ.Rest) : Inside σ [.close final, .unlock]
  | enqueueFinal {m} (hc : σ.closed) (he : σ.ended = false)
    (h : σ.conn = { out := σ.out, taken := σ.taken }) :
    Inside σ [.enqueueFinal m, .closeOut, .unlock]
  | closeOut (hc : σ.closed) (he : σ.ended = false)
    (h : σ.conn = { out := σ.out, taken := σ.taken, closed := true }) : Inside σ [.closeOut, .unlock]
  | unlock (h : σ.Rest) : Inside σ [.unlock]

-- The others wait for it, or do nothing.
inductive Outside : List Op → Prop
  | idle : Outside []
  | send {m} : Outside [.lockSend m]
  | close {final} : Outside [.lockClose final]

structure Mutex (c : Config State Op) (holder : Option Tid) : Prop where
  locked   : c.shared.locked = holder.isSome
  panicked : c.shared.panicked = false
  outside  : ∀ t, holder ≠ some t → Outside (c.procs t)
  inside   : ∀ t, holder = some t → Inside c.shared (c.procs t)
  rest     : holder = none → c.shared.Rest

variable {σ : State} {c c' : Config State Op} {holder : Option Tid} {t : Tid} {m : Msg} {ops : List Op}

theorem State.conn_record {call : Call} : (σ.record call).conn = call.apply σ.conn :=
  rfl

-- What the writer goroutine takes disturbs no call.

theorem State.conn_take {closed : Bool} (ht : σ.taken < σ.out.length)
    (h : σ.conn = { out := σ.out, taken := σ.taken, closed }) :
    ({ σ with taken := σ.taken + 1 }.record .take).conn =
      { out := σ.out, taken := σ.taken + 1, closed } := by
  have conn : ({ σ with taken := σ.taken + 1 }.record .take).conn = σ.conn.drain := rfl
  rw [conn, h, Conn.drain]
  exact if_pos ht

theorem State.Rest.take (ht : σ.taken < σ.out.length) (h : σ.Rest) :
    ({ σ with taken := σ.taken + 1 }.record .take).Rest :=
  ⟨h.left, State.conn_take ht h.right⟩

theorem Inside.take (ht : σ.taken < σ.out.length) (h : Inside σ ops) :
    Inside ({ σ with taken := σ.taken + 1 }.record .take) ops := by
  cases h
  case send h               => exact .send (h.take ht)
  case enqueue h hc         => exact .enqueue (h.take ht) hc
  case close h              => exact .close (h.take ht)
  case enqueueFinal hc he h => exact .enqueueFinal hc he (State.conn_take ht h)
  case closeOut hc he h     => exact .closeOut hc he (State.conn_take ht h)
  case unlock h             => exact .unlock (h.take ht)

-- A call has the effect that it has in one step.

theorem State.Rest.send_closed (hc : σ.closed) (h : σ.Rest) : (σ.record (.send m)).Rest := by
  refine ⟨h.left, ?_⟩
  rw [conn_record, h.right]
  simp [Call.apply, Conn.send, hc, State.record]

theorem State.Rest.close_closed {final : Option Msg} (hc : σ.closed) (h : σ.Rest) :
    (σ.record (.close final)).Rest := by
  refine ⟨h.left, ?_⟩
  rw [conn_record, h.right]
  simp [Call.apply, Conn.close, hc, State.record]

-- The channel is open, so the frame is on it or there is no room.
theorem State.select_open (he : σ.ended = false) :
    σ.select m = { σ with out := ((Conn.mk σ.out σ.taken false).send m).1.out } := by
  have full : (Conn.mk σ.out σ.taken false).full = σ.full := rfl
  have sends : ¬σ.ended := by simp [he]
  rw [State.select, if_neg sends]
  simp only [Conn.send, full, Bool.false_or]
  split <;> rfl

theorem State.Rest.enqueue (hc : σ.closed = false) (h : σ.Rest) :
    ((σ.select m).record (.send m)).Rest := by
  have he : σ.ended = false := h.left.trans hc
  refine ⟨by rw [State.select_open he]; exact h.left, ?_⟩
  have conn : (σ.select m).conn = σ.conn := by rw [State.select_open he]; rfl
  rw [conn_record, conn, h.right, State.select_open he, hc]
  simp only [Call.apply, Conn.send, State.record]
  split <;> simp

theorem Inside.enqueueFinal_step (hc : σ.closed) (he : σ.ended = false)
    (h : σ.conn = { out := σ.out, taken := σ.taken }) :
    Inside ((σ.select m).record (.close (some m))) [.closeOut, .unlock] := by
  have conn : (σ.select m).conn = σ.conn := by rw [State.select_open he]; rfl
  refine .closeOut ?_ ?_ ?_
  case refine_1 => rw [State.select_open he]; exact hc
  case refine_2 => rw [State.select_open he]; exact he
  case refine_3 =>
    rw [State.conn_record, conn, h, State.select_open he]
    simp only [Call.apply, Conn.close, Conn.send, State.record, Bool.false_or, Bool.false_eq_true,
      if_false]
    split <;> rfl

-- A step of the goroutine that holds the mutex.
theorem Inside.step {op : Op} {rest : List Op} {i : Unit} {σ' : State} (h : Inside σ (op :: rest))
    (e : exec σ op i = some (σ', ops)) :
    σ'.panicked = σ.panicked ∧
      (σ'.locked = σ.locked ∧ Inside σ' (ops ++ rest) ∨
        σ'.locked = false ∧ ops ++ rest = [] ∧ σ'.Rest) := by
  cases h
  case send h =>
    simp only [exec] at e
    split at e <;> cases e
    case isTrue hc  => exact ⟨rfl, .inl ⟨rfl, .unlock (h.send_closed hc)⟩⟩
    case isFalse hc => exact ⟨rfl, .inl ⟨rfl, .enqueue h (Bool.eq_false_iff.mpr hc)⟩⟩
  case enqueue h hc =>
    cases e
    have he : σ.ended = false := h.left.trans hc
    refine ⟨?_, .inl ⟨?_, .unlock (h.enqueue hc)⟩⟩
    all_goals rw [State.select_open he]; rfl
  case close h =>
    simp only [exec] at e
    split at e
    case isTrue hc => cases e; exact ⟨rfl, .inl ⟨rfl, .unlock (h.close_closed hc)⟩⟩
    case isFalse hc =>
      have hc : σ.closed = false := Bool.eq_false_iff.mpr hc
      have he : σ.ended = false := h.left.trans hc
      split at e <;> cases e
      case h_1 =>
        refine ⟨rfl, .inl ⟨rfl, .closeOut rfl he ?_⟩⟩
        have conn : σ.conn = { out := σ.out, taken := σ.taken } := hc ▸ h.right
        exact congrArg (·.close none) conn
      case h_2 =>
        have conn : σ.conn = { out := σ.out, taken := σ.taken } := hc ▸ h.right
        exact ⟨rfl, .inl ⟨rfl, .enqueueFinal rfl he conn⟩⟩
  case enqueueFinal hc he h =>
    cases e
    refine ⟨?_, .inl ⟨?_, .enqueueFinal_step hc he h⟩⟩
    all_goals rw [State.select_open he]; rfl
  case closeOut hc he h =>
    simp only [exec, he] at e
    cases e
    exact ⟨rfl, .inl ⟨rfl, .unlock ⟨hc.symm, h.trans (by simp [hc])⟩⟩⟩
  case unlock h => cases e; exact ⟨rfl, .inr ⟨rfl, rfl, h⟩⟩

theorem Mutex.start {call : Call} {σ' : State} (e : start c.shared call = some (σ', ops))
    (idle : c.procs t = []) (h : Mutex c holder) : Mutex (c.resume t σ' ops) holder := by
  have free : holder ≠ some t := by
    intro ht
    have inside := h.inside t ht
    rw [idle] at inside
    cases inside
  have waits : σ' = c.shared ∧ Outside ops ∨ c.shared.taken < c.shared.out.length ∧ ops = [] ∧
      σ' = { c.shared with taken := c.shared.taken + 1 }.record .take := by
    cases call <;> simp only [Queue.start] at e
    case send  => cases e; exact .inl ⟨rfl, .send⟩
    case close => cases e; exact .inl ⟨rfl, .close⟩
    case take =>
      split at e <;> cases e
      exact .inr ⟨‹_›, rfl, rfl⟩
  have outside : Outside ops := by
    rcases waits with ⟨_, ho⟩ | ⟨_, rfl, _⟩
    case inl => exact ho
    case inr => exact .idle
  constructor
  case locked   => rcases waits with ⟨rfl, _⟩ | ⟨_, _, rfl⟩ <;> exact h.locked
  case panicked => rcases waits with ⟨rfl, _⟩ | ⟨_, _, rfl⟩ <;> exact h.panicked
  case outside =>
    intro t' ht
    rw [Config.resume_procs]
    split
    case isTrue  => exact outside
    case isFalse => exact h.outside t' ht
  case inside =>
    rintro t' rfl
    rw [Config.resume_procs, if_neg (by rintro rfl; exact free rfl)]
    rcases waits with ⟨rfl, _⟩ | ⟨ht, _, rfl⟩
    case inl => exact h.inside t' rfl
    case inr => exact (h.inside t' rfl).take ht
  case rest =>
    intro hn
    rcases waits with ⟨rfl, _⟩ | ⟨ht, _, rfl⟩
    case inl => exact h.rest hn
    case inr => exact (h.rest hn).take ht

theorem Mutex.lock {σ' : State} (hl : σ' = { c.shared with locked := true })
    (free : c.shared.locked = false) (hi : c.shared.Rest → Inside σ' ops) (h : Mutex c holder) :
    Mutex (c.resume t σ' ops) (some t) := by
  have none : holder = none := by simpa [h.locked] using free
  subst none hl
  constructor
  case locked   => rfl
  case panicked => exact h.panicked
  case outside =>
    intro t' ht
    rw [Config.resume_procs, if_neg (by rintro rfl; exact ht rfl)]
    exact h.outside t' (by simp)
  case inside =>
    rintro t' ⟨⟩
    rw [Config.resume_procs, if_pos rfl]
    exact hi (h.rest rfl)
  case rest => simp

theorem Mutex.step {op : Op} {rest : List Op} {i : Unit} {σ' : State}
    (e : exec c.shared op i = some (σ', ops)) (head : c.procs t = op :: rest)
    (h : Mutex c (some t)) : ∃ holder, Mutex (c.resume t σ' (ops ++ rest)) holder := by
  have inside := h.inside t rfl
  rw [head] at inside
  have ⟨panicked, left⟩ := inside.step e
  have others {t' : Tid} (ht : t' ≠ t) : Outside ((c.resume t σ' (ops ++ rest)).procs t') := by
    rw [Config.resume_procs, if_neg ht]
    exact h.outside t' (by simpa using Ne.symm ht)
  cases left
  case inl left =>
    have ⟨locked, inside⟩ := left
    refine ⟨some t, locked.trans h.locked, panicked.trans h.panicked, fun t' ht => ?_, ?_, by simp⟩
    case refine_1 => exact others (by rintro rfl; exact ht rfl)
    case refine_2 =>
      rintro t' ⟨⟩
      rw [Config.resume_procs, if_pos rfl]
      exact inside
  case inr left =>
    have ⟨unlocked, done, rest⟩ := left
    refine ⟨none, unlocked, panicked.trans h.panicked, fun t' _ => ?_, by simp, fun _ => rest⟩
    by_cases ht : t' = t
    case neg => exact others ht
    case pos =>
      rw [Config.resume_procs, if_pos ht, done]
      exact .idle

theorem mutex_reachable (h : program.system.Reachable c) : ∃ holder, Mutex c holder := by
  refine h.invariant (I := fun c => ∃ holder, Mutex c holder) ?_ ?_
  case refine_1 =>
    rintro c ⟨hi, hp⟩
    refine ⟨none, ⟨by rw [hi]; rfl, by rw [hi], fun t _ => hp t ▸ .idle, by simp, fun _ => ?_⟩⟩
    rw [hi]
    exact ⟨rfl, rfl⟩
  case refine_2 =>
    rintro c l c' - ⟨holder, hi⟩ - e
    replace e := Step.of e
    cases e
    case start idle e => exact ⟨holder, hi.start e idle⟩
    case step t i op rest σ' ops head e =>
      by_cases ht : holder = some t
      case neg =>
        have outside := hi.outside t ht
        rw [head] at outside
        cases outside
        all_goals
          simp only [program, exec] at e
          split at e <;> cases e
        case send hl  => exact ⟨some t, hi.lock rfl (Bool.eq_false_iff.mpr hl) fun h => .send h⟩
        case close hl => exact ⟨some t, hi.lock rfl (Bool.eq_false_iff.mpr hl) fun h => .close h⟩
      case pos =>
        subst ht
        exact hi.step e head

-- No interleaving of calls sends on the closed channel or closes it again. Whenever the mutex is free,
-- the queue is what the calls so far make of it when each is made in one step, as the broker's model
-- makes them.
theorem queue_refines (h : program.system.Reachable c) :
    c.shared.panicked = false ∧
      (c.shared.locked = false → c.shared.conn =
        { out := c.shared.out, taken := c.shared.taken, closed := c.shared.closed }) := by
  have ⟨holder, mutex⟩ := mutex_reachable h
  refine ⟨mutex.panicked, fun free => ?_⟩
  have none : holder = none := by simpa [mutex.locked] using free
  exact (mutex.rest none).right

end Broker.Queue
