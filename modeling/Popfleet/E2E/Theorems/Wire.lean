import Popfleet.E2E.Theorems.Incarnations
import Popfleet.E2E.Wire

open Proto Program

namespace E2E

variable {κ : Type} [DecidableEq κ] {hkdf : Bytes → String → κ} {e2eKey : Bytes} {σ σ' : State κ}
  {op o : Op κ} {i : Input} {ops rest : List (Op κ)} {r : Req κ} {p q : Pty κ} {conn : Nat}
  {sid : String} {c c' : Config (State κ) (Op κ)} {l : Label (Req κ) Input} {t t' : Tid}
  {w w' : Wired κ} {x y : Incarnation} {log : List Wire}

-- The exit of an incarnation was told.
def Exited (x : Incarnation) (log : List Wire) : Prop :=
  ∃ m sent, .frame (some x) x.conn m sent ∈ log ∧ m.t = "exit"

-- The output and the exit of an incarnation come after the exits of those that the session opened for
-- the sid before.
def Wire.Ordered (before : List Wire) : Wire → Prop
  | .opened _ => True
  | .frame y conn m _ => m.t = "out" ∨ m.t = "exit" →
    ∃ x, y = some x ∧ x.conn = conn ∧ x.sid = m.sid ∧ .opened x ∈ before ∧
      ∀ x', .opened x' ∈ before → x'.conn = conn → x'.sid = m.sid → x'.number < x.number →
        Exited x' before

-- The sections by which a PTY is forgotten, and those that tell that it exited.
def Op.ends : Op κ → Prop
  | .forget _ => True
  | .send _ m => m.t = "out" ∨ m.t = "exit"
  | _         => False

-- A thread tells the exit of an incarnation right after it forgot the PTY or did not get one.
inductive Due : Option Incarnation → List (Op κ) → Prop
  | quiet {ops : List (Op κ)} (quiet : ∀ o ∈ ops, ¬o.ends) : Due none ops
  | forget {p : Pty κ} {m : Msg} {ops : List (Op κ)} (exit : m.t = "exit") (sid : m.sid = p.sid)
    (quiet : ∀ o ∈ ops, ¬o.ends) : Due none (.forget p :: .send p.conn m :: ops)
  | send {x : Incarnation} {m : Msg} {ops : List (Op κ)} (exit : m.t = "exit") (sid : m.sid = x.sid)
    (quiet : ∀ o ∈ ops, ¬o.ends) : Due (some x) (.send x.conn m :: ops)

theorem Exited.mono {log' : List Wire} (hl : log ⊆ log') (h : Exited x log) : Exited x log' := by
  have ⟨m, sent, hm, exit⟩ := h
  exact ⟨m, sent, hl hm, exit⟩

theorem Exited.cons {e : Wire} (h : Exited x log) : Exited x (e :: log) :=
  h.mono (List.subset_cons_self e log)

theorem start_ends (e : start e2eKey σ r = some (σ', ops)) : ∀ o ∈ ops, ¬o.ends := by
  revert e
  fun_cases start e2eKey σ r <;> intro e <;> cases e <;> simp [Op.ends]

-- Which sections lead to the end of a PTY.
theorem Exec.ends (e : Exec hkdf e2eKey σ op i σ' ops) :
    (∀ o ∈ ops, ¬o.ends) ∨
    (∃ p m, op = .wait p ∧ ops = [.forget p, .send p.conn m] ∧ m.t = "exit" ∧ m.sid = p.sid) ∨
    ∃ conn sid enc line, op = .spawn conn sid enc line := by
  cases e
  case read conn m =>
    refine .inl (List.forall_mem_append.mpr ⟨?_, by simp [Op.ends]⟩)
    unfold handle
    split <;> simp [Op.ends]
  case notSpawned => exact .inr (.inr ⟨_, _, _, _, rfl⟩)
  case exited => exact .inr (.inl ⟨_, _, rfl, rfl, rfl, rfl⟩)
  case page hp =>
    refine .inl fun o ho => ?_
    have page := hp o ho
    cases o <;> first | contradiction | exact id
  all_goals exact .inl (by simp [Op.ends])

omit [DecidableEq κ] in
theorem Due.append (h : Due none (op :: rest)) (ho : ∀ o ∈ ops, ¬o.ends) (hf : ∀ p, op ≠ .forget p) :
    Due none (ops ++ rest) := by
  cases h
  case forget => exact absurd rfl (hf _)
  case quiet quiet =>
    exact .quiet (List.forall_mem_append.mpr ⟨ho, fun o hm => quiet o (List.mem_cons_of_mem _ hm)⟩)

theorem Due.watch (h : Due (w.exiting t) (op :: rest))
    (e : exec hkdf e2eKey w.config.shared op i = some (σ', ops)) :
    Due ((w.watch t i op).exiting t) (ops ++ rest) := by
  have graph := Exec.of e
  cases hx : w.exiting t
  case some x =>
    rw [hx] at h
    cases h
    case send quiet =>
      have last : ops = [] := by cases i <;> cases e <;> rfl
      simpa [Wired.watch, last] using Due.quiet quiet
  case none =>
    rw [hx] at h
    cases op
    case spawn conn sid enc line =>
      cases i
      case failed =>
        cases e
        cases h
        case quiet quiet =>
          have exiting : (w.watch t .failed (.spawn conn sid enc line)).exiting t =
              some ⟨w.opens, conn, sid⟩ := by simp [Wired.watch, Input.sent]
          rw [exiting]
          exact .send (x := ⟨w.opens, conn, sid⟩) rfl rfl fun o hm => quiet o (List.mem_cons_of_mem _ hm)
      all_goals
        cases e
        have exiting {i : Input} (hi : i.sent) : (w.watch t i (.spawn conn sid enc line)).exiting t =
            none := by simp [Wired.watch, hi, hx]
        rw [exiting rfl]
        exact h.append (by simp [Op.ends]) (by simp)
    case forget p =>
      cases e
      cases h
      case quiet quiet => exact absurd trivial (quiet _ List.mem_cons_self)
      case forget exit quiet sid =>
        have exiting : (w.watch t i (.forget p)).exiting t = some (w.incarnation p) := by
          simp [Wired.watch]
        rw [exiting]
        exact .send (x := w.incarnation p) exit sid quiet
    case send conn m =>
      have last : ops = [] := by cases i <;> cases e <;> rfl
      have exiting : (w.watch t i (.send conn m)).exiting t = none := by simp [Wired.watch]
      rw [exiting, last]
      exact h.append (by simp) (by simp)
    all_goals
      show Due (w.exiting t) _
      rw [hx]
      obtain quiet | ⟨p, m, same, rfl, exit, sid⟩ | ⟨_, _, _, _, same⟩ := graph.ends
      case inl     => exact h.append quiet (by simp)
      case inr.inr => contradiction
      case inr.inl =>
        cases h
        case quiet quiet =>
          exact .forget exit sid fun o hm => quiet o (List.mem_cons_of_mem _ hm)

-- Only `forget` takes a PTY from its goroutine.

theorem Held.start (h : Held p c) (idle : c.procs t = [])
    (e : E2E.start e2eKey c.shared r = some (σ', ops)) : Held p (c.resume t σ' ops) := by
  obtain hp | ⟨o, ho, hop⟩ := h
  case inr => exact .inr ⟨o, ho.start idle, hop⟩
  case inl =>
    exact (start_waiting hp e).imp_right fun ho =>
      ⟨.pump p [] false, Config.pending_of_mem ho, decide_eq_true rfl⟩

theorem Held.step (h : Held p c) (head : c.procs t = op :: rest) (hf : op ≠ .forget p)
    (e : exec hkdf e2eKey c.shared op i = some (σ', ops)) : Held p (c.resume t σ' (ops ++ rest)) := by
  obtain hp | ⟨o, ho, hop⟩ := h
  case inl => exact .inl (exec_waiting hp e)
  case inr =>
    cases ho.step head
    case inr ho => exact .inr ⟨o, ho, hop⟩
    case inl same =>
      subst same
      by_cases waits : o = .wait p
      case neg =>
        exact (exec_unwaited hop hf waits e).imp_right
          fun ⟨o, ho, next, _⟩ => ⟨o, Config.pending_of_mem (List.mem_append_left _ ho), next⟩
      case pos =>
        subst waits
        cases i <;> cases e
        exact .inr ⟨.forget p, Config.pending_of_mem List.mem_cons_self, decide_eq_true rfl⟩

-- An open frame passes while the session is about to tell the exit of the last incarnation of its sid.
def Overtakes (hkdf : Bytes → String → κ) (e2eKey : Bytes) (c : Config (State κ) (Op κ)) :
    Label (Req κ) Input → Prop
  | .start _ _ => False
  | .step t _  => ∃ conn m rest, c.procs t = .openCmd conn m :: rest ∧
    (cmdline hkdf e2eKey c.shared m).isSome ∧
    ∃ t' m' rest', c.procs t' = .send conn m' :: rest' ∧ m'.t = "exit" ∧ m'.sid = m.sid

-- What holds of a run in which no open frame does: an incarnation is over when the next one is opened.
structure Turns (w : Wired κ) : Prop where
  due     : ∀ t, Due (w.exiting t) (w.config.procs t)
  exiting : ∀ {t x}, w.exiting t = some x → .opened x ∈ w.log
  held    : ∀ {p}, Held p w.config → .opened (w.incarnation p) ∈ w.log
  opened  : ∀ {x}, .opened x ∈ w.log → x.number < w.opens ∧
    (Exited x w.log ∨ (∃ t, w.exiting t = some x) ∨ ∃ p, Held p w.config ∧ w.incarnation p = x)
  opening : ∀ {conn sid enc line}, w.config.Pending (.spawn conn sid enc line) →
    ∀ {t x}, w.exiting t = some x → x.conn = conn → x.sid ≠ sid
  turns   : ∀ {x y}, .opened x ∈ w.log → .opened y ∈ w.log → x.conn = y.conn → x.sid = y.sid →
    x.number < y.number → Exited x w.log

theorem Wired.of_step (h : (wired hkdf e2eKey).step w l = some w') :
    ∃ c', (program hkdf e2eKey).system.step w.config l = some c' ∧
      w' = { w.watched l with config := c' } := by
  obtain ⟨c', e, rfl⟩ := Option.map_eq_some_iff.mp h
  exact ⟨c', e, rfl⟩

theorem Exec.spawns {enc : Option κ} {line : Bytes} (e : Exec hkdf e2eKey σ op i σ' ops)
    (ho : .spawn conn sid enc line ∈ ops) :
    ∃ m, op = .openCmd conn m ∧ m.sid = sid ∧ (cmdline hkdf e2eKey σ m).isSome := by
  cases e
  case read conn m =>
    cases List.mem_append.mp ho
    case inr ho => simp at ho
    case inl ho =>
      unfold handle at ho
      split at ho <;> simp at ho
  case authenticated m enc cmd h =>
    cases List.mem_singleton.mp ho
    exact ⟨m, rfl, rfl, by simp [h]⟩
  case page hp => cases hp _ ho
  all_goals simp at ho

theorem start_spawns {enc : Option κ} {line : Bytes} (e : start e2eKey σ r = some (σ', ops)) :
    .spawn conn sid enc line ∉ ops := by
  intro ho
  have opens := start_opens? e _ ho
  simp [Op.opens?] at opens

theorem Turns.start (h : Turns w) (idle : w.config.procs t = [])
    (e : E2E.start e2eKey w.config.shared r = some (σ', ops)) :
    Turns { w with config := w.config.resume t σ' ops } := by
  constructor
  case due =>
    intro t'
    rw [Config.resume_procs]
    split
    case isFalse => exact h.due t'
    case isTrue same =>
      subst same
      have quiet := h.due t'
      rw [idle] at quiet
      cases hx : w.exiting t'
      case none => exact .quiet (start_ends e)
      case some x =>
        rw [hx] at quiet
        cases quiet
  case exiting => exact h.exiting
  case held    => exact fun hp => h.held (hp.of_start e)
  case opened =>
    intro x hx
    refine (h.opened hx).imp_right (.imp_right (.imp_right ?_))
    exact fun ⟨p, hp, same⟩ => ⟨p, hp.start idle e, same⟩
  case opening =>
    intro conn sid enc line ho
    exact h.opening (ho.of_resume.resolve_left (start_spawns e))
  case turns => exact h.turns

-- Frames were sent. The incarnations whose exit is to be told are as before, unless it was told.
structure Wired.Sent (w w' : Wired κ) : Prop where
  opens   : w'.opens = w.opens
  number  : w'.number = w.number
  opened  : ∀ {x}, .opened x ∈ w'.log → .opened x ∈ w.log
  log     : w.log ⊆ w'.log
  exiting : ∀ {t x}, w'.exiting t = some x → w.exiting t = some x
  exits   : ∀ {t x}, w.exiting t = some x → w'.exiting t = some x ∨ Exited x w'.log

omit [DecidableEq κ] in
theorem Due.sent (h : Due (w.exiting t) (op :: rest)) (i : Input)
    (hs : ∀ conn sid enc line, op ≠ .spawn conn sid enc line) (hf : ∀ p, op ≠ .forget p) :
    w.Sent (w.watch t i op) := by
  have same : w.Sent w := ⟨rfl, rfl, id, List.Subset.refl _, id, .inl⟩
  cases op
  case spawn   => exact absurd rfl (hs _ _ _ _)
  case forget  => exact absurd rfl (hf _)
  case sendOut => exact ⟨rfl, rfl, by simp [Wired.watch], List.subset_cons_self .., id, .inl⟩
  case send conn m =>
    refine ⟨rfl, rfl, by simp [Wired.watch], List.subset_cons_self .., fun {t' x} hx => ?_,
      fun {t' x} hx => ?_⟩
    case refine_1 =>
      simp only [Wired.watch, Function.update_apply] at hx
      split at hx
      case isTrue  => contradiction
      case isFalse => exact hx
    case refine_2 =>
      simp only [Wired.watch, Function.update_apply]
      split
      case isFalse => exact .inl hx
      case isTrue here =>
        rw [← here, hx] at h
        cases h
        case send exit _ _ => exact .inr ⟨m, i.sent, here ▸ hx ▸ List.mem_cons_self, exit⟩
  all_goals exact same

omit [DecidableEq κ] in
theorem Due.head (h : Due (some x) ops) :
    ∃ m rest, ops = .send x.conn m :: rest ∧ m.t = "exit" ∧ m.sid = x.sid := by
  cases h
  case send exit _ sid => exact ⟨_, _, rfl, exit, sid⟩

omit [DecidableEq κ] in
theorem watch_exiting (i : Input) (op : Op κ) (hne : t' ≠ t) :
    (w.watch t i op).exiting t' = w.exiting t' := by
  cases op
  case spawn =>
    simp only [Wired.watch]
    split
    case isTrue  => rfl
    case isFalse => exact Function.update_of_ne hne ..
  case forget | send => exact Function.update_of_ne hne ..
  all_goals rfl

theorem Turns.due_step (h : Turns w) (head : w.config.procs t = op :: rest)
    (e : exec hkdf e2eKey w.config.shared op i = some (σ', ops)) (t' : Tid) :
    Due ((w.watch t i op).exiting t') ((w.config.resume t σ' (ops ++ rest)).procs t') := by
  rw [Config.resume_procs]
  split
  case isTrue same =>
    subst same
    have due := h.due t'
    rw [head] at due
    exact due.watch e
  case isFalse other =>
    rw [watch_exiting i op other]
    exact h.due t'

-- A section that neither spawns a shell nor forgets a PTY.
theorem Turns.keep (h : Turns w) (head : w.config.procs t = op :: rest)
    (e : exec hkdf e2eKey w.config.shared op i = some (σ', ops))
    (ho : ¬Overtakes hkdf e2eKey w.config (.step t i))
    (hs : ∀ conn sid enc line, op ≠ .spawn conn sid enc line) (hf : ∀ p, op ≠ .forget p) :
    Turns { w.watch t i op with config := w.config.resume t σ' (ops ++ rest) } := by
  have due : Due (w.exiting t) (op :: rest) := head ▸ h.due t
  have sent := due.sent i hs hf
  have incarnation p : (w.watch t i op).incarnation p = w.incarnation p := by
    simp only [Wired.incarnation, sent.number]
  constructor
  case due     => exact h.due_step head e
  case exiting => exact fun hx => sent.log (h.exiting (sent.exiting hx))
  case held =>
    intro p hp
    have before : Held p w.config := (hp.of_step head (Exec.of e)).resolve_right (by simp [hs])
    exact incarnation p ▸ sent.log (h.held before)
  case opened =>
    intro x hx
    have ⟨older, ended⟩ := h.opened (sent.opened hx)
    refine ⟨sent.opens ▸ older, ?_⟩
    obtain exited | ⟨t', exiting⟩ | ⟨p, held, same⟩ := ended
    case inl     => exact .inl (exited.mono sent.log)
    case inr.inl => exact (sent.exits exiting).symm.imp_right fun exiting => .inl ⟨t', exiting⟩
    case inr.inr => exact .inr (.inr ⟨p, held.step head (hf p) e, (incarnation p).trans same⟩)
  case opening =>
    intro conn sid enc line spawning t' x exiting hc
    have before := sent.exiting exiting
    cases spawning.of_step head
    case inr pending => exact h.opening pending before hc
    case inl passed =>
      obtain ⟨m, rfl, rfl, passes⟩ := (Exec.of e).spawns passed
      have told := h.due t'
      rw [before] at told
      obtain ⟨m', rest', head', exit, sid⟩ := told.head
      intro hs
      exact ho ⟨_, m, rest, head, passes, t', m', rest', hc ▸ head', exit, sid.trans hs⟩
  case turns =>
    intro x y hx hy hc hs earlier
    exact (h.turns (sent.opened hx) (sent.opened hy) hc hs earlier).mono sent.log

theorem Turns.forget (hr : (program hkdf e2eKey).system.Reachable w.config) (h : Turns w)
    (head : w.config.procs t = .forget p :: rest)
    (e : exec hkdf e2eKey w.config.shared (.forget p) i = some (σ', ops)) :
    Turns { w.watch t i (.forget p) with config := w.config.resume t σ' (ops ++ rest) } := by
  have running : Held p w.config := .inr ⟨.forget p, ⟨t, head ▸ List.mem_cons_self⟩, decide_eq_true rfl⟩
  have exiting {t' x} : (w.watch t i (.forget p)).exiting t' = some x →
      t' = t ∧ x = w.incarnation p ∨ w.exiting t' = some x := by
    simp only [Wired.watch, Function.update_apply]
    split
    case isTrue here => exact fun hx => .inl ⟨here, (Option.some.inj hx).symm⟩
    case isFalse     => exact .inr
  constructor
  case due => exact h.due_step head e
  case exiting =>
    intro t' x hx
    obtain ⟨_, rfl⟩ | before := exiting hx
    case inl => exact h.held running
    case inr => exact h.exiting before
  case held => exact fun hq => h.held ((hq.of_step head (Exec.of e)).resolve_right (by simp))
  case opened =>
    intro x hx
    refine (h.opened hx).imp_right (.imp_right ?_)
    rintro (⟨t', before⟩ | ⟨q, held, same⟩)
    case inl =>
      have other : t' ≠ t := by
        rintro rfl
        have told := h.due t'
        rw [before] at told
        obtain ⟨_, _, head', _⟩ := told.head
        cases head.symm.trans head'
      exact .inl ⟨t', (watch_exiting i (.forget p) other).trans before⟩
    case inr =>
      by_cases this : p = q
      case pos => exact .inl ⟨t, this ▸ same ▸ Function.update_self ..⟩
      case neg => exact .inr ⟨q, held.step head (by simpa using this) e, same⟩
  case opening =>
    intro conn sid enc line spawning t' x hx hc
    have pending : w.config.Pending (.spawn conn sid enc line) :=
      (spawning.of_step head).resolve_left (by cases e; simp)
    obtain ⟨_, rfl⟩ | before := exiting hx
    case inr => exact h.opening pending before hc
    case inl =>
      rintro rfl
      subst hc
      exact (housed_reachable hr).not_spawning (readers_reachable hr) running pending
  case turns => exact h.turns

theorem exec_spawn {enc : Option κ} {line : Bytes}
    (e : exec hkdf e2eKey σ (.spawn conn sid enc line) i = some (σ', ops)) :
    i.sent ∧ ops = [.insert { ptr := σ.next, conn, sid, enc }] ∨
    i.sent = false ∧ ∃ m, ops = [.send conn m] := by
  cases i <;> cases e
  case failed => exact .inr ⟨rfl, _, rfl⟩
  all_goals exact .inl ⟨rfl, rfl⟩

theorem Turns.spawn {enc : Option κ} {line : Bytes}
    (hr : (program hkdf e2eKey).system.Reachable w.config) (h : Turns w)
    (head : w.config.procs t = .spawn conn sid enc line :: rest)
    (e : exec hkdf e2eKey w.config.shared (.spawn conn sid enc line) i = some (σ', ops)) :
    Turns { w.watch t i (.spawn conn sid enc line) with
      config := w.config.resume t σ' (ops ++ rest) } := by
  let x₀ : Incarnation := { number := w.opens, conn, sid }
  have running : w.config.Pending (.spawn conn sid enc line) := ⟨t, head ▸ List.mem_cons_self⟩
  have graph := Exec.of e
  have log : (w.watch t i (.spawn conn sid enc line)).log = .opened x₀ :: w.log := by
    simp only [Wired.watch]
    split <;> rfl
  have opens : (w.watch t i (.spawn conn sid enc line)).opens = w.opens + 1 := by
    simp only [Wired.watch]
    split <;> rfl
  -- The numbers of the PTYs that run stay.
  have incarnation {q} (hq : Held q w.config) :
      (w.watch t i (.spawn conn sid enc line)).incarnation q = w.incarnation q := by
    have old : q.ptr ≠ w.config.shared.next := Nat.ne_of_lt (hq.ptr_lt hr)
    simp only [Wired.incarnation, Wired.watch]
    split
    case isTrue  => exact congrArg (Incarnation.mk · _ _) (Function.update_of_ne old ..)
    case isFalse => rfl
  have first (ok : i.sent) : (w.watch t i (.spawn conn sid enc line)).incarnation
      ⟨w.config.shared.next, conn, sid, enc⟩ = x₀ := by
    simp [Wired.incarnation, Wired.watch, ok, x₀]
  have idle {t' x} (hx : w.exiting t' = some x) : t' ≠ t := by
    rintro rfl
    have told := h.due t'
    rw [hx] at told
    obtain ⟨_, _, head', _⟩ := told.head
    cases head.symm.trans head'
  have exiting {t' x} : (w.watch t i (.spawn conn sid enc line)).exiting t' = some x →
      x = x₀ ∨ w.exiting t' = some x := by
    simp only [Wired.watch]
    split
    case isTrue  => exact .inr
    case isFalse =>
      simp only [Function.update_apply]
      split
      case isTrue  => exact fun hx => .inl (Option.some.inj hx).symm
      case isFalse => exact .inr
  -- All that the session opened for the sid before is over.
  have exited {x} (hx : .opened x ∈ w.log) (hc : x.conn = conn) (hs : x.sid = sid) : Exited x w.log := by
    obtain ⟨_, exited | ⟨t', exiting⟩ | ⟨q, held, rfl⟩⟩ := h.opened hx
    case inl     => exact exited
    case inr.inl => exact absurd hs (h.opening running exiting hc)
    case inr.inr =>
      subst hc hs
      exact absurd running ((housed_reachable hr).not_spawning (readers_reachable hr) held)
  constructor
  case due => exact h.due_step head e
  case exiting =>
    intro t' x hx
    rw [log]
    obtain rfl | before := exiting hx
    case inl => exact List.mem_cons_self
    case inr => exact List.mem_cons_of_mem _ (h.exiting before)
  case held =>
    intro q hq
    rw [log]
    cases hq.of_step head graph
    case inl old => exact incarnation old ▸ List.mem_cons_of_mem _ (h.held old)
    case inr new =>
      obtain ⟨_, _, same⟩ := new
      obtain ⟨ok, spawned⟩ | ⟨_, _, failed⟩ := exec_spawn e
      case inl =>
        cases same.symm.trans spawned
        exact first ok ▸ List.mem_cons_self
      case inr => cases same.symm.trans failed
  case opened =>
    intro x hx
    rw [log, opens] at *
    cases List.mem_cons.mp hx
    case inl new =>
      cases new
      refine ⟨Nat.lt_succ_self _, .inr ?_⟩
      obtain ⟨ok, rfl⟩ | ⟨failed, _⟩ := exec_spawn e
      case inl =>
        have insert : Held _
            (w.config.resume t σ' ([.insert ⟨w.config.shared.next, conn, sid, enc⟩] ++ rest)) :=
          .inr ⟨_, Config.pending_of_mem List.mem_cons_self, decide_eq_true rfl⟩
        exact .inr ⟨_, insert, first ok⟩
      case inr => exact .inl ⟨t, by simp [Wired.watch, failed, x₀]⟩
    case inr old =>
      have ⟨older, ended⟩ := h.opened old
      refine ⟨Nat.lt_succ_of_lt older, ?_⟩
      obtain exited | ⟨t', before⟩ | ⟨q, held, same⟩ := ended
      case inl     => exact .inl exited.cons
      case inr.inl => exact .inr (.inl ⟨t', (watch_exiting i _ (idle before)).trans before⟩)
      case inr.inr => exact .inr (.inr ⟨q, held.step head (by simp) e, (incarnation held).trans same⟩)
  case opening =>
    intro conn' sid' enc' line' spawning t' x hx hc
    have next : Op.spawn conn' sid' enc' line' ∉ ops := by
      obtain ⟨_, rfl⟩ | ⟨_, _, rfl⟩ := exec_spawn e <;> simp
    obtain rfl | before := exiting hx
    case inr => exact h.opening ((spawning.of_step head).resolve_left next) before hc
    case inl =>
      exact absurd ((readers_reachable hr).alone head rfl rfl spawning rfl (congrArg some hc.symm)) next
  case turns =>
    intro x y hx hy hc hs earlier
    rw [log] at hx hy ⊢
    have known {z} (hz : .opened z ∈ .opened x₀ :: w.log) : z = x₀ ∨ .opened z ∈ w.log := by
      simpa using hz
    obtain rfl | hy := known hy
    case inl =>
      obtain rfl | hx := known hx
      case inl => exact absurd earlier (Nat.lt_irrefl _)
      case inr => exact (exited hx hc hs).cons
    case inr =>
      obtain rfl | hx := known hx
      case inl => exact absurd earlier (Nat.lt_asymm (h.opened hy).left)
      case inr => exact (h.turns hx hy hc hs earlier).cons

-- The output of a PTY is labelled with its sid.
def Op.Labelled : Op κ → Prop
  | .sendOut p m _ => m.sid = p.sid
  | _              => True

theorem labelled_reachable (h : (program hkdf e2eKey).system.Reachable c) (ho : c.Pending o) :
    o.Labelled := by
  refine (section_invariant (P := program hkdf e2eKey) (I := fun _ => True) (A := fun _ => Op.Labelled)
    (R := fun _ _ => True) (fun _ _ => trivial) ?_ ?_ (fun _ _ _ _ _ => id) h).right o ho
  case refine_1 =>
    intro σ r σ' ops _ e
    replace e : start e2eKey σ r = some (σ', ops) := e
    refine ⟨trivial, trivial, fun o ho => ?_⟩
    revert e
    fun_cases start e2eKey σ r <;> intro e <;> cases e <;> simp_all [Op.Labelled]
  case refine_2 =>
    intro c t i op rest σ' ops _ _ _ _ _ e
    refine ⟨trivial, trivial, ?_⟩
    replace e := Exec.of e
    cases e
    case read conn m =>
      refine List.forall_mem_append.mpr ⟨?_, by simp [Op.Labelled]⟩
      unfold handle
      split <;> simp [Op.Labelled]
    case page hp =>
      intro o ho
      have page := hp o ho
      cases o <;> first | contradiction | trivial
    all_goals simp [Op.Labelled]

theorem config_reachable {Ok : Wired κ → Label (Req κ) Input → Prop}
    (h : (wired hkdf e2eKey).ReachableUnder Ok w) : (program hkdf e2eKey).system.Reachable w.config := by
  induction h
  case init hi => exact .init hi.left
  case step e hi =>
    obtain ⟨c', step, rfl⟩ := Wired.of_step e
    exact .step hi trivial step

omit [DecidableEq κ] in
theorem watched_step (head : w.config.procs t = op :: rest) : w.watched (.step t i) = w.watch t i op := by
  simp [Wired.watched, head]

theorem turns_reachable
    (h : (wired hkdf e2eKey).ReachableUnder (fun w l => ¬Overtakes hkdf e2eKey w.config l) w) :
    Turns w := by
  induction h
  case init w hi =>
    obtain ⟨⟨⟨cipher, init⟩, idle⟩, same⟩ := hi
    have none {o} : ¬w.config.Pending o := by
      rintro ⟨t, ho⟩
      simp [idle t] at ho
    have free {p} : ¬Held p w.config := by
      rintro (hp | ⟨o, ho, _⟩)
      case inl => simp [init] at hp
      case inr => exact none ho
    rw [same]
    refine ⟨fun t => idle t ▸ .quiet (by simp), by simp, fun hp => absurd hp free, by simp,
      fun ho => absurd ho none, by simp⟩
  case step w l w' hr ho stepped h =>
    have reachable := config_reachable hr
    obtain ⟨c', step, rfl⟩ := Wired.of_step stepped
    replace step := Step.of step
    cases step
    case start idle e => exact h.start idle e
    case step op _ _ _ head e =>
      rw [watched_step head]
      cases op
      case spawn  => exact h.spawn reachable head e
      case forget => exact h.forget reachable head e
      all_goals exact h.keep head e ho (by simp) (by simp)

-- On the socket of a session the exit of an incarnation precedes the output and the exit of the next
-- one of the sid, in every run in which no open frame passes in between.
theorem exit_precedes
    (h : (wired hkdf e2eKey).ReachableUnder (fun w l => ¬Overtakes hkdf e2eKey w.config l) w) :
    Transition.Throughout Wire.Ordered w.log := by
  induction h
  case init w hi => exact hi.right ▸ .nil
  case step w l w' hr ho stepped h =>
    have reachable := config_reachable hr
    have turns := turns_reachable hr
    obtain ⟨c', step, rfl⟩ := Wired.of_step stepped
    replace step := Step.of step
    cases step
    case start idle e => exact h
    case step t i op _ _ _ head e =>
      show Transition.Throughout Wire.Ordered (w.watched (.step t i)).log
      rw [watched_step head]
      have running : w.config.Pending op := ⟨t, head ▸ List.mem_cons_self⟩
      cases op
      case spawn =>
        simp only [Wired.watch]
        split <;> exact h.cons trivial
      case sendOut p m last =>
        have held : Held p w.config := .inr ⟨_, running, decide_eq_true rfl⟩
        have sid : m.sid = p.sid := labelled_reachable reachable running
        refine h.cons fun _ => ⟨_, rfl, rfl, sid.symm, turns.held held, fun x hx hc hs => ?_⟩
        exact turns.turns hx (turns.held held) hc (hs.trans sid)
      case send conn m =>
        refine h.cons fun tells => ?_
        have due := turns.due t
        rw [head] at due
        cases hx : w.exiting t
        case none =>
          rw [hx] at due
          cases due
          case quiet quiet => exact absurd tells (quiet _ List.mem_cons_self)
        case some x =>
          rw [hx] at due
          obtain ⟨_, _, same, _, sid⟩ := due.head
          cases same
          refine ⟨x, rfl, rfl, sid.symm, turns.exiting hx, fun x' hx' hc hs => ?_⟩
          exact turns.turns hx' (turns.exiting hx) hc (hs.trans sid)
      all_goals exact h

theorem config_run {ls : List (Label (Req κ) Input)} (e : (wired hkdf e2eKey).run w ls = some w') :
    (program hkdf e2eKey).system.run w.config ls = some w'.config := by
  induction ls generalizing w
  case nil => cases e; rfl
  case cons l ls hi =>
    obtain ⟨w₁, e₁, e₂⟩ := Transition.run_cons_eq_some.mp e
    obtain ⟨c', step, rfl⟩ := Wired.of_step e₁
    exact Transition.run_cons_eq_some.mpr ⟨c', step, hi e₂⟩

-- The session is about to tell an exit.
def Op.tellsExit : Op κ → Bool
  | .send _ m => m.t = "exit"
  | _         => false

-- No other thread than the one that runs has an exit to tell when an open frame passes.
theorem reachable_of_alone {ls : List (Label (Req κ) Input)}
    (h : (wired hkdf e2eKey).ReachableUnder (fun w l => ¬Overtakes hkdf e2eKey w.config l) w)
    (quiet : ∀ t' ≠ t, (w.config.procs t').head?.any Op.tellsExit = false) (hl : ∀ l ∈ ls, l.tid = t)
    (e : (wired hkdf e2eKey).run w ls = some w') :
    (wired hkdf e2eKey).ReachableUnder (fun w l => ¬Overtakes hkdf e2eKey w.config l) w' := by
  induction ls generalizing w
  case nil => cases e; exact h
  case cons l ls hi =>
    obtain ⟨w₁, e₁, e₂⟩ := Transition.run_cons_eq_some.mp e
    obtain ⟨here, others⟩ := List.forall_mem_cons.mp hl
    refine hi (.step h ?_ e₁) ?_ others e₂
    case refine_1 =>
      cases l
      case start => exact id
      case step t₁ i =>
        obtain rfl : t₁ = t := here
        rintro ⟨_, _, _, head, _, t', m', _, head', exit, _⟩
        by_cases same : t' = t₁
        case pos => cases head.symm.trans (same ▸ head')
        case neg =>
          have quiet := quiet t' same
          simp [head', Op.tellsExit, exit] at quiet
    case refine_2 =>
      intro t' hne
      have once : ∀ l' ∈ [l], l'.tid ≠ t' := by simpa [here] using Ne.symm hne
      have ran : (wired hkdf e2eKey).run w [l] = some w₁ := Transition.run_cons_eq_some.mpr ⟨w₁, e₁, rfl⟩
      exact (procs_of_run (config_run ran) once) ▸ quiet t' hne

section Samples

-- The incarnations of sid a0 in the first session, and the frames that open it.

def sampleIncarnation (number : Nat) : Incarnation where
  number := number
  conn   := 0
  sid    := "a0"

def sampleConnected : List (Label (Req (Bytes × String)) Input) :=
  [.start 0 (.session "e1" "" "dev"), .step 0 .done, .step 0 (.frame { t := "hello_ok" })]

def sampleOpen : List (Label (Req (Bytes × String)) Input) :=
  [.step 0 (.frame { t := "open", sid := "a0" }), .step 0 .done, .step 0 .done]

def sampleShell (ptr : Nat) : Pty (Bytes × String) where
  ptr  := ptr
  conn := 0
  sid  := "a0"
  enc  := none

def sampleSpawned : List (Label (Req (Bytes × String)) Input) :=
  sampleOpen ++ [.step 0 .done, .step 0 .done, .step 0 .done]

-- The first shell ends, and the sid is forgotten.
def sampleForgotten : List (Label (Req (Bytes × String)) Input) :=
  [.start 1 (.pump (sampleShell 1)), .step 1 .eof, .step 1 .done, .step 1 (.exit (.exited 0)), .step 1 .done]

-- The second one prints.
def sampleShown : List (Label (Req (Bytes × String)) Input) :=
  [.start 2 (.pump (sampleShell 2)), .step 2 (.chunk [104]), .step 2 .deadline, .step 2 .done,
    .step 2 .done]

def sampleExit : Msg :=
  { t := "exit", sid := "a0", code := some 0 }

def samplePrinted : Msg :=
  { t := "out", sid := "a0", data := "aA==" }

def sampleTellsExit (w : Wired (Bytes × String)) : Bool :=
  [0, 1, 2].any fun t => (w.config.procs t).head?.any Op.tellsExit

theorem quiet_of_run {ls : List (Label (Req (Bytes × String)) Input)} {w : Wired (Bytes × String)}
    (e : (wired Prod.mk []).run { config := initial } ls = some w)
    (own : ∀ l ∈ ls, l.tid ∈ [0, 1, 2]) (quiet : sampleTellsExit w = false) (t : Tid) :
    (w.config.procs t).head?.any Op.tellsExit = false := by
  by_cases here : t ∈ [0, 1, 2]
  case pos => simpa using List.any_eq_false.mp quiet t here
  case neg =>
    have never : ∀ l ∈ ls, l.tid ≠ t := fun l hl same => here (same ▸ own l hl)
    simp [procs_of_run (config_run e) never, initial]

-- The shell ends, its exit is told, and the sid is opened again.
theorem exit_precedes_sample :
    ∃ w, (wired Prod.mk []).run { config := initial } (sampleConnected ++ sampleSpawned ++
        (sampleForgotten ++ [.step 1 .done]) ++ sampleSpawned ++ sampleShown) = some w ∧
      w.log = [.frame (some (sampleIncarnation 1)) 0 samplePrinted true, .opened (sampleIncarnation 1),
        .frame (some (sampleIncarnation 0)) 0 sampleExit true, .opened (sampleIncarnation 0)] ∧
      Transition.Throughout Wire.Ordered w.log := by
  let opened := sampleConnected ++ sampleSpawned
  let exited := opened ++ (sampleForgotten ++ [.step 1 .done])
  let again := exited ++ sampleSpawned
  have ran : ((wired Prod.mk []).run { config := initial } (again ++ sampleShown)).isSome := by decide
  obtain ⟨w, e⟩ := Option.isSome_iff_exists.mp ran
  obtain ⟨w₃, e₃, shown⟩ := Transition.run_append_eq_some.mp e
  obtain ⟨w₂, e₂, reopens⟩ := Transition.run_append_eq_some.mp e₃
  obtain ⟨w₁, e₁, exits⟩ := Transition.run_append_eq_some.mp e₂
  have begun : (wired Prod.mk []).Init { config := initial } := ⟨initial_init, rfl⟩
  have quiet₁ := quiet_of_run e₁ (by decide) (Transition.eq_of_run (f := sampleTellsExit) e₁ (by decide))
  have quiet₂ := quiet_of_run e₂ (by decide) (Transition.eq_of_run (f := sampleTellsExit) e₂ (by decide))
  have quiet₃ := quiet_of_run e₃ (by decide) (Transition.eq_of_run (f := sampleTellsExit) e₃ (by decide))
  have reachable := reachable_of_alone (t := 0) (.init begun) (fun _ _ => rfl) (by decide) e₁
  replace reachable := reachable_of_alone (t := 1) reachable (fun t _ => quiet₁ t) (by decide) exits
  replace reachable := reachable_of_alone (t := 0) reachable (fun t _ => quiet₂ t) (by decide) reopens
  replace reachable := reachable_of_alone (t := 2) reachable (fun t _ => quiet₃ t) (by decide) shown
  exact ⟨w, e, Transition.eq_of_run (f := (·.log)) e (by decide), exit_precedes reachable⟩

-- The sid is opened again when its first shell is forgotten, and the output of the second one comes
-- before the exit of the first.
theorem exit_after_reuse :
    ∃ w, (wired Prod.mk []).run { config := initial } (sampleConnected ++ sampleSpawned ++
        sampleForgotten ++ sampleSpawned ++ sampleShown ++ [.step 1 .done]) = some w ∧
      w.log = [.frame (some (sampleIncarnation 0)) 0 sampleExit true,
        .frame (some (sampleIncarnation 1)) 0 samplePrinted true,
        .opened (sampleIncarnation 1), .opened (sampleIncarnation 0)] ∧
      ¬Transition.Throughout Wire.Ordered w.log := by
  let ls := sampleConnected ++ sampleSpawned ++ sampleForgotten ++ sampleSpawned ++ sampleShown ++
    [.step 1 .done]
  have ran : ((wired Prod.mk []).run { config := initial } ls).isSome := by decide
  obtain ⟨w, e⟩ := Option.isSome_iff_exists.mp ran
  have log : w.log = [.frame (some (sampleIncarnation 0)) 0 sampleExit true,
      .frame (some (sampleIncarnation 1)) 0 samplePrinted true,
      .opened (sampleIncarnation 1), .opened (sampleIncarnation 0)] :=
    Transition.eq_of_run (f := (·.log)) e (by decide)
  refine ⟨w, e, log, fun ordered => ?_⟩
  obtain ⟨x, same, _, _, _, exits⟩ := ordered [_] _ _ log (.inl rfl)
  cases same
  obtain ⟨_, _, told, _⟩ := exits (sampleIncarnation 0) (by simp) rfl rfl (by decide)
  simp at told

end Samples

end E2E
