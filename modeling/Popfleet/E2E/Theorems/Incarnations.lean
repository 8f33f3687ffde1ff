import Popfleet.E2E.Theorems.Authenticity
import Popfleet.E2E.Theorems.Tokens

open Proto Program

namespace E2E

variable {κ : Type} [DecidableEq κ] {hkdf : Bytes → String → κ} {e2eKey : Bytes} {σ σ' : State κ}
  {op o : Op κ} {i : Input} {ops rest : List (Op κ)} {r : Req κ} {p q : Pty κ} {conn : Nat}
  {sid : String} {c c' : Config (State κ) (Op κ)} {l : Label (Req κ) Input} {t : Tid}

-- The PTY has a goroutine that runs or is about to.
def Held (p : Pty κ) (c : Config (State κ) (Op κ)) : Prop :=
  p ∈ c.shared.pumps ∨ ∃ o, c.Pending o ∧ o.pumps p

-- The session was started, and it is over.
def Returned (conn : Nat) (c : Config (State κ) (Op κ)) : Prop :=
  conn < c.shared.next ∧ ∀ o, c.Pending o → o.reader? ≠ some conn

-- The session reads frames, or is about to kill its PTYs.
def Looping (conn : Nat) (c : Config (State κ) (Op κ)) : Prop :=
  c.Pending (.readJSON conn) ∨ c.Pending (.killAll conn)

-- The session and the sid that a section is about to open a PTY for.
def Op.opens? : Op κ → Option (Nat × String)
  | .openCmd conn m     => some (conn, m.sid)
  | .spawn conn sid _ _ => some (conn, sid)
  | .insert p           => some (p.conn, p.sid)
  | _                   => none

-- A PTY is found from when it is opened until it is forgotten or its session is over, and meanwhile its
-- sid is not opened again.
structure Housed (c : Config (State κ) (Op κ)) : Prop where
  opening : ∀ {o conn sid}, c.Pending o → o.opens? = some (conn, sid) →
    (c.shared.ptys conn).get? sid = none
  found   : ∀ {p}, Held p c → c.Pending (.insert p) ∨ (c.shared.ptys p.conn).get? p.sid = some p ∨
    Returned p.conn c ∧ (c.shared.processes p).killed
  sole    : ∀ {p q}, Held p c → Held q c → p.conn = q.conn → p.sid = q.sid → p = q
  empty   : ∀ conn, c.shared.ptys conn = ∅ ∨ Looping conn c

omit [DecidableEq κ] in
theorem Op.handles_of_opens? (h : o.opens? = some (conn, sid)) :
    o.handles ∧ o.reader? = some conn := by
  cases o <;> first | contradiction | exact ⟨rfl, congrArg (Option.map Prod.fst) h⟩

theorem Held.ptr_lt (hr : (program hkdf e2eKey).system.Reachable c) (h : Held p c) :
    p.ptr < c.shared.next := by
  have ⟨known, fresh⟩ := known_reachable hr
  obtain hp | ⟨o, ho, hop⟩ := h
  case inl => exact known.pumps p hp
  case inr => exact fresh o ho p (Op.pty?_of_pumps hop)

-- A section takes up no PTY but the one that it starts.
theorem Held.of_step (head : c.procs t = op :: rest) (e : Exec hkdf e2eKey c.shared op i σ' ops)
    (h : Held p (c.resume t σ' (ops ++ rest))) :
    Held p c ∨ ∃ line, op = .spawn p.conn p.sid p.enc line ∧ ops = [.insert p] := by
  have running : c.Pending op := ⟨t, head ▸ List.mem_cons_self⟩
  obtain ⟨same, passed⟩ | ⟨q, rfl, pushed, rfl⟩ | ⟨q, line, rfl, _, same, rfl⟩ := e.pumps
  case inl =>
    obtain hp | ⟨o, ho, hop⟩ := h
    case inl => exact .inl (.inl (same ▸ hp))
    case inr =>
      cases ho.of_step head
      case inr ho => exact .inl (.inr ⟨o, ho, hop⟩)
      case inl ho =>
        have counted := Nat.lt_of_lt_of_le (List.countP_pos_iff.mpr ⟨o, ho, hop⟩) (passed p)
        have ⟨o', hm, hop'⟩ := List.countP_pos_iff.mp counted
        cases List.mem_singleton.mp hm
        exact .inl (.inr ⟨op, running, hop'⟩)
  case inr.inl =>
    obtain hp | ⟨o, ho, hop⟩ := h
    case inl =>
      cases List.mem_cons.mp (pushed ▸ hp)
      case inl same => exact .inl (.inr ⟨_, running, decide_eq_true same.symm⟩)
      case inr hp   => exact .inl (.inl hp)
    case inr =>
      cases ho.of_step head
      case inl ho => simp at ho
      case inr ho => exact .inl (.inr ⟨o, ho, hop⟩)
  case inr.inr =>
    obtain hp | ⟨o, ho, hop⟩ := h
    case inl => exact .inl (.inl (same ▸ hp))
    case inr =>
      cases ho.of_step head
      case inr ho => exact .inl (.inr ⟨o, ho, hop⟩)
      case inl ho =>
        cases List.mem_singleton.mp ho
        obtain rfl : q = p := of_decide_eq_true hop
        exact .inr ⟨line, rfl, rfl⟩

theorem Returned.step (h : Returned conn c) (placed : c.shared.Placed) (head : c.procs t = op :: rest)
    (e : Exec hkdf e2eKey c.shared op i σ' ops) : Returned conn (c.resume t σ' (ops ++ rest)) := by
  refine ⟨Nat.lt_of_lt_of_le h.left e.next_le, fun o ho hr => ?_⟩
  cases ho.of_step head
  case inl ho => exact h.right op ⟨t, head ▸ List.mem_cons_self⟩ (e.reader? placed o ho conn hr)
  case inr ho => exact h.right o ho hr

-- A section leads to the opening of a PTY only for a sid that it has found to be free.
theorem Exec.opens? (e : Exec hkdf e2eKey σ op i σ' ops) :
    ∀ o ∈ ops, ∀ conn sid, o.opens? = some (conn, sid) →
      (σ.ptys conn).get? sid = none ∨ op.opens? = some (conn, sid) := by
  cases e
  case read conn m =>
    refine List.forall_mem_append.mpr ⟨?_, by simp [Op.opens?]⟩
    unfold handle
    split <;> simp [Op.opens?]
  case newSid none =>
    rintro o ho conn sid h
    cases List.mem_singleton.mp ho
    cases h
    exact .inl none
  case spawned hp => simp [Op.opens?, hp]
  case page hp =>
    intro o hm conn sid hs
    have ⟨busy, _⟩ := Op.handles_of_opens? hs
    simp [Op.quiet_of_isPage (hp o hm)] at busy
  all_goals simp [Op.opens?]

theorem Exec.ptys (e : Exec hkdf e2eKey σ op i σ' ops) :
    σ'.ptys = σ.ptys ∨ (∃ p, op = .insert p ∨ op = .forget p) ∨ ∃ conn, op = .killAll conn := by
  cases e
  case inserted    => exact .inr (.inl ⟨_, .inl rfl⟩)
  case forgot      => exact .inr (.inl ⟨_, .inr rfl⟩)
  case allKilled   => exact .inr (.inr ⟨_, rfl⟩)
  all_goals exact .inl rfl

omit [DecidableEq κ] in
theorem Looping.step (h : Looping conn c) (head : c.procs t = op :: rest)
    (hr : op ≠ .readJSON conn) (hk : op ≠ .killAll conn) :
    Looping conn (c.resume t σ' (ops ++ rest)) :=
  h.imp (fun h => (h.step head).resolve_left hr.symm) fun h => (h.step head).resolve_left hk.symm

theorem start_opens? (e : start e2eKey σ r = some (σ', ops)) : ∀ o ∈ ops, o.opens? = none := by
  revert e
  fun_cases E2E.start e2eKey σ r <;> intro e <;> cases e <;> simp [Op.opens?]

theorem Held.of_start (e : start e2eKey c.shared r = some (σ', ops)) (h : Held p (c.resume t σ' ops)) :
    Held p c := by
  obtain ⟨same, none⟩ | ⟨q, hq, erased, rfl⟩ := start_pumps e
  case inl =>
    obtain hp | ⟨o, ho, hop⟩ := h
    case inl => exact .inl (same ▸ hp)
    case inr =>
      cases ho.of_resume
      case inl ho => exact absurd hop (none p o ho)
      case inr ho => exact .inr ⟨o, ho, hop⟩
  case inr =>
    obtain hp | ⟨o, ho, hop⟩ := h
    case inl => exact .inl (List.mem_of_mem_erase (erased ▸ hp))
    case inr =>
      cases ho.of_resume
      case inr ho => exact .inr ⟨o, ho, hop⟩
      case inl ho =>
        cases List.mem_singleton.mp ho
        obtain rfl : q = p := of_decide_eq_true hop
        exact .inl hq

theorem Housed.start (h : Housed c) (idle : c.procs t = [])
    (e : E2E.start e2eKey c.shared r = some (σ', ops)) : Housed (c.resume t σ' ops) := by
  have ptys := start_ptys e
  have ⟨_, _, fresh⟩ := start_order e
  constructor
  case opening =>
    intro o conn sid ho hs
    show (σ'.ptys conn).get? sid = none
    rw [ptys]
    cases ho.of_resume
    case inl ho => simp [start_opens? e o ho] at hs
    case inr ho => exact h.opening ho hs
  case found =>
    intro p hp
    refine (h.found (hp.of_start e)).imp (·.start idle)
      (.imp (ptys ▸ id) (.imp ?_ (start_processes e ▸ id)))
    rintro ⟨old, ended⟩
    refine ⟨Nat.lt_of_lt_of_le old (start_next_le e), fun o ho hc => ?_⟩
    cases ho.of_resume
    case inl ho => exact absurd old ((fresh o ho _ hc).left ▸ Nat.lt_irrefl _)
    case inr ho => exact ended o ho hc
  case sole => exact fun hp hq => h.sole (hp.of_start e) (hq.of_start e)
  case empty =>
    exact fun conn => (h.empty conn).imp (ptys ▸ id) (Or.imp (·.start idle) (·.start idle))

-- A PTY stays where it is, unless the section is about where it is found.
theorem Housed.stays (hr : (program hkdf e2eKey).system.Reachable c) (h : Housed c)
    (head : c.procs t = op :: rest) (e : exec hkdf e2eKey c.shared op i = some (σ', ops))
    (hp : Held p c) (hi : op ≠ .insert p) :
    (c.resume t σ' (ops ++ rest)).Pending (.insert p) ∨
      (c.shared.ptys p.conn).get? p.sid = some p ∨
      Returned p.conn (c.resume t σ' (ops ++ rest)) ∧ (σ'.processes p).killed := by
  obtain pending | found | ⟨ended, killed⟩ := h.found hp
  case inl     => exact .inl ((pending.step head).resolve_left hi.symm)
  case inr.inl => exact .inr (.inl found)
  case inr.inr =>
    exact .inr (.inr ⟨ended.step (placed_reachable hr) head (Exec.of e),
      (exec_ages (hp.ptr_lt hr) e).killed killed⟩)

-- A section that leaves the tables as they are.
theorem Housed.keep (hr : (program hkdf e2eKey).system.Reachable c) (h : Housed c)
    (head : c.procs t = op :: rest) (e : exec hkdf e2eKey c.shared op i = some (σ', ops))
    (ptys : σ'.ptys = c.shared.ptys) (spawn : ∀ conn sid enc line, op ≠ .spawn conn sid enc line)
    (insert : ∀ p, op ≠ .insert p)
    (loop : ∀ conn, Looping conn c → Looping conn (c.resume t σ' (ops ++ rest))) :
    Housed (c.resume t σ' (ops ++ rest)) := by
  have graph := Exec.of e
  have held {p} (hp : Held p (c.resume t σ' (ops ++ rest))) : Held p c := by
    refine (hp.of_step head graph).resolve_right ?_
    rintro ⟨_, rfl, _⟩
    exact spawn _ _ _ _ rfl
  constructor
  case opening =>
    intro o conn sid ho hs
    show (σ'.ptys conn).get? sid = none
    rw [ptys]
    cases ho.of_step head
    case inr ho => exact h.opening ho hs
    case inl ho =>
      cases graph.opens? o ho conn sid hs
      case inl none => exact none
      case inr hs   => exact h.opening ⟨t, head ▸ List.mem_cons_self⟩ hs
  case found =>
    intro p hp
    exact (h.stays hr head e (held hp) (insert p)).imp_right (.imp_left (ptys ▸ id))
  case sole  => exact fun hp hq => h.sole (held hp) (held hq)
  case empty => exact fun conn => (h.empty conn).imp (ptys ▸ id) (loop conn)

-- No goroutine runs a PTY of a sid while the session is about to spawn a shell for it.
theorem Housed.not_spawning {enc : Option κ} {line : Bytes} (h : Housed c) (readers : Readers c)
    (hq : Held q c) : ¬c.Pending (.spawn q.conn q.sid enc line) := by
  rintro ⟨t, here⟩
  obtain ⟨t', hi⟩ | found | ⟨ended, _⟩ := h.found hq
  case inl =>
    have ⟨_, same⟩ := readers.sole hi rfl rfl here rfl rfl
    cases same
  case inr.inl =>
    have free : (c.shared.ptys q.conn).get? q.sid = none := h.opening ⟨t, here⟩ rfl
    cases free.symm.trans found
  case inr.inr => exact ended.right _ ⟨t, here⟩ rfl

theorem Housed.spawn {enc : Option κ} {line : Bytes} (hr : (program hkdf e2eKey).system.Reachable c)
    (h : Housed c) (head : c.procs t = .spawn conn sid enc line :: rest)
    (e : exec hkdf e2eKey c.shared (.spawn conn sid enc line) i = some (σ', ops)) :
    Housed (c.resume t σ' (ops ++ rest)) := by
  have graph := Exec.of e
  have running : c.Pending (.spawn conn sid enc line) := ⟨t, head ▸ List.mem_cons_self⟩
  have ptys : σ'.ptys = c.shared.ptys := graph.ptys.resolve_right (by simp)
  have free : (c.shared.ptys conn).get? sid = none := h.opening running rfl
  -- The new PTY is the first of its sid.
  have first {p q : Pty κ} {line' : Bytes}
      (new : Op.spawn conn sid enc line = .spawn p.conn p.sid p.enc line') (hq : Held q c)
      (hc : p.conn = q.conn) (hs : p.sid = q.sid) : False := by
    cases new
    exact h.not_spawning (readers_reachable hr) hq (hc ▸ hs ▸ running)
  constructor
  case opening =>
    intro o conn' sid' ho hs
    show (σ'.ptys conn').get? sid' = none
    rw [ptys]
    cases ho.of_step head
    case inr ho => exact h.opening ho hs
    case inl ho =>
      cases graph.opens? o ho conn' sid' hs
      case inl none => exact none
      case inr hs   => exact h.opening running hs
  case found =>
    intro p hp
    cases hp.of_step head graph
    case inl old => exact (h.stays hr head e old (by simp)).imp_right (.imp_left (ptys ▸ id))
    case inr new =>
      have ⟨_, _, new⟩ := new
      exact .inl (Config.pending_of_mem (by simp [new]))
  case sole =>
    intro p q hp hq hc hs
    cases hp.of_step head graph
    case inl old =>
      cases hq.of_step head graph
      case inl old' => exact h.sole old old' hc hs
      case inr new =>
        have ⟨_, new, _⟩ := new
        exact (first new old hc.symm hs.symm).elim
    case inr new =>
      have ⟨_, spawned, new⟩ := new
      cases hq.of_step head graph
      case inl old => exact (first spawned old hc hs).elim
      case inr new' =>
        have ⟨_, _, new'⟩ := new'
        simpa using new.symm.trans new'
  case empty =>
    exact fun conn => (h.empty conn).imp (ptys ▸ id) (·.step head (by simp) (by simp))

theorem Housed.insert (hr : (program hkdf e2eKey).system.Reachable c) (h : Housed c)
    (head : c.procs t = .insert p :: rest)
    (e : exec hkdf e2eKey c.shared (.insert p) i = some (σ', ops)) :
    Housed (c.resume t σ' (ops ++ rest)) := by
  have graph := Exec.of e
  have readers := readers_reachable hr
  have free : (c.shared.ptys p.conn).get? p.sid = none := h.opening ⟨t, head ▸ List.mem_cons_self⟩ rfl
  have held {q} (hq : Held q (c.resume t σ' (ops ++ rest))) : Held q c :=
    (hq.of_step head graph).resolve_right (by simp)
  have stays {q} (hq : Held q c) := h.stays hr head e hq
  cases e
  constructor
  case opening =>
    intro o conn sid ho hs
    have ⟨hb, hc⟩ := Op.handles_of_opens? hs
    rw [Config.resume_shared, setPtys_ptys]
    split
    case isTrue same =>
      have next := readers.alone head rfl rfl ho hb (same ▸ hc)
      cases List.mem_singleton.mp next
      contradiction
    case isFalse =>
      cases ho.of_step head
      case inl ho =>
        cases List.mem_singleton.mp ho
        contradiction
      case inr ho => exact h.opening ho hs
  case found =>
    intro q hq
    rw [Config.resume_shared, setPtys_ptys]
    by_cases same : q = p
    case pos => subst same; simp
    case neg =>
      refine (stays (held hq) (by simpa using Ne.symm same)).imp_right (.imp_left fun found => ?_)
      split
      case isFalse => exact found
      case isTrue hc =>
        have other : q.sid ≠ p.sid := by
          intro hs
          rw [hc, hs, free] at found
          contradiction
        rw [GoMap.get?_set, if_neg other, ← hc]
        exact found
  case sole => exact fun hp hq => h.sole (held hp) (held hq)
  case empty =>
    intro conn
    rw [Config.resume_shared, setPtys_ptys]
    split
    case isTrue same =>
      have followed := readers.loop t
      rw [head] at followed
      have next := followed.left (.readJSON conn) ⟨rfl, conn, congrArg some same.symm, rfl⟩
      exact .inr (.inl ⟨t, by simp [next]⟩)
    case isFalse => exact (h.empty conn).imp_right (·.step head (by simp) (by simp))

theorem Housed.forget (hr : (program hkdf e2eKey).system.Reachable c) (h : Housed c)
    (head : c.procs t = .forget p :: rest)
    (e : exec hkdf e2eKey c.shared (.forget p) i = some (σ', ops)) :
    Housed (c.resume t σ' (ops ++ rest)) := by
  have graph := Exec.of e
  have tokens := tokens_reachable hr
  have run : (Op.forget p).pumps p := decide_eq_true rfl
  have running : c.Pending (.forget p) := ⟨t, head ▸ List.mem_cons_self⟩
  have held {q} (hq : Held q (c.resume t σ' (ops ++ rest))) : Held q c :=
    (hq.of_step head graph).resolve_right (by simp)
  have stays {q} (hq : Held q c) := h.stays hr head e hq (by simp)
  cases e
  let σ' := c.shared.setPtys p.conn ((c.shared.ptys p.conn).delete p.sid)
  -- The PTY has no other goroutine.
  have gone : ¬Held p (c.resume t σ' ([] ++ rest)) := by
    rintro (hp | ⟨o, ⟨t', ho⟩, hop⟩)
    case inl => exact tokens.apart p hp _ running run
    case inr => exact (tokens.single p).none_of_head head run (by simp) ho hop
  constructor
  case opening =>
    intro o conn sid ho hs
    have ho : c.Pending o := (ho.of_step head).resolve_left (by simp)
    rw [Config.resume_shared, setPtys_ptys]
    split
    case isFalse => exact h.opening ho hs
    case isTrue same =>
      subst same
      rw [GoMap.get?_delete, h.opening ho hs, ite_self]
  case found =>
    intro q hq
    have old := held hq
    rw [Config.resume_shared, setPtys_ptys]
    refine (stays old).imp_right (.imp_left fun found => ?_)
    split
    case isFalse => exact found
    case isTrue hc =>
      have other : q.sid ≠ p.sid := by
        intro hs
        cases h.sole old (.inr ⟨_, running, run⟩) hc hs
        exact gone hq
      rw [GoMap.get?_delete, if_neg other, ← hc]
      exact found
  case sole => exact fun hp hq => h.sole (held hp) (held hq)
  case empty =>
    intro conn
    rw [Config.resume_shared, setPtys_ptys]
    refine (h.empty conn).imp (fun none => ?_) (·.step head (by simp) (by simp))
    split
    case isFalse => exact none
    case isTrue same =>
      subst same
      rw [none, GoMap.delete_of_none (by simp)]

theorem exec_killAll (e : exec hkdf e2eKey σ (.killAll conn) i = some (σ', ops)) :
    ops = [] ∧ (∀ conn', σ'.ptys conn' = if conn' = conn then ∅ else σ.ptys conn') ∧
      ∀ sid p, (σ.ptys conn).get? sid = some p → (σ'.processes p).killed := by
  cases e
  refine ⟨rfl, fun conn' => ?_, fun sid p hp => ?_⟩
  case refine_1 =>
    have ⟨processes, same⟩ := setProcess_foldl (σ := σ)
      (fun σ p => { σ.processes p with killed := true, closed := true }) (σ.ptys conn).values
    rw [setPtys_ptys, same]
  case refine_2 =>
    have found : p ∈ (σ.ptys conn).values := GoMap.mem_values.mpr ⟨sid, hp⟩
    refine Eq.subst (motive := fun pr : Process => pr.killed) (processes_foldl_killed _).symm ?_
    rw [if_pos found]

-- The deferred cleanup is the last that the session does.
theorem Housed.killAll (hr : (program hkdf e2eKey).system.Reachable c) (h : Housed c)
    (head : c.procs t = .killAll conn :: rest)
    (e : exec hkdf e2eKey c.shared (.killAll conn) i = some (σ', ops)) :
    Housed (c.resume t σ' (ops ++ rest)) := by
  have graph := Exec.of e
  have readers := readers_reachable hr
  have here : .killAll conn ∈ c.procs t := head ▸ List.mem_cons_self
  have held {q} (hq : Held q (c.resume t σ' (ops ++ rest))) : Held q c :=
    (hq.of_step head graph).resolve_right (by simp)
  have stays {q} (hq : Held q c) := h.stays hr head e hq (by simp)
  obtain ⟨rfl, ptys, killed⟩ := exec_killAll e
  have ⟨first, _⟩ := List.pairwise_cons.mp (head ▸ readers.order t)
  have last : rest = [] :=
    List.eq_nil_iff_forall_not_mem.mpr fun o ho => by simpa [Op.last] using (first o ho).left
  subst last
  have returned : Returned conn (c.resume t σ' ([] ++ [])) := by
    refine ⟨Nat.lt_of_lt_of_le (readers.fresh ⟨t, here⟩ rfl) graph.next_le, ?_⟩
    rintro o ⟨t', ho⟩ hc
    rw [Config.resume_procs] at ho
    split at ho
    case isTrue      => simp at ho
    case isFalse hne => exact hne (readers.owner ho hc here rfl)
  constructor
  case opening =>
    intro o conn' sid ho hs
    rw [Config.resume_shared, ptys]
    split
    case isTrue  => simp
    case isFalse => exact h.opening ((ho.of_step head).resolve_left (by simp)) hs
  case found =>
    intro q hq
    rw [Config.resume_shared, ptys]
    obtain pending | found | ended := stays (held hq)
    case inl     => exact .inl pending
    case inr.inr => exact .inr (.inr ended)
    case inr.inl =>
      by_cases same : q.conn = conn
      case neg => exact .inr (.inl (by rwa [if_neg same]))
      case pos => exact .inr (.inr ⟨same ▸ returned, killed q.sid q (same ▸ found)⟩)
  case sole => exact fun hp hq => h.sole (held hp) (held hq)
  case empty =>
    intro conn'
    rw [Config.resume_shared, ptys]
    split
    case isTrue => exact .inl rfl
    case isFalse other =>
      exact (h.empty conn').imp_right (·.step head (by simp) (by simpa using Ne.symm other))

theorem Housed.exec (hr : (program hkdf e2eKey).system.Reachable c) (h : Housed c)
    (head : c.procs t = op :: rest) (e : exec hkdf e2eKey c.shared op i = some (σ', ops)) :
    Housed (c.resume t σ' (ops ++ rest)) := by
  have ptys := (Exec.of e).ptys
  cases op
  case spawn     => exact h.spawn hr head e
  case insert    => exact h.insert hr head e
  case forget    => exact h.forget hr head e
  case killAll   => exact h.killAll hr head e
  case readJSON conn =>
    refine h.keep hr head e (ptys.resolve_right (by simp)) (by simp) (by simp) fun conn' hl => ?_
    by_cases same : conn = conn'
    case neg => exact hl.step head (by simpa using same) (by simp)
    case pos =>
      subst same
      cases i <;> cases e
      case frame => exact .inl (Config.pending_of_mem (by simp))
      all_goals exact .inr (Config.pending_of_mem (by simp))
  all_goals
    exact h.keep hr head e (ptys.resolve_right (by simp)) (by simp) (by simp)
      fun conn hl => hl.step head (by simp) (by simp)

theorem housed_reachable (h : (program hkdf e2eKey).system.Reachable c) : Housed c := by
  refine h.invariant (I := Housed) ?_ ?_
  case refine_1 =>
    rintro c ⟨⟨cipher, hi⟩, idle⟩
    have none {o} : ¬c.Pending o := by
      rintro ⟨t, ho⟩
      simp [idle t] at ho
    have free {p} : ¬Held p c := by
      rintro (hp | ⟨o, ho, _⟩)
      case inl => simp [hi] at hp
      case inr => exact none ho
    exact ⟨fun ho => absurd ho none, fun hp => absurd hp free, fun hp => absurd hp free,
      fun conn => .inl (by simp [hi])⟩
  case refine_2 =>
    intro c l c' hr hi _ e
    replace e := Step.of e
    cases e
    case start idle e => exact hi.start idle e
    case step head e  => exact hi.exec hr head e

-- The goroutine of `pump` waits for the shell.
def Waits (p : Pty κ) (c : Config (State κ) (Op κ)) : Label (Req κ) Input → Prop
  | .start _ _ => False
  | .step t _  => ∃ rest, c.procs t = .wait p :: rest

-- The shell was spawned, and it was not waited for since.
def Running (hkdf : Bytes → String → κ) (e2eKey : Bytes) (p : Pty κ) (c : Config (State κ) (Op κ)) :
    Prop :=
  ∃ c₀ t i line rest c₁, (program hkdf e2eKey).system.Reachable c₀ ∧
    c₀.procs t = .spawn p.conn p.sid p.enc line :: rest ∧ p.ptr = c₀.shared.next ∧ i ≠ .failed ∧
    (program hkdf e2eKey).system.step c₀ (.step t i) = some c₁ ∧
    ((program hkdf e2eKey).system.after c₁).ReachableUnder (fun c l => ¬Waits p c l) c

-- The goroutine of the PTY did not wait yet.
def Unwaited (p : Pty κ) (c : Config (State κ) (Op κ)) : Prop :=
  p ∈ c.shared.pumps ∨ ∃ o, c.Pending o ∧ o.pumps p ∧ o ≠ .forget p

theorem Unwaited.held (h : Unwaited p c) : Held p c :=
  h.imp_right fun ⟨o, ho, hop, _⟩ => ⟨o, ho, hop⟩

-- Each section of a PTY leads to the next one.
theorem exec_unwaited (hop : op.pumps p) (hf : op ≠ .forget p) (hw : op ≠ .wait p)
    (e : exec hkdf e2eKey σ op i = some (σ', ops)) :
    p ∈ σ'.pumps ∨ ∃ o ∈ ops, o.pumps p ∧ o ≠ .forget p := by
  have next {o : Op κ} (hop : o.pumps p) (hf : o ≠ .forget p) :
      p ∈ σ'.pumps ∨ ∃ o' ∈ [o], o'.pumps p ∧ o' ≠ .forget p :=
    .inr ⟨o, List.mem_singleton_self o, hop, hf⟩
  cases op <;> simp only [Op.pumps, Bool.false_eq_true] at hop
  case insert => cases e; exact next hop (by simp)
  case goPump => cases e; exact .inl (of_decide_eq_true hop ▸ List.mem_cons_self)
  case pump deadline =>
    cases i <;> simp only [exec] at e
    case chunk =>
      cases e
      split
      case isTrue  => exact next hop (by simp)
      case isFalse => exact next hop (by simp)
    case deadline =>
      cases deadline <;> cases e
      exact next hop (by simp)
    case eof => cases e; exact next hop (by simp)
    all_goals contradiction
  case flush buf last =>
    by_cases empty : buf = []
    case pos =>
      simp only [exec, if_pos empty] at e
      cases e
      split
      case isTrue  => exact next hop (by simp)
      case isFalse => exact next hop (by simp)
    case neg =>
      simp only [exec, if_neg empty] at e
      split at e
      case h_1 => cases e; exact next hop (by simp)
      case h_2 =>
        obtain ⟨_, _, e⟩ := Option.bind_eq_some_iff.mp e
        cases e
        exact next hop (by simp)
      case h_3 => contradiction
  case sendOut last =>
    cases i
    case failed => cases e; exact next hop (by simp)
    all_goals
      cases e
      split
      case isTrue  => exact next hop (by simp)
      case isFalse => exact next hop (by simp)
  case wait   => exact absurd (of_decide_eq_true hop ▸ rfl) hw
  case forget => exact absurd (of_decide_eq_true hop ▸ rfl) hf

theorem Unwaited.step (h : Unwaited p c) (hw : ¬Waits p c l)
    (e : (program hkdf e2eKey).system.step c l = some c') : Unwaited p c' := by
  replace e := Step.of e
  cases e
  case start r σ ops idle e =>
    replace e : E2E.start e2eKey c.shared r = some (σ, ops) := e
    obtain hp | ⟨o, ho, hop, hf⟩ := h
    case inr => exact .inr ⟨o, ho.start idle, hop, hf⟩
    case inl =>
      exact (start_waiting hp e).imp_right
        fun ho => ⟨.pump p [] false, Config.pending_of_mem ho, decide_eq_true rfl, by simp⟩
  case step t i op rest σ ops head e =>
    obtain hp | ⟨o, ho, hop, hf⟩ := h
    case inl => exact .inl (exec_waiting hp e)
    case inr =>
      cases ho.step head
      case inr ho => exact .inr ⟨o, ho, hop, hf⟩
      case inl same =>
        subst same
        have unwaiting : o ≠ .wait p := by
          rintro rfl
          exact hw ⟨rest, head⟩
        exact (exec_unwaited hop hf unwaiting e).imp_right
          fun ⟨o, ho, next⟩ => ⟨o, Config.pending_of_mem (List.mem_append_left _ ho), next⟩

theorem Running.held (h : Running hkdf e2eKey p c) : Held p c := by
  have ⟨c₀, t, i, line, rest, c₁, _, head, ptr, ok, e, after⟩ := h
  refine (after.invariant (I := Unwaited p) ?_ fun _ _ _ _ hu hw e => hu.step hw e).held
  rintro c rfl
  replace e := Step.of e
  cases e
  case step head' e =>
    cases head.symm.trans head'
    have spawned : p = { ptr := c₀.shared.next, conn := p.conn, sid := p.sid, enc := p.enc } := ptr ▸ rfl
    cases i
    case failed => contradiction
    all_goals
      cases e
      exact .inr ⟨.insert p, Config.pending_of_mem (by simp [← spawned]), decide_eq_true rfl, by simp⟩

-- In every run, whatever frames a session gets and however the goroutines interleave: of the shells that
-- a session spawned for a sid at most one was not waited for, a goroutine forgets no PTY but its own, and
-- when the session is over it has no PTYs, and all its shells were waited for or killed.
theorem one_pty_per_sid (h : (program hkdf e2eKey).system.Reachable c) :
    (∀ p q, Running hkdf e2eKey p c → Running hkdf e2eKey q c →
      p.conn = q.conn → p.sid = q.sid → p = q) ∧
    (∀ p t rest, c.procs t = .forget p :: rest →
      ∀ q, (c.shared.ptys p.conn).get? p.sid = some q → q = p) ∧
    ∀ conn, Returned conn c → c.shared.ptys conn = ∅ ∧
      ∀ p, Running hkdf e2eKey p c → p.conn = conn → (c.shared.processes p).killed := by
  have housed := housed_reachable h
  have empty {conn} (ended : Returned conn c) : c.shared.ptys conn = ∅ := by
    obtain none | reading | cleaning := housed.empty conn
    case inl     => exact none
    case inr.inl => exact absurd rfl (ended.right _ reading)
    case inr.inr => exact absurd rfl (ended.right _ cleaning)
  refine ⟨fun p q hp hq => housed.sole hp.held hq.held, fun p t rest head q hq => ?_,
    fun conn ended => ⟨empty ended, fun p hp hc => ?_⟩⟩
  case refine_1 =>
    have held : Held p c := .inr ⟨.forget p, ⟨t, head ▸ List.mem_cons_self⟩, decide_eq_true rfl⟩
    obtain hi | found | ⟨ended, _⟩ := housed.found held
    case inl     => simp [housed.opening hi rfl] at hq
    case inr.inl => exact Option.some.inj (hq.symm.trans found)
    case inr.inr => simp [empty ended] at hq
  case refine_2 =>
    subst hc
    obtain hi | found | ⟨_, killed⟩ := housed.found hp.held
    case inl     => exact absurd rfl (ended.right _ hi)
    case inr.inl => simp [empty ended] at found
    case inr.inr => exact killed

-- The step does not wait for a shell.
def unwaiting (c : Config (State κ) (Op κ)) : Label (Req κ) Input → Bool
  | .start _ _ => true
  | .step t _  =>
    match c.procs t with
    | .wait _ :: _ => false
    | _            => true

omit [DecidableEq κ] in
theorem not_waits_of_unwaiting (h : unwaiting c l) : ¬Waits p c l := by
  cases l
  case start => exact id
  case step =>
    rintro ⟨rest, head⟩
    simp [unwaiting, head] at h

-- A session opens a sid and loses its socket before the shell has exited.
theorem one_pty_per_sid_sample :
    let opened : List (Label (Req (Bytes × String)) Input) := [.start 0 (.session "e1" "" "dev"),
      .step 0 .done, .step 0 (.frame { t := "hello_ok" }),
      .step 0 (.frame { t := "open", sid := "a0" }), .step 0 .done, .step 0 .done]
    let lost : List (Label (Req (Bytes × String)) Input) := [.step 0 .done, .step 0 .done,
      .step 0 .failed, .step 0 .done]
    let p : Pty (Bytes × String) := ⟨1, 0, "a0", some (sampleKey, "a0")⟩
    ∃ c, (program Prod.mk sampleKey).system.run initial (opened ++ .step 0 .done :: lost) = some c ∧
      Running Prod.mk sampleKey p c ∧ c.shared.ptys 0 = ∅ ∧ (c.shared.processes p).killed := by
  intro opened lost p
  have ran : ((program Prod.mk sampleKey).system.run initial (opened ++ [.step 0 .done])).isSome := by
    decide
  have ⟨c₁, e⟩ := Option.isSome_iff_exists.mp ran
  have ⟨c₀, e₀, e₁⟩ := Transition.run_append_eq_some.mp e
  have ⟨c₁', e₁, same⟩ := Transition.run_cons_eq_some.mp e₁
  cases same
  let after (c₁ : Config (State (Bytes × String)) (Op (Bytes × String))) :=
    ((program Prod.mk sampleKey).system.after c₁).runWhile unwaiting c₁ lost
  have ran : (after c₁).isSome := Transition.eq_of_run (f := (after · |>.isSome)) e (by decide)
  have ⟨c, e₂⟩ := Option.isSome_iff_exists.mp ran
  have e₃ := Transition.run_after.symm.trans (Transition.run_of_runWhile e₂)
  have whole := Transition.run_append_eq_some.mpr ⟨c₀, e₀, Transition.run_cons_eq_some.mpr ⟨c₁, e₁, e₃⟩⟩
  have head : c₀.procs 0 = [.spawn 0 "a0" (some (sampleKey, "a0")) [], .readJSON 0] :=
    Transition.eq_of_run (f := (·.procs 0)) e₀ (by decide)
  have next : c₀.shared.next = 1 := Transition.eq_of_run (f := (·.shared.next)) e₀ (by decide)
  have running : Running Prod.mk sampleKey p c :=
    ⟨c₀, 0, .done, [], _, c₁, .run (.init initial_init) e₀, head, next.symm, by simp, e₁,
      .runWhile (.init rfl) (fun _ _ => not_waits_of_unwaiting) e₂⟩
  have ended : Returned 0 c := by
    refine ⟨?_, ?_⟩
    case refine_1 =>
      have next : c.shared.next = 2 := Transition.eq_of_run (f := (·.shared.next)) whole (by decide)
      simp [next]
    case refine_2 =>
      rintro o ⟨t, ho⟩
      have done : c.procs t = [] := by
        by_cases ht : t = 0
        case pos => exact ht ▸ Transition.eq_of_run (f := (·.procs 0)) whole (by decide)
        case neg => exact Program.procs_of_run whole (by simp [opened, lost, Label.tid, Ne.symm ht])
      simp [done] at ho
  have ⟨_, _, returned⟩ := one_pty_per_sid (.run (.init initial_init) whole)
  have ⟨empty, killed⟩ := returned 0 ended
  exact ⟨c, whole, running, empty, killed p running rfl⟩

end E2E
